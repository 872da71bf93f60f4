import Superseedr.Soundness.SkippedPieces

/-! # Done means done

A torrent that is done has empty queues and misses skipped pieces only. Two handlers break this: a
configuration that wants a missing piece again, and a failed write, both queue a piece without leaving
the status, because the completion check returns early once the status is done.
-/

namespace Superseedr

variable {host : Host} {a : Action} {c d : Scheduler.Core} {label : Scheduler.Label}

namespace Scheduler

open PieceManager AList List

structure Quiet (pm : PieceManager) : Prop where
  need : pm.needQueue = []
  pending : pm.pendingQueue = ∅
  missing : ∀ p, pm.Missing p → pm.Skipped p

def Finished (c : Core) : Prop := c.status = .done → Quiet c.pm

variable {c d : Core} {label : Label}

def Label.KeepsDone (c : Core) : Label → Prop
  | .requeue p => c.status = .done → c.pm.Skipped p
  | .prioritize new => c.status = .done → ∀ p, c.pm.Missing p → new[p]? = some .skip
  | _ => True

section Quiet

variable {pm pm' : PieceManager} {p : ℕ}

theorem Quiet.owners (quiet : Quiet pm) : pm.owners p = [] :=
  owners_eq_nil (quiet.pending ▸ notMem_empty p)

theorem Quiet.requeued (quiet : Quiet pm) (skipped : pm.Skipped p) (requeued : Requeued pm p pm') : Quiet pm' where
  need := by
    rw [requeued.needQueue, if_neg fun wanted => wanted.1 skipped, quiet.need]
  pending := by
    refine eq_empty_of_forall_notMem fun q pending => ?_
    have before := (requeued.mem_pendingQueue.mp pending).2
    rw [quiet.pending] at before
    exact notMem_empty q before
  missing q missing := by
    rw [requeued.skipped]
    by_cases same : q = p
    · exact same ▸ skipped
    · exact quiet.missing q ((requeued.missing_of_ne same).mp missing)

theorem Quiet.completed (quiet : Quiet pm) (completed : Completed pm p pm') : Quiet pm' where
  need := by rw [completed.needQueue, quiet.need, filter_nil]
  pending := by
    refine eq_empty_of_forall_notMem fun q pending => ?_
    have before := (completed.mem_pendingQueue.mp pending).2
    rw [quiet.pending] at before
    exact notMem_empty q before
  missing q missing := completed.skipped.mpr (quiet.missing q (completed.missing_iff.mp missing).1)

theorem Quiet.reprioritized {new : List EffectivePiecePriority} (quiet : Quiet pm)
    (unwanted : ∀ p, pm.Missing p → new[p]? = some .skip) (repainted : Reprioritized pm new pm') : Quiet pm' := by
  have skipped : ∀ q, pm.Missing q → pm'.Skipped q := by
    intro q missing
    have priority := repainted.priority q missing.lt_length
    rw [unwanted q missing] at priority
    exact (Option.some.inj priority).symm
  refine ⟨eq_nil_iff_forall_not_mem.mpr fun q needed => ?_, repainted.pendingQueue.trans quiet.pending,
    fun q missing => skipped q (repainted.missing.mp missing)⟩
  rcases repainted.needed_cases needed with before | ⟨missing, -, -, wanted⟩
  · rw [quiet.need] at before
    exact not_mem_nil before
  · exact wanted (skipped q missing)

theorem quiet_of_done (consistent : pm.Consistent) (done : ∀ status ∈ pm.bitfield, status = .done) : Quiet pm := by
  have nothing : ∀ q, ¬pm.Missing q := by
    intro q missing
    have status := done _ (mem_of_getElem? missing)
    simp at status
  refine ⟨?_, ?_, fun q missing => absurd missing (nothing q)⟩
  · exact eq_nil_iff_forall_not_mem.mpr fun q needed => nothing q (consistent.needMissing q needed)
  · exact eq_empty_of_forall_notMem fun q pending => nothing q (consistent.pendingMissing q pending)

end Quiet

theorem Finished.move (before : Finished c) (sound : Sound c) (keeps : label.KeepsDone c) (move : Move label c d) :
    Finished d := by
  intro done
  cases move with
  | @assign _ k p peer _ _ _ _ _ available =>
    exfalso
    split_ifs at done
    have quiet := before done
    rcases available with needed | ⟨running, -⟩ | ⟨-, owner⟩
    · rw [quiet.need] at needed
      exact not_mem_nil needed
    · rw [running] at done
      cases done
    · rw [quiet.owners] at owner
      exact not_mem_nil owner
  | drop asked notDone run =>
    have quiet := before done
    rcases releasePendingPeerOrRequeue_cases run with ⟨left, -⟩ | ⟨-, requeued⟩
    · rw [quiet.owners] at left
      exact absurd rfl left
    · have missing := missing_of_not_done (sound.inside _ _ asked) notDone
      exact quiet.requeued (quiet.missing _ missing) requeued
  | complete _ missing run =>
    have completed := missing.completed run
    exact (before done).completed completed
  | requeue _ run => exact (before done).requeued (keeps done) (requeuePendingToNeed_eq_some run)
  | prioritize _ length run =>
    exact (before done).reprioritized (keeps done) (applyPriorities_eq_some sound.consistent length run)
  | load unloaded =>
    have status := sound.awaiting unloaded
    cases status.symm.trans done
  | finish _ complete => exact ⟨rfl, rfl, fun q missing => isComplete_eq_true complete missing⟩
  | seed complete _ => exact quiet_of_done sound.consistent complete
  | drain same =>
    have quiet := before done
    rw [quiet.pending] at same
    refine ⟨?_, rfl, quiet.missing⟩
    rw [quiet.need, nil_append]
    exact perm_nil.mp same
  | wipe =>
    split_ifs at done
  | validate | adopt => simp at done
  | assemble | recount =>
    have quiet := before done
    exact { quiet with }
  | _ => exact before done

end Scheduler

open Scheduler

/-- While the torrent is done, no wanted piece fails to be written and no missing piece is wanted again, unless
validation starts over. -/
def Event.KeepsDone (s : TorrentState) : Event → Prop
  | .handle _ (.pieceWriteFailed p) =>
    s.torrentStatus = .done → p < s.pieceManager.bitfield.length → s.pieceManager.effectivePriority p = .skip
  | .handle _ (.setUserTorrentConfig path priorities name) =>
    s.torrentStatus = .done → s.startsValidation path = false →
      ∀ new, (s.configured path priorities name).calculatePiecePriorities = some new →
        ∀ p : ℕ, s.pieceManager.bitfield[p]? = some .need → new[p]? = some .skip
  | _ => True

variable {s : TorrentState}

theorem Scheduler.Permits.keepsDone (permits : Permits host s a c label) (move : Move label c d)
    (keeps : (Event.handle host a).KeepsDone s) : label.KeepsDone c := by
  cases label with
  | requeue p =>
    obtain ⟨start, rfl⟩ := permits
    intro done
    cases move with
    | requeue inside =>
      rw [start.pm] at inside ⊢
      exact keeps (start.status ▸ done) inside
  | prioritize new =>
    obtain ⟨pm, -, path, priorities, name, rfl, calculated, status⟩ := permits
    intro done p missing
    rw [status] at done
    split_ifs at done with starts
    rw [pm] at missing
    exact keeps done (Bool.eq_false_iff.mpr starts) new calculated p missing
  | _ => trivial

/-- Piece indices fit into 32 bits, and a torrent that is done stays complete. -/
def StaysComplete (s : TorrentState) (event : Event) : Prop := event.Addressable ∧ event.KeepsDone s

theorem finished_initial (initial : Initial s) : Finished (abs s [] ∅) := by
  obtain ⟨_, _, _, _, _, rfl⟩ := initial
  exact fun done => absurd done (by simp [Scheduler.abs, TorrentState.new])

theorem Reachable.finished (reachable : Reachable StaysComplete s) : Finished (abs s [] ∅) := by
  refine (reachable.sound_and Finished (fun _ _ allowed => allowed.1) (fun _ => finished_initial) ?_ ?_ ?_).2
  · rintro host a s ⟨-, keeps⟩ - - c d label permits move sound finished
    exact finished.move sound (permits.keepsDone move keeps) move
  · refine fun c d move sound finished => finished.move sound ?_ move
    exact trivial
  · exact fun s sent finished => finished

/-- In every run that keeps finished torrents complete, a torrent that is done has empty queues, and each of its
pieces is done or skipped. -/
theorem done_means_done (reachable : Reachable StaysComplete s) (done : s.torrentStatus = .done) :
    s.pieceManager.needQueue = [] ∧ s.pieceManager.pendingQueue.keys = [] ∧
      ∀ p < s.pieceManager.bitfield.length,
        s.pieceManager.bitfield[p]? = some .done ∨ s.pieceManager.effectivePriority p = .skip := by
  have quiet := reachable.finished done
  refine ⟨quiet.need, ?_, fun p inside => ?_⟩
  · rw [show s.pieceManager.pendingQueue = ∅ from quiet.pending]
    rfl
  · rcases PieceManager.missing_or_done inside with missing | isDone
    · exact .inr (quiet.missing p missing)
    · exact .inl isDone

/-- Validation finds the first file, and the second one is skipped. -/
theorem done_means_done_partial : ∃ s : TorrentState,
    Reachable StaysComplete s ∧ s.torrentStatus = .done ∧ s.pieceManager.bitfield = [.done, .need] ∧
      s.pieceManager.needQueue = [] ∧ s.pieceManager.pendingQueue.keys = [] ∧
      ∀ p < s.pieceManager.bitfield.length,
        s.pieceManager.bitfield[p]? = some .done ∨ s.pieceManager.effectivePriority p = .skip := by
  obtain ⟨s, -, reachable, done, bits⟩ := exists_reachable StaysComplete (fun s _ => decide (s.torrentStatus ≠ .done))
    [.handle {} (.setUserTorrentConfig "d" (AList.insert 1 .skip ∅) none),
      .handle {} (.metadataReceived (plainTorrent 2) 0), .handle {} (.validationComplete [0])]
    (fun s => s.torrentStatus = .done ∧ s.pieceManager.bitfield = [.done, .need])
    (by simp +contextual [StaysComplete, Event.Addressable, Event.KeepsDone, numPieces_plainTorrent])
    (by decide +kernel)
  exact ⟨s, reachable, done, bits, done_means_done reachable done⟩

/-- A file that is wanted again after completion is queued, and the torrent still is done. -/
theorem done_with_queued_piece : ∃ s : TorrentState, Reachable (fun _ _ => True) s ∧ s.torrentStatus = .done ∧
    s.pieceManager.needQueue = [1] ∧ s.pieceManager.bitfield[1]? = some .need ∧
    s.pieceManager.effectivePriority 1 = .normal := by
  exact exists_reached
    [.handle {} (.setUserTorrentConfig "d" (AList.insert 1 .skip ∅) none),
      .handle {} (.metadataReceived (plainTorrent 2) 0), .handle {} (.validationComplete [0]),
      .handle {} (.setUserTorrentConfig "d" ∅ none)]
    (fun s => s.torrentStatus = .done ∧ s.pieceManager.needQueue = [1] ∧
      s.pieceManager.bitfield[1]? = some .need ∧ s.pieceManager.effectivePriority 1 = .normal) (by decide +kernel)

end Superseedr
