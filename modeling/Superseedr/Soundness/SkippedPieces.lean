import Superseedr.Soundness.PieceConservation

/-! # Skipped pieces are inert

A piece of a skipped file is in no queue, is asked of nobody and is not requested, as long as pieces
are skipped before they are asked for. A piece that is skipped while it is pending stays with its
peers: `apply_priorities` reports it for cancellation, and the configuration handler ignores the report.
-/

namespace Superseedr

variable {pm pm' : PieceManager} {q : ℕ} {host : Host} {s : TorrentState} {a : Action} {c : Scheduler.Core}
  {label : Scheduler.Label}

namespace Scheduler

open PieceManager AList List

structure Inert (c : Core) : Prop where
  need : ∀ p, c.pm.Skipped p → p ∉ c.pm.needQueue
  pending : ∀ p, c.pm.Skipped p → p ∉ c.pm.pendingQueue
  asked : ∀ k p, c.pm.Skipped p → ¬c.Asks k p

variable {c d : Core} {label : Label} {p : ℕ}

def Label.SkipsIdle (c : Core) : Label → Prop
  | .prioritize new => ∀ p, new[p]? = some .skip → p ∉ c.pm.pendingQueue ∧ ∀ k, ¬c.Asks k p
  | _ => True

theorem Requeued.inert_need (requeued : Requeued pm q pm') (clear : ∀ p, pm.Skipped p → p ∉ pm.needQueue)
    (skipped : pm'.Skipped p) : p ∉ pm'.needQueue := by
  rw [requeued.skipped] at skipped
  rw [requeued.mem_needQueue]
  rintro (needed | ⟨rfl, wanted⟩)
  · exact clear p skipped needed
  · exact wanted skipped

theorem Inert.move_need (inert : Inert c) (sound : Sound c) (addressable : label.Addressable) (move : Move label c d)
    (skipped : d.pm.Skipped p) : p ∉ d.pm.needQueue := by
  cases move with
  | assign =>
    rw [mem_needQueue_markAsPending]
    exact fun needed => inert.need p skipped needed.1
  | drop _ _ run =>
    rcases releasePendingPeerOrRequeue_cases run with ⟨-, rfl⟩ | ⟨-, requeued⟩
    · exact inert.need p skipped
    · exact Requeued.inert_need requeued inert.need skipped
  | complete _ missing run =>
    have completed := missing.completed run
    rw [completed.mem_needQueue]
    exact fun needed => inert.need p (completed.skipped.mp skipped) needed.1
  | requeue _ run => exact Requeued.inert_need (requeuePendingToNeed_eq_some run) inert.need skipped
  | prioritize _ length run =>
    exact (applyPriorities_eq_some sound.consistent length run).not_needed_of_skipped sound.consistent skipped
      (inert.need p)
  | load _ loads => exact loads.not_needed_of_skipped addressable skipped
  | adopt _ marked queue =>
    have after := (markAllComplete_eq_some marked).consistent sound.consistent
    obtain ⟨-, members⟩ := rebuildNeedQueue_eq_some after.addressable queue
    exact fun needed => ((members p).mp needed).2 skipped
  | finish => exact not_mem_nil
  | drain same =>
    intro needed
    rcases mem_append.mp needed with needed | drained
    · exact inert.need p skipped needed
    · exact inert.pending p skipped (mem_keys.mpr (same.mem_iff.mp drained))
  | wipe fresh =>
    subst fresh
    exact not_mem_nil
  | _ => exact inert.need p skipped

theorem Reprioritized.new_of_skipped {new : List EffectivePiecePriority} (repainted : Reprioritized pm new pm')
    (skipped : pm'.Skipped p) : new[p]? = some .skip := by
  by_cases inside : p < pm.bitfield.length
  · rw [repainted.priority p inside]
    exact congrArg some skipped
  have outside : pm'.piecePriorities[p]? = none := by
    rw [getElem?_eq_none_iff]
    rcases repainted.sized with standard | sized
    · simp [standard]
    · rw [sized, repainted.bitfield]
      omega
  rw [Skipped, effectivePriority, outside, Option.getD_none] at skipped
  cases skipped

theorem Inert.move (inert : Inert c) (sound : Sound c) (addressable : label.Addressable) (idle : label.SkipsIdle c)
    (move : Move label c d) : Inert d where
  need p skipped := inert.move_need sound addressable move skipped
  pending p skipped pending := by
    rcases move.mem_pendingQueue sound.consistent addressable pending with before | ⟨k, rfl⟩
    · by_cases repaints : label.Repaints
      · cases move with
        | prioritize _ length run =>
          have repainted := applyPriorities_eq_some sound.consistent length run
          exact (idle p (Reprioritized.new_of_skipped repainted skipped)).1 before
        | load _ loads =>
          rw [(loads.facts addressable).2.2.1] at pending
          exact notMem_empty p pending
        | wipe fresh =>
          subst fresh
          exact notMem_empty p pending
        | _ => exact repaints
      · exact inert.pending p ((move.skipped_iff repaints).mp skipped) before
    · cases move with
      | assign _ _ _ _ wanted _ => exact wanted skipped
  asked k p skipped asked := by
    have after := move.asks_iff.mp asked
    by_cases repaints : label.Repaints
    · cases move with
      | prioritize _ length run =>
        have repainted := applyPriorities_eq_some sound.consistent length run
        exact (idle p (Reprioritized.new_of_skipped repainted skipped)).2 k after
      | load unloaded =>
        have inside := sound.inside k p after
        simp [sound.unloaded unloaded] at inside
      | wipe => exact after
      | _ => exact repaints
    · have before := (move.skipped_iff repaints).mp skipped
      cases move with
      | assign _ _ _ _ wanted _ =>
        rcases after with already | ⟨-, rfl⟩
        · exact inert.asked k p before already
        · exact wanted before
      | drop | forget => exact inert.asked k p before after.1
      | adopt | finish => exact after
      | wipe | prioritize | load => exact repaints trivial
      | _ => exact inert.asked k p before after

end Scheduler

open Scheduler

def Event.SkipsIdle (s : TorrentState) : Event → Prop
  | .handle _ (.setUserTorrentConfig path priorities name) =>
    ∀ new, (s.configured path priorities name).calculatePiecePriorities = some new →
      ∀ p, new[p]? = some .skip →
        p ∉ s.pieceManager.pendingQueue ∧ ∀ k peer, s.peers.lookup k = some peer → p ∉ peer.pendingRequests
  | _ => True

theorem Scheduler.Permits.skipsIdle (permits : Permits host s a c label) (idle : (Event.handle host a).SkipsIdle s) :
    label.SkipsIdle c := by
  cases label with
  | prioritize new =>
    obtain ⟨pm, peers, path, priorities, name, rfl, calculated, -⟩ := permits
    intro p skip
    obtain ⟨notPending, notAsked⟩ := idle new calculated p skip
    refine ⟨pm ▸ notPending, ?_⟩
    rintro k ⟨seen, known, asked⟩
    rw [peers] at known
    obtain ⟨peer, found, rfl⟩ := Option.map_eq_some_iff.mp known
    exact notAsked k peer found asked
  | _ => trivial

section Updates

variable {t : TorrentState} {effects : List Effect} {p : ℕ}

theorem update_requests_wanted (small : (Event.handle host a).Addressable) (idle : (Event.handle host a).SkipsIdle s)
    (run : update host s a = some (t, effects)) (sound : Sound (abs s [] ∅)) (inert : Inert (abs s [] ∅))
    (skipped : s.pieceManager.Skipped p) : ∀ request ∈ requestsOf effects, request.2.1 ≠ p := by
  cases assigns : a.assigns with
  | false => simp [requestsOf_eq_nil assigns run]
  | true =>
    have after := update_preserves
      (fun c => Sound c ∧ Inert c ∧ c.pm.Skipped p ∧ ∀ request ∈ c.sent, request.2.1 ≠ p) ?_ run
      ⟨sound, inert, skipped, by simp [Scheduler.abs]⟩
    · exact after.2.2.2
    rintro c d label permits move ⟨sound, inert, skipped, wanted⟩
    have addressable := permits.addressable small
    refine ⟨sound.move addressable move, inert.move sound addressable (permits.skipsIdle idle) move,
      (move.skipped_iff (permits.not_repaints assigns)).mpr skipped, ?_⟩
    rcases move.sent with same | ⟨k, b, rfl, more⟩
    · rwa [same]
    rw [more]
    refine List.forall_mem_append.mpr ⟨wanted, List.forall_mem_singleton.mpr ?_⟩
    rintro rfl
    cases move with
    | request known _ asked => exact inert.asked k b.1 skipped ⟨_, known, asked⟩

end Updates

theorem inert_initial (initial : Initial s) : Inert (abs s [] ∅) := by
  obtain ⟨_, _, _, _, _, rfl⟩ := initial
  have standard : ∀ q, ¬PieceManager.new.Skipped q := fun q => PieceManager.not_skipped_of_priorities_nil rfl
  exact ⟨fun q skipped => absurd skipped (standard q), fun q skipped => absurd skipped (standard q),
    fun _ q skipped => absurd skipped (standard q)⟩

/-- Configurations skip idle pieces only, and piece indices fit into 32 bits. -/
def SkipsInTime (s : TorrentState) (event : Event) : Prop := event.Addressable ∧ event.SkipsIdle s

theorem Reachable.inert (reachable : Reachable SkipsInTime s) : Sound (abs s [] ∅) ∧ Inert (abs s [] ∅) := by
  refine reachable.sound_and Inert (fun _ _ allowed => allowed.1) (fun _ => inert_initial) ?_ ?_ ?_
  · rintro host a s ⟨small, idle⟩ - - c d label permits move sound inert
    exact inert.move sound (permits.addressable small) (permits.skipsIdle idle) move
  · refine fun c d move sound inert => inert.move sound ?_ ?_ move <;> exact trivial
  · exact fun s sent inert => ⟨inert.need, inert.pending, inert.asked⟩

/-- As long as configurations skip idle pieces only, a skipped piece is not in the need queue, and no update
requests a block of it. -/
theorem skipped_pieces_inert {p : ℕ} (reachable : Reachable SkipsInTime s)
    (skipped : s.pieceManager.effectivePriority p = .skip) :
    p ∉ s.pieceManager.needQueue ∧
      ∀ host a t effects, SkipsInTime s (.handle host a) → update host s a = some (t, effects) →
        ∀ k blocks, .sendToPeer k (.bulkRequest blocks) ∈ effects → ∀ block ∈ blocks, block.1 ≠ p := by
  obtain ⟨sound, inert⟩ := reachable.inert
  refine ⟨inert.need p skipped, ?_⟩
  intro host a t effects allowed run k blocks emitted block member
  exact update_requests_wanted allowed.1 allowed.2 run sound inert skipped (k, block)
    (mem_requestsOf.mpr ⟨blocks, emitted, member⟩)

def skipsFirst (s : TorrentState) : Event → Bool
  | .handle _ (.setUserTorrentConfig path priorities name) =>
    (s.configured path priorities name).calculatePiecePriorities = some []
  | _ => true

/-- The first file is skipped from the start, and the second one is downloaded. -/
theorem skipped_pieces_inert_download : ∃ s : TorrentState,
    Reachable SkipsInTime s ∧ s.pieceManager.effectivePriority 0 = .skip ∧ 1 ∈ s.pieceManager.pendingQueue ∧
      0 ∉ s.pieceManager.needQueue ∧
      ∀ host a t effects, SkipsInTime s (.handle host a) → update host s a = some (t, effects) →
        ∀ k blocks, .sendToPeer k (.bulkRequest blocks) ∈ effects → ∀ block ∈ blocks, block.1 ≠ 0 := by
  obtain ⟨s, -, reachable, skipped, pending⟩ := exists_reachable SkipsInTime skipsFirst
    (.handle {} (.setUserTorrentConfig "d" (AList.insert 0 .skip ∅) none) ::
      .handle {} (.metadataReceived (plainTorrent 2) 0) :: .handle {} (.validationComplete []) ::
      newPeer "a" [0xC0])
    (fun s => s.pieceManager.effectivePriority 0 = .skip ∧ 1 ∈ s.pieceManager.pendingQueue.keys)
    (by simp +contextual [newPeer, skipsFirst, SkipsInTime, Event.Addressable, Event.SkipsIdle, numPieces_plainTorrent])
    (by decide +kernel)
  exact ⟨s, reachable, skipped, AList.mem_keys.mpr pending, skipped_pieces_inert reachable skipped⟩

/-- A piece that is skipped while it is pending goes to the need queue when the torrent is paused, and is requested
again when its data turns out to be wrong. -/
theorem skipped_pending_piece_wanted :
    (∃ s : TorrentState, Reachable (fun _ _ => True) s ∧ s.pieceManager.effectivePriority 0 = .skip ∧
      0 ∈ s.pieceManager.needQueue) ∧
    ∃ (s t : TorrentState) (effects : List Effect), Reachable (fun _ _ => True) s ∧
      s.pieceManager.effectivePriority 0 = .skip ∧ update {} s (.assignWork "a") = some (t, effects) ∧
      .sendToPeer "a" (.bulkRequest [(0, 0, 4)]) ∈ effects := by
  constructor
  · exact exists_reached
      (downloadOf (plainTorrent 2) ++ newPeer "a" [0xC0] ++
        [.handle {} (.setUserTorrentConfig "d" (AList.insert 0 .skip ∅) none), .handle {} .pause])
      (fun s => s.pieceManager.effectivePriority 0 = .skip ∧ 0 ∈ s.pieceManager.needQueue) (by decide +kernel)
  · obtain ⟨s, reachable, skipped, requested⟩ := exists_reached
      (downloadOf (plainTorrent 2) ++ newPeer "a" [0xC0] ++ [.handle {} (.incomingBlock "a" 0 0 [1, 2, 3, 4]),
          .handle {} (.setUserTorrentConfig "d" (AList.insert 0 .skip ∅) none),
          .handle {} (.pieceVerified "a" 0 false [1, 2, 3, 4])])
      (fun s => s.pieceManager.effectivePriority 0 = .skip ∧
        .sendToPeer "a" (.bulkRequest [(0, 0, 4)]) ∈ (s.assignWork {} "a").2) (by decide +kernel)
    exact ⟨s, _, _, reachable, skipped, rfl, requested⟩

end Superseedr
