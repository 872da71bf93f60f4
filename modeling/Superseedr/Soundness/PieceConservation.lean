import Superseedr.Soundness.Runs

/-! # No piece is lost or duplicated

In every state the queues hold missing pieces only, each once, and the number of remaining pieces is
right. Outside of validation every wanted piece is in one of the queues. Pieces are numbered by 32-bit
integers, so all of this is about torrents with at most `2 ^ 32` pieces: the queue of a larger torrent
repeats its first pieces.
-/

namespace Superseedr

open List Option EmittingStep

variable {statuses : List PieceStatus} {priorities : List EffectivePiecePriority} {pm : PieceManager} {p : ℕ}
  {k : PeerId} {sent : List (PeerId × BlockRequest)} {owed : Set (PeerId × ℕ)} {host : Host} {a : Action}
  {c : Scheduler.Core} {label : Scheduler.Label} {t : TorrentState} {effects : List Effect}
  {allowed : TorrentState → Event → Prop}

section Completion

open PieceManager TorrentState

theorem allDoneOrSkip_eq_true (complete : allDoneOrSkip statuses priorities = some true)
    (missing : statuses[p]? = some .need) : priorities[p]? = some .skip := by
  induction statuses generalizing priorities p with
  | nil => simp at missing
  | cons status rest ih =>
    cases status with
    | done =>
      cases p with
      | zero => simp at missing
      | succ p =>
        have later := ih complete (by simpa using missing)
        cases priorities with
        | nil => simp at later
        | cons priority priorities => simpa using later
    | need =>
      cases priorities with
      | nil => simp [allDoneOrSkip] at complete
      | cons priority priorities =>
        rw [allDoneOrSkip] at complete
        split_ifs at complete with skip
        · cases p with
          | zero => simp [skip]
          | succ p =>
            have later := ih complete (by simpa using missing)
            simpa using later
        · simp at complete

theorem isComplete_eq_true (complete : isComplete pm = some true) (missing : pm.Missing p) : pm.Skipped p := by
  unfold isComplete at complete
  split_ifs at complete with standard
  · simp only [some.injEq, List.all_eq_true, decide_eq_true_eq] at complete
    have done := complete _ (List.mem_of_getElem? missing)
    simp at done
  · have skip := allDoneOrSkip_eq_true complete missing
    rw [Skipped, effectivePriority, skip, getD_some]

end Completion

variable {s : TorrentState}

namespace Scheduler

open PieceManager

structure Sound (c : Core) : Prop where
  consistent : c.pm.Consistent
  covered : c.status ≠ .validating → c.pm.Covered
  unloaded : c.torrent = none → c.pm.bitfield = []
  awaiting : c.torrent = none → c.status = .awaitingMetadata
  inside : ∀ k p, c.Asks k p → p < c.pm.bitfield.length

variable {c d : Core} {label : Label}

theorem Sound.missing_of_available (sound : Sound c) {peer : PeerView}
    (available : p ∈ c.pm.needQueue ∨ (c.status = .endgame ∧ p ∈ c.pm.pendingQueue) ∨
      (p ∈ peer.asks ∧ k ∈ c.pm.owners p)) : c.pm.Missing p := by
  rcases available with needed | ⟨-, pending⟩ | ⟨-, owner⟩
  · exact sound.consistent.needMissing p needed
  · exact sound.consistent.pendingMissing p pending
  refine sound.consistent.pendingMissing p ?_
  by_contra absent
  rw [owners_eq_nil absent] at owner
  exact not_mem_nil owner

section

variable (sound : Sound c) (addressable : label.Addressable) (moved : Move label c d)
include sound moved

theorem Sound.move_awaiting (none : d.torrent = none) : d.status = .awaitingMetadata := by
  have before := sound.awaiting
  have empty := sound.unloaded
  cases moved with
  | assign _ _ _ _ _ available =>
    have inside := (sound.missing_of_available available).lt_length
    simp [empty none] at inside
  | load => simp at none
  | validate loaded => exact absurd none loaded
  | adopt validating =>
    rw [before none] at validating
    exact absurd validating (by decide)
  | finish downloading =>
    rw [before none] at downloading
    exact absurd downloading (by decide)
  | seed _ nonempty => exact absurd (empty none) nonempty
  | wipe =>
    rw [if_neg (by simp [show c.torrent = Option.none from none])]
  | _ => exact before none

include addressable

theorem Sound.move_consistent : d.pm.Consistent := by
  have consistent := sound.consistent
  cases moved with
  | assign _ _ _ _ _ available =>
    exact consistent.markAsPending (sound.missing_of_available available) _
  | drop asked _ run => exact consistent.release run (sound.inside _ _ asked)
  | complete _ _ run => exact consistent.complete run
  | requeue inside run => exact (requeuePendingToNeed_eq_some run).consistent consistent inside
  | prioritize _ length run => exact (applyPriorities_eq_some consistent length run).consistent consistent
  | load _ loads => exact (loads.facts addressable).1
  | adopt _ marked queue =>
    have adopted := markAllComplete_eq_some marked
    have after := adopted.consistent consistent
    obtain ⟨nodup, members⟩ := rebuildNeedQueue_eq_some after.addressable queue
    refine ⟨after.priorities, after.addressable, nodup, fun q member => ((members q).mp member).1, ?_, ?_,
      after.remaining⟩
    · exact fun q member => absurd member (AList.notMem_empty q)
    · exact fun q _ => AList.notMem_empty q
  | finish =>
    have emptied := consistent.emptied
    exact { emptied with }
  | drain same => exact consistent.drained same
  | wipe fresh =>
    subst fresh
    refine ⟨.inl rfl, ?_, nodup_nil, by simp [new], ?_, by simp [new], by simp⟩
    · simpa using consistent.addressable
    · exact fun q member => absurd member (AList.notMem_empty q)
  | assemble | recount => exact { consistent with }
  | _ => exact consistent

theorem Sound.move_covered (running : d.status ≠ .validating) : d.pm.Covered := by
  have covered := sound.covered
  cases moved with
  | assign stillRunning => exact (covered stillRunning).markAsPending _ _
  | drop _ _ run => exact (covered running).release run
  | complete stillRunning missing run =>
    have completed := missing.completed run
    exact completed.covered (covered stillRunning.1)
  | requeue _ run => exact (requeuePendingToNeed_eq_some run).covered (covered running)
  | prioritize _ length run =>
    exact (applyPriorities_eq_some sound.consistent length run).covered (covered running)
  | load _ loads => exact (loads.facts addressable).2.1
  | adopt _ marked queue =>
    have adopted := markAllComplete_eq_some marked
    have after := adopted.consistent sound.consistent
    obtain ⟨-, members⟩ := rebuildNeedQueue_eq_some after.addressable queue
    exact fun q missing wanted => .inl ((members q).mpr ⟨missing, wanted⟩)
  | finish _ complete =>
    exact fun q missing wanted => absurd (isComplete_eq_true complete missing) wanted
  | seed complete _ =>
    intro q missing _
    have done := complete _ (mem_of_getElem? missing)
    simp at done
  | drain same => exact (covered running).drained same
  | wipe fresh =>
    subst fresh
    intro q missing _
    have inside := missing.lt_length
    cases loaded : c.torrent with
    | none => simp [sound.unloaded loaded] at inside
    | some torrent => simp [loaded] at running
  | validate => exact absurd rfl running
  | _ => exact covered running

theorem Sound.move : Sound d where
  consistent := sound.move_consistent addressable moved
  covered := sound.move_covered addressable moved
  unloaded none := by
    by_cases loads : ∃ torrent, label = .load torrent
    · obtain ⟨torrent, rfl⟩ := loads
      cases moved with
      | load => simp at none
    simp only [not_exists] at loads
    have length := moved.length_bitfield sound.consistent loads
    rw [moved.torrent loads] at none
    rw [sound.unloaded none] at length
    exact eq_nil_of_length_eq_zero length
  awaiting := sound.move_awaiting moved
  inside k p asked := by
    by_cases loads : ∃ torrent, label = .load torrent
    · obtain ⟨torrent, rfl⟩ := loads
      have before := sound.inside k p (moved.asks_iff.mp asked)
      cases moved with
      | load unloaded => simp [sound.unloaded unloaded] at before
    simp only [not_exists] at loads
    rw [moved.length_bitfield sound.consistent loads]
    have before := moved.asks_iff.mp asked
    cases moved with
    | assign _ _ _ _ _ available =>
      rcases before with already | ⟨rfl, rfl⟩
      · exact sound.inside k p already
      · exact (sound.missing_of_available available).lt_length
    | drop | forget => exact sound.inside k p before.1
    | adopt | finish | wipe => exact before.elim
    | load => exact absurd rfl (loads _)
    | _ => exact sound.inside k p before

end

/-- Soundness does not depend on the account of the current update. -/
theorem Sound.of_abs (sound : Sound (abs s sent owed)) (sent' : List (PeerId × BlockRequest))
    (owed' : Set (PeerId × ℕ)) : Sound (abs s sent' owed') :=
  { sound with }

theorem sound_initial (initial : Initial s) : Sound (abs s [] ∅) := by
  obtain ⟨_, _, _, _, _, rfl⟩ := initial
  refine ⟨?_, fun _ q missing => ?_, fun _ => rfl, fun _ => rfl, ?_⟩
  · exact (consistent_setInitialFields (by omega) false : (new.setInitialFields 0 false).Consistent)
  · exact absurd missing.lt_length (Nat.not_lt_zero q)
  · rintro k q ⟨peer, known, -⟩
    have nobody := peersView_eq_none.mpr (AList.notMem_empty k)
    exact absurd (nobody.symm.trans known) (by simp)

end Scheduler

open Scheduler

/-- Metadata stays within the range of 32-bit piece indices. -/
def Event.Addressable : Event → Prop
  | .handle _ (.metadataReceived torrent _) => torrent.numPieces ≤ 2 ^ 32
  | _ => True

theorem Scheduler.Permits.addressable (permits : Permits host s a c label) (small : (Event.handle host a).Addressable) :
    label.Addressable := by
  cases label with
  | load torrent =>
    obtain ⟨length, rfl⟩ := permits
    exact small
  | _ => trivial

theorem update_sound (small : (Event.handle host a).Addressable) (run : update host s a = some (t, effects))
    (sound : Sound (abs s [] ∅)) : Sound (abs t [] ∅) :=
  (update_preserves Sound
    (fun _ _ _ permits move sound => sound.move (permits.addressable small) move) run sound).of_abs [] ∅

theorem updateRarity_move (s : TorrentState) : Move .recount (abs s [] ∅) (abs (updateRarity s) [] ∅) :=
  .recount

theorem Reachable.sound_and (holds : Core → Prop) (reachable : Reachable allowed s)
    (small : ∀ s event, allowed s event → event.Addressable) (start : ∀ s, Initial s → holds (abs s [] ∅))
    (handled : ∀ host a s, allowed s (.handle host a) → Sound (abs s [] ∅) → holds (abs s [] ∅) →
      ∀ c d label, Permits host s a c label → Move label c d → Sound c → holds c → holds d)
    (recounted : ∀ c d, Move .recount c d → Sound c → holds c → holds d)
    (unsent : ∀ s sent, holds (abs s sent ∅) → holds (abs s [] ∅)) : Sound (abs s [] ∅) ∧ holds (abs s [] ∅) := by
  refine reachable.invariant (fun s => Sound (abs s [] ∅) ∧ holds (abs s [] ∅)) ?_ ?_ ?_
  · exact fun s initial => ⟨sound_initial initial, start s initial⟩
  · rintro host a s t effects admitted run ⟨sound, held⟩
    have after := update_preserves (fun c => Sound c ∧ holds c) (fun c d label permits move before =>
      ⟨before.1.move (permits.addressable (small _ _ admitted)) move,
        handled host a s admitted sound held c d label permits move before.1 before.2⟩) run ⟨sound, held⟩
    exact ⟨after.1.of_abs [] ∅, unsent t _ after.2⟩
  · rintro s ⟨sound, held⟩
    have addressable : Label.recount.Addressable := trivial
    exact ⟨sound.move addressable (updateRarity_move s), recounted _ _ (updateRarity_move s) sound held⟩

theorem Reachable.sound (reachable : Reachable allowed s) (small : ∀ s event, allowed s event → event.Addressable) :
    Sound (abs s [] ∅) :=
  (reachable.sound_and (fun _ => True) small (fun _ _ => trivial) (fun _ _ _ _ _ _ _ _ _ _ _ _ _ => trivial)
    (fun _ _ _ _ _ => trivial) fun _ _ _ => trivial).1

theorem count_need (statuses : List PieceStatus) : statuses.count .need = (statuses.filter (· ≠ .done)).length := by
  rw [← countP_eq_length_filter, count]
  refine countP_congr fun status _ => ?_
  cases status <;> decide

/-- Whatever happens to a torrent of at most `2 ^ 32` pieces, once it is past validation no piece is in a queue
twice or while it is done, every wanted missing piece is in a queue, and the remaining pieces are counted. -/
theorem pieces_conserved (reachable : Reachable (fun _ event => event.Addressable) s)
    (running : s.torrentStatus = .standard ∨ s.torrentStatus = .endgame ∨ s.torrentStatus = .done) :
    s.pieceManager.needQueue.Nodup ∧
      (∀ p ∈ s.pieceManager.needQueue, p ∉ s.pieceManager.pendingQueue) ∧
      (∀ p, p ∈ s.pieceManager.needQueue ∨ p ∈ s.pieceManager.pendingQueue →
        s.pieceManager.bitfield[p]? ≠ some .done) ∧
      (∀ p < s.pieceManager.bitfield.length, s.pieceManager.bitfield[p]? ≠ some .done →
        s.pieceManager.effectivePriority p ≠ .skip →
        p ∈ s.pieceManager.needQueue ∨ p ∈ s.pieceManager.pendingQueue) ∧
      s.pieceManager.piecesRemaining = (s.pieceManager.bitfield.filter (· ≠ .done)).length := by
  have sound := reachable.sound fun _ _ small => small
  have consistent := sound.consistent
  refine ⟨consistent.nodup, consistent.disjoint, ?_, ?_, consistent.remaining.trans (count_need _)⟩
  · rintro p (needed | pending)
    · exact (consistent.needMissing p needed).not_done
    · exact (consistent.pendingMissing p pending).not_done
  · intro p inside notDone wanted
    have past : s.torrentStatus ≠ .validating := by
      rcases running with status | status | status <;> simp [status]
    exact sound.covered past p (PieceManager.missing_of_not_done inside notDone) wanted

/-- A download of three pieces of which two are pending at a peer. -/
theorem pieces_conserved_download : ∃ s : TorrentState,
    Reachable (fun _ event => event.Addressable) s ∧ s.torrentStatus = .standard ∧
      s.pieceManager.pendingQueue.keys = [1, 0] ∧
      s.pieceManager.needQueue.Nodup ∧
      (∀ p ∈ s.pieceManager.needQueue, p ∉ s.pieceManager.pendingQueue) ∧
      (∀ p, p ∈ s.pieceManager.needQueue ∨ p ∈ s.pieceManager.pendingQueue →
        s.pieceManager.bitfield[p]? ≠ some .done) ∧
      (∀ p < s.pieceManager.bitfield.length, s.pieceManager.bitfield[p]? ≠ some .done →
        s.pieceManager.effectivePriority p ≠ .skip →
        p ∈ s.pieceManager.needQueue ∨ p ∈ s.pieceManager.pendingQueue) ∧
      s.pieceManager.piecesRemaining = (s.pieceManager.bitfield.filter (· ≠ .done)).length := by
  obtain ⟨s, -, reachable, status, pending⟩ := exists_reachable (fun _ event => event.Addressable) (fun _ _ => true)
    (downloadOf (plainTorrent 3) ++ newPeer "a" [0xC0])
    (fun s => s.torrentStatus = .standard ∧ s.pieceManager.pendingQueue.keys = [1, 0])
    (by simp [downloadOf, newPeer, Event.Addressable, numPieces_plainTorrent]) (by decide +kernel)
  exact ⟨s, reachable, status, pending, pieces_conserved reachable (.inl status)⟩

section Overflow

open TorrentState

theorem rebuildNeedQueue_replicate {count : ℕ} (standard : pm.piecePriorities = [])
    (missing : pm.bitfield = replicate count .need) : rebuildNeedQueue pm = some ((range count).map u32) := by
  have general : ∀ (n : ℕ) (acc : List ℕ), ((replicate count PieceStatus.need).zipIdx n).foldlM
        (fun need entry =>
          if entry.1 = .done then some need
          else (pm.isSkipped? entry.2).map fun skipped => if skipped then need else need ++ [u32 entry.2])
        acc = some (acc ++ (range' n count).map u32) := by
    clear missing
    induction count with
    | zero => simp
    | succ count ih =>
      intro n acc
      have skipped : pm.isSkipped? n = some false := by simp [PieceManager.isSkipped?, standard]
      rw [replicate_succ, zipIdx_cons, foldlM_cons, range'_succ]
      simp only [reduceCtorEq, if_false, skipped, map_some, Bool.false_eq_true, bind_eq_bind,
        bind_some, ih, map_cons, append_assoc, singleton_append]
  rw [rebuildNeedQueue, missing, general, nil_append, range_eq_range']

theorem validationComplete_nothing (count : ℕ) (validating : s.torrentStatus = .validating) (nobody : s.peers = ∅)
    (standard : s.pieceManager.piecePriorities = []) (missing : s.pieceManager.bitfield = replicate count .need)
    (nonempty : count ≠ 0) :
    ∃ t effects, s.validationComplete {} [] = some (t, effects) ∧ t.torrentStatus = .standard ∧
      t.pieceManager.needQueue = (range count).map u32 := by
  obtain ⟨u, adopted, status, queue, alone, incomplete⟩ : ∃ u, s.adoptValidation [] = some u ∧
      u.torrentStatus = .standard ∧ u.pieceManager.needQueue = (range count).map u32 ∧ u.peers = ∅ ∧
      isComplete u.pieceManager = some false := by
    simp only [adoptValidation, markAllComplete, foldlM_nil, Option.pure_def, bind_some,
      rebuildNeedQueue_replicate standard missing, map_some, some.injEq, exists_eq_left', nobody]
    exact ⟨trivial, rfl, rfl, by simp [isComplete, PieceManager.clearAssemblyBuffers, standard, missing, nonempty]⟩
  have checked : (u.announceValidated {} []).1.checkCompletion (Host.sub {} 1) =
      some ((u.announceValidated {} []).1, [.doNothing]) := by
    simp [checkCompletion, announceValidated, status, incomplete]
  have idle : ∀ v : TorrentState, v.peers = ∅ → v.assignAll (Host.sub {} 3) = some (v, []) := by
    intro v nobody
    rw [assignAll, nobody]
    rfl
  have unasked : ((u.announceValidated {} []).1.recalculateChokes (Host.sub {} 2) 0).1.peers = ∅ := by
    simp only [recalculateChokes, announceValidated, alone]
    rfl
  rw [validationComplete, if_neg (not_not.mpr validating), adopted, bind_some]
  simp only [andThen, bind_some, checked]
  exact ⟨_, _, congrArg _ (congrArg _ (congrArg _ (idle _ unasked))), status, queue⟩

theorem exists_download (torrent : Torrent) (nonempty : torrent.numPieces ≠ 0) :
    ∃ s, runChecked (fun _ _ => true) emptyState (downloadOf torrent) = some s ∧ s.torrentStatus = .standard ∧
      s.pieceManager.needQueue = (range torrent.numPieces).map u32 := by
  obtain ⟨base, isBase⟩ : ∃ base, base = { emptyState with
        torrentDataPath := some "d"
        torrent := some torrent
        torrentMetadataLength := some 0
        pieceToRoots := torrent.calculateV2Mapping.pieceToRoots
        pieceManager := loadedPieces torrent false
        trackers := { emptyState with torrentDataPath := some "d" }.mergeTrackers {} torrent } := ⟨_, rfl⟩
  have begun : runChecked (fun _ _ => true) emptyState (downloadOf torrent) =
      ({ base.rebuildMultiFileInfo with torrentStatus := .validating }.validationComplete {} []).bind
        fun result => some result.1 := by
    rw [isBase]
    rfl
  obtain ⟨pm, nobody⟩ : base.rebuildMultiFileInfo.pieceManager = loadedPieces torrent false ∧
      base.rebuildMultiFileInfo.peers = ∅ := by
    rw [isBase, rebuildMultiFileInfo]
    split
    · split_ifs <;> exact ⟨rfl, rfl⟩
    · exact ⟨rfl, rfl⟩
  obtain ⟨t, effects, run, status, queue⟩ := validationComplete_nothing torrent.numPieces
    (s := { base.rebuildMultiFileInfo with torrentStatus := .validating }) rfl nobody
    (by simp [pm, loadedPieces, PieceManager.setGeometry, PieceManager.setInitialFields])
    (by simp [pm, loadedPieces, PieceManager.setGeometry, PieceManager.setInitialFields]) nonempty
  exact ⟨t, by rw [begun, run, bind_some], status, queue⟩

/-- With one piece more than 32-bit indices can tell apart, the first piece is queued twice. -/
theorem needQueue_repeats : ∃ s : TorrentState, Reachable (fun _ _ => True) s ∧ s.torrentStatus = .standard ∧
    ¬s.pieceManager.needQueue.Nodup := by
  have count : (plainTorrent (2 ^ 32 + 1)).numPieces = 2 ^ 32 + 1 := numPieces_plainTorrent (by omega)
  obtain ⟨s, run, status, queue⟩ := exists_download (plainTorrent (2 ^ 32 + 1)) (by omega)
  refine ⟨s, (Reachable.initial.runChecked (fun _ _ _ _ => trivial) run).2, status, ?_⟩
  rw [queue, count]
  intro nodup
  have first : 0 ∈ range (2 ^ 32 + 1) := mem_range.mpr (by omega)
  have last : 2 ^ 32 ∈ range (2 ^ 32 + 1) := mem_range.mpr (by omega)
  have same := inj_on_of_nodup_map nodup first last (by decide)
  omega

end Overflow

end Superseedr
