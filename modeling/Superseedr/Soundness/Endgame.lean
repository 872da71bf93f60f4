import Superseedr.Soundness.Ownership

/-! # The endgame begins with an empty need queue

The endgame is entered when the last wanted piece has been assigned. Handing out work is the only step
that looks at the mode, so a piece that goes back to the need queue leaves the mode as it was. The need
queue stays empty as long as every piece given back in the endgame has an owner that keeps it, and
nothing else is wanted again.
-/

namespace Superseedr

open List

variable {k : PeerId} {p : ℕ} {host : Host} {a : Action} {c d : Scheduler.Core} {label : Scheduler.Label}

namespace Scheduler

open PieceManager

structure Calm (leaving : List PeerId) (c : Core) : Prop where
  need : c.status = .endgame → c.pm.needQueue = []
  kept : c.status = .endgame → ∀ k ∈ leaving, ∀ p, c.Asks k p → c.pm.Missing p → ¬c.pm.Skipped p →
    ∃ j ∈ c.pm.owners p, j ∉ leaving

def Label.KeepsEndgame (leaving : List PeerId) (c : Core) : Label → Prop
  | .assign _ _ => leaving = []
  | .drop k _ => k ∈ leaving
  | .requeue p => c.status = .endgame → c.pm.Skipped p
  | .prioritize new => leaving = [] ∧
      (c.status = .endgame → ∀ p, c.pm.Missing p → p ∉ c.pm.pendingQueue → new[p]? = some .skip)
  | .drain => c.status = .endgame → c.pm.pendingQueue = ∅
  | _ => True

variable {c d : Core} {label : Label} {leaving : List PeerId}

theorem Calm.left_or_skipped (calm : Calm leaving c) (endgame : c.status = .endgame) (leaves : k ∈ leaving)
    (asked : c.Asks k p) (missing : c.pm.Missing p) : (c.pm.owners p).filter (· ≠ k) ≠ [] ∨ c.pm.Skipped p := by
  by_cases skipped : c.pm.Skipped p
  · exact .inr skipped
  · obtain ⟨j, owner, stays⟩ := calm.kept endgame k leaves p asked missing skipped
    have differ : j ≠ k := fun same => stays (same ▸ leaves)
    exact .inl (ne_nil_of_mem (mem_filter.mpr ⟨owner, decide_eq_true differ⟩))

section

variable (calm : Calm leaving c) (sound : Sound c) (addressable : label.Addressable)
  (keeps : label.KeepsEndgame leaving c) (moved : Move label c d)
include calm sound keeps moved

theorem Calm.move_need (endgame : d.status = .endgame) : d.pm.needQueue = [] := by
  have before := calm.need
  cases moved with
  | assign =>
    split_ifs at endgame with empty
    · exact empty
    · change c.pm.needQueue.filter _ = []
      rw [before endgame, filter_nil]
  | drop asked notDone run =>
    rcases releasePendingPeerOrRequeue_cases run with ⟨-, rfl⟩ | ⟨nobody, requeued⟩
    · exact before endgame
    have missing := missing_of_not_done (sound.inside _ _ asked) notDone
    rcases calm.left_or_skipped endgame keeps asked missing with left | skipped
    · exact absurd nobody left
    · rw [requeued.needQueue, if_neg fun wanted => wanted.1 skipped]
      exact before endgame
  | complete _ missing run =>
    have completed := missing.completed run
    rw [completed.needQueue, before endgame, filter_nil]
  | requeue _ run =>
    have requeued := requeuePendingToNeed_eq_some run
    rw [requeued.needQueue, if_neg fun wanted => wanted.1 (keeps endgame)]
    exact before endgame
  | prioritize _ length run =>
    have repainted := applyPriorities_eq_some sound.consistent length run
    refine eq_nil_iff_forall_not_mem.mpr fun q needed => ?_
    rcases repainted.needed_cases needed with already | ⟨missing, notPending, -, wanted⟩
    · rw [before endgame] at already
      exact not_mem_nil already
    · have priority := repainted.priority q missing.lt_length
      rw [keeps.2 endgame q missing notPending] at priority
      exact wanted (Option.some.inj priority).symm
  | load unloaded =>
    have status := sound.awaiting unloaded
    cases status.symm.trans endgame
  | drain same =>
    rw [keeps endgame] at same
    rw [before endgame, nil_append]
    exact perm_nil.mp same
  | wipe =>
    split_ifs at endgame
  | validate | adopt | finish | seed => simp at endgame
  | _ => exact before endgame

include addressable

theorem Calm.move_kept (endgame : d.status = .endgame) (leaves : k ∈ leaving) (asked : d.Asks k p)
    (missing : d.pm.Missing p) (wanted : ¬d.pm.Skipped p) : ∃ j ∈ d.pm.owners p, j ∉ leaving := by
  have before := calm.kept
  have owners : d.pm.owners p = label.ownersAfter c.pm.owners p := moved.owners_eq sound.consistent addressable
  rw [owners]
  rw [moved.asks_iff] at asked
  cases moved with
  | assign =>
    obtain rfl : leaving = [] := keeps
    cases leaves
  | @drop _ i q _ askedBefore notDone run =>
    obtain ⟨asks, -⟩ := asked
    have missingBefore : c.pm.Missing p := by
      rcases releasePendingPeerOrRequeue_cases run with ⟨-, rfl⟩ | ⟨-, requeued⟩
      · exact missing
      · by_cases same : p = q
        · exact same ▸ missing_of_not_done (sound.inside _ _ askedBefore) notDone
        · exact (requeued.missing_of_ne same).mp missing
    have wantedBefore : ¬c.pm.Skipped p := by
      rcases releasePendingPeerOrRequeue_cases run with ⟨-, rfl⟩ | ⟨-, requeued⟩
      · exact wanted
      · exact requeued.skipped.not.mp wanted
    obtain ⟨j, owner, stays⟩ := before endgame k leaves p asks missingBefore wantedBefore
    refine ⟨j, ?_, stays⟩
    simp only [Label.ownersAfter]
    split_ifs
    · exact mem_filter.mpr ⟨owner, decide_eq_true fun same => stays (same ▸ keeps)⟩
    · exact owner
  | forget => exact before endgame k leaves p asked.1 missing wanted
  | @complete _ q _ _ _ missingBefore run =>
    have completed := missingBefore.completed run
    obtain ⟨still, differ⟩ := completed.missing_iff.mp missing
    simp only [Label.ownersAfter, if_neg differ]
    exact before endgame k leaves p asked still (completed.skipped.not.mp wanted)
  | @requeue _ q _ _ run =>
    have requeued := requeuePendingToNeed_eq_some run
    have differ : p ≠ q := by
      rintro rfl
      exact requeued.skipped.not.mp wanted (keeps endgame)
    simp only [Label.ownersAfter, if_neg differ]
    exact before endgame k leaves p asked ((requeued.missing_of_ne differ).mp missing)
      (requeued.skipped.not.mp wanted)
  | prioritize =>
    obtain ⟨rfl, -⟩ := keeps
    cases leaves
  | load unloaded =>
    have status := sound.awaiting unloaded
    cases status.symm.trans endgame
  | drain =>
    obtain ⟨j, owner, -⟩ := before endgame k leaves p asked missing wanted
    rw [owners_eq_nil (keeps endgame ▸ AList.notMem_empty p)] at owner
    cases owner
  | wipe =>
    split_ifs at endgame
  | validate | adopt | finish | seed => simp at endgame
  | _ => exact before endgame k leaves p asked missing wanted

theorem Calm.move : Calm leaving d :=
  ⟨calm.move_need sound keeps moved,
    fun endgame _ leaves _ => calm.move_kept sound addressable keeps moved endgame leaves⟩

end

end Scheduler

open Scheduler

/-- What an action may not do in the endgame besides making peers give pieces back. -/
def Action.WantsNothingBack (s : TorrentState) : Action → Prop
  | .pieceWriteFailed p => p < s.pieceManager.bitfield.length → s.pieceManager.effectivePriority p = .skip
  | .setUserTorrentConfig path priorities name => s.startsValidation path = false →
    ∀ new, (s.configured path priorities name).calculatePiecePriorities = some new →
      ∀ p : ℕ, s.pieceManager.bitfield[p]? = some .need → p ∉ s.pieceManager.pendingQueue → new[p]? = some .skip
  | .pause | .fatalError => s.pieceManager.pendingQueue.keys = []
  | _ => True

def Event.KeepsEndgame (s : TorrentState) : Event → Prop
  | .handle host a => s.torrentStatus = .endgame →
    a.WantsNothingBack s ∧
      ∀ k ∈ releases host s a, ∀ p, s.IsAsked k p → s.pieceManager.bitfield[p]? = some .need →
        s.pieceManager.effectivePriority p ≠ .skip →
        ∃ owners, s.pieceManager.pendingQueue.lookup p = some owners ∧ ∃ j ∈ owners, j ∉ releases host s a
  | .recountRarity => True

variable {s : TorrentState}

theorem Scheduler.Permits.keepsEndgame (permits : Permits host s a c label) (move : Move label c d)
    (keeps : (Event.handle host a).KeepsEndgame s) : label.KeepsEndgame (releases host s a) c := by
  cases label with
  | assign k p => exact releases_eq_nil host s permits
  | drop k p => exact permits
  | requeue p =>
    obtain ⟨same, rfl⟩ := permits
    intro endgame
    have condition := (keeps (same.status ▸ endgame)).1
    cases move with
    | requeue inside =>
      rw [same.pm] at inside ⊢
      exact condition inside
  | prioritize new =>
    obtain ⟨pm, -, path, priorities, name, rfl, calculated, status⟩ := permits
    refine ⟨rfl, fun endgame p missing notPending => ?_⟩
    rw [status] at endgame
    split_ifs at endgame with starts
    rw [pm] at missing notPending
    exact (keeps endgame).1 (Bool.eq_false_iff.mpr starts) new calculated p missing notPending
  | drain =>
    obtain ⟨same, rfl | rfl⟩ := permits
    all_goals
      intro endgame
      have nothing : s.pieceManager.pendingQueue.keys = [] := (keeps (same.status ▸ endgame)).1
      rw [same.pm]
      refine AList.eq_empty_of_forall_notMem fun p pending => ?_
      rw [AList.mem_keys, nothing] at pending
      exact not_mem_nil pending
  | _ => trivial

theorem calm_start (need : s.torrentStatus = .endgame → s.pieceManager.needQueue = [])
    (keeps : (Event.handle host a).KeepsEndgame s) : Calm (releases host s a) (abs s [] ∅) := by
  refine ⟨need, fun endgame k leaves p asked missing wanted => ?_⟩
  obtain ⟨owners, found, j, among, stays⟩ := (keeps endgame).2 k leaves p ((asks_abs [] ∅).mp asked) missing wanted
  exact ⟨j, mem_owners.mpr ⟨owners, found, among⟩, stays⟩

/-- Piece indices fit into 32 bits, and no step wants a piece back in the endgame. -/
def KeepsNothingWaiting (s : TorrentState) (event : Event) : Prop := event.Addressable ∧ event.KeepsEndgame s

theorem Reachable.nothing_waits (reachable : Reachable KeepsNothingWaiting s) :
    Sound (abs s [] ∅) ∧ (s.torrentStatus = .endgame → s.pieceManager.needQueue = []) := by
  refine reachable.invariant
    (fun s => Sound (abs s [] ∅) ∧ (s.torrentStatus = .endgame → s.pieceManager.needQueue = [])) ?_ ?_ ?_
  · intro s initial
    have sound := sound_initial initial
    obtain ⟨_, _, _, _, _, rfl⟩ := initial
    exact ⟨sound, fun _ => rfl⟩
  · rintro host a s t effects ⟨small, keeps⟩ run ⟨sound, need⟩
    have after := update_preserves (fun c => Sound c ∧ Calm (releases host s a) c)
      (fun c d label permits move before =>
        ⟨before.1.move (permits.addressable small) move,
          before.2.move before.1 (permits.addressable small) (permits.keepsEndgame move keeps) move⟩)
      run ⟨sound, calm_start need keeps⟩
    exact ⟨after.1.of_abs [] ∅, after.2.need⟩
  · rintro s ⟨sound, need⟩
    have addressable : Label.recount.Addressable := trivial
    exact ⟨sound.move addressable (updateRarity_move s), need⟩

/-- In every run that wants no piece back in the endgame, the endgame has an empty need queue and each
missing piece is pending or skipped. -/
theorem endgame_needs_nothing (reachable : Reachable KeepsNothingWaiting s) (endgame : s.torrentStatus = .endgame) :
    s.pieceManager.needQueue = [] ∧
      ∀ p : ℕ, s.pieceManager.bitfield[p]? = some .need →
        p ∈ s.pieceManager.pendingQueue ∨ s.pieceManager.effectivePriority p = .skip := by
  obtain ⟨sound, need⟩ := reachable.nothing_waits
  refine ⟨need endgame, fun p missing => ?_⟩
  have running : s.torrentStatus ≠ .validating := endgame ▸ by decide
  by_cases skipped : s.pieceManager.effectivePriority p = .skip
  · exact .inr skipped
  · rcases sound.covered running p missing skipped with needed | pending
    · exact absurd (need endgame ▸ needed) not_mem_nil
    · exact .inl pending

/-- Both pieces of a download are pending at one peer. -/
theorem endgame_needs_nothing_download : ∃ s : TorrentState,
    Reachable KeepsNothingWaiting s ∧ s.torrentStatus = .endgame ∧ s.pieceManager.needQueue = [] ∧
      ∀ p : ℕ, s.pieceManager.bitfield[p]? = some .need →
        p ∈ s.pieceManager.pendingQueue ∨ s.pieceManager.effectivePriority p = .skip := by
  obtain ⟨s, -, reachable, endgame⟩ := exists_reachable KeepsNothingWaiting
    (fun s _ => decide (s.torrentStatus ≠ .endgame)) (downloadOf (plainTorrent 2) ++ newPeer "a" [0xC0])
    (fun s => s.torrentStatus = .endgame)
    (by simp +contextual [downloadOf, newPeer, KeepsNothingWaiting, Event.Addressable, Event.KeepsEndgame,
      numPieces_plainTorrent]) (by decide +kernel)
  exact ⟨s, reachable, endgame, endgame_needs_nothing reachable endgame⟩

/-- The only owner of a pending piece chokes: the piece waits again, in the endgame. -/
theorem endgame_with_waiting_piece : ∃ s : TorrentState, Reachable (fun _ _ => True) s ∧
    s.torrentStatus = .endgame ∧ 0 ∈ s.pieceManager.needQueue := by
  exact exists_reached (downloadOf (plainTorrent 2) ++ newPeer "a" [0xC0] ++ [.handle {} (.peerChoked "a")])
    (fun s => s.torrentStatus = .endgame ∧ 0 ∈ s.pieceManager.needQueue) (by decide +kernel)

end Superseedr
