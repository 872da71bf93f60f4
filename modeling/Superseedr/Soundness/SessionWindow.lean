import Superseedr.ToMathlib.LabeledSteps
import Superseedr.Model.Session

/-! # The permits of a session

Every permit of a session is available, belongs to a tracked request, or is held by a task whose request is not
tracked yet; together they are the window and what it still has to shrink. This balance is kept by every event
but three: a choke that meets a grown window or a task with a permit, a request for a block that is tracked
already, and a block that is taken or cancelled while its request still waits for the writer.
-/

namespace Superseedr

open List Option Finset PeerSession RequestTask

variable {tasks others : List RequestTask} {i available shrink : ℕ} {later : RequestTask}
  {tracker : Finset BlockRequest} {message : Message} {cancels : List BlockRequest} {event : PeerSession.Event}
  {told : Option SessionCommand}

namespace RequestTask

/-- The request a task has a permit for, before it is tracked. -/
def grants : RequestTask → Option BlockRequest
  | .granted request _ => some request
  | .waiting _ | .sending _ _ | .failed _ | .finished => none

/-- The request a task has a permit for, after it was tracked. -/
def sends : RequestTask → Option BlockRequest
  | .sending request _ | .failed request => some request
  | .waiting _ | .granted _ _ | .finished => none

def pends (tracker : Finset BlockRequest) (task : RequestTask) : Bool :=
  task.grants.isSome || task.sends.any (· ∉ tracker)

end RequestTask

namespace PeerSession

def pendingPermits (s : PeerSession) : ℕ := s.requestTasks.countP fun task => task.pends s.blockTracker

/-- A choke meets a small window and no task with a permit, no block is tracked twice, and no block is taken or
cancelled while its request waits for the writer. -/
def Careful (s : PeerSession) : Event → Prop
  | .message .choke => s.availablePermits ≤ peerBlockInFlightLimit ∧
    ∀ task ∈ s.requestTasks, task.grants = none ∧ task.sends = none
  | .message (.piece index begin data) =>
    ∀ task ∈ s.requestTasks, task.sends ≠ some (blockOf index.toNat begin.toNat data)
  | .task i .track => ∀ task ∈ s.requestTasks[i]?, ∀ request ∈ task.grants, request ∉ s.blockTracker
  | .cancel i => ∀ cancels ∈ s.cancelTasks[i]?, ∀ task ∈ s.requestTasks, ∀ request ∈ task.sends, request ∉ cancels
  | _ => True

/-- What happens in a session. -/
def Moves (event : Event) (s t : PeerSession) : Prop := ∃ told, s.next event = some (t, told)

structure Balanced (s : PeerSession) : Prop where
  law : s.availablePermits + s.blockTracker.card + s.requestTasks.countP (·.grants.isSome) =
    s.currentWindowSize + s.pendingWindowShrink
  tracked : ∀ task ∈ s.requestTasks, ∀ request ∈ task.sends, request ∈ s.blockTracker
  distinct : (s.requestTasks.filterMap (·.sends)).Nodup

variable {s t : PeerSession} {task : RequestTask} {progress : Progress}

theorem Balanced.pendingPermits (balanced : s.Balanced) :
    s.pendingPermits = s.requestTasks.countP (·.grants.isSome) := by
  refine countP_congr fun task listed => ?_
  rw [pends, Bool.or_eq_true, or_iff_left]
  intro untracked
  obtain ⟨request, sends, missing⟩ := (any_eq_true _ _).mp untracked
  exact of_decide_eq_true missing (balanced.tracked task listed request sends)

theorem Balanced.perm (balanced : s.Balanced) (same : s.requestTasks.Perm tasks) :
    { s with requestTasks := tasks }.Balanced where
  law := (same.countP_eq _).symm ▸ balanced.law
  tracked task listed := balanced.tracked task (same.mem_iff.mpr listed)
  distinct := (same.filterMap _).nodup_iff.mp balanced.distinct

theorem perm_set {α : Type*} {l : List α} {a : α} (place : l[i]? = some a) :
    ∃ others, l.Perm (a :: others) ∧ ∀ b, (b :: others).Perm (l.set i b) := by
  obtain ⟨bound, rfl⟩ := List.getElem?_eq_some_iff.mp place
  refine ⟨l.take i ++ l.drop (i + 1), ?_, fun b => ?_⟩
  · have split : l = l.take i ++ l[i] :: l.drop (i + 1) := by
      rw [← drop_eq_getElem_cons bound, take_append_drop]
    exact (Perm.of_eq split).trans perm_middle
  · rw [set_eq_take_append_cons_drop, if_pos bound]
    exact perm_middle.symm

theorem balanced_cons : { s with requestTasks := task :: others }.Balanced ↔
      s.availablePermits + s.blockTracker.card + (others.countP (·.grants.isSome) + task.grants.elim 0 fun _ => 1) =
          s.currentWindowSize + s.pendingWindowShrink ∧
        (∀ request ∈ task.sends, request ∈ s.blockTracker ∧ request ∉ others.filterMap (·.sends)) ∧
        (∀ other ∈ others, ∀ request ∈ other.sends, request ∈ s.blockTracker) ∧ (others.filterMap (·.sends)).Nodup := by
  have count : (task :: others).countP (·.grants.isSome) =
      others.countP (·.grants.isSome) + task.grants.elim 0 fun _ => 1 := by
    rw [countP_cons]
    cases task.grants <;> rfl
  constructor
  · rintro ⟨law, tracked, distinct⟩
    rw [count] at law
    have rest : ∀ other ∈ others, ∀ request ∈ other.sends, request ∈ s.blockTracker := fun other member =>
      tracked other (.tail task member)
    cases sends : task.sends with
    | none =>
      rw [filterMap_cons_none sends] at distinct
      exact ⟨law, nofun, rest, distinct⟩
    | some request =>
      rw [filterMap_cons_some sends] at distinct
      obtain ⟨absent, distinct⟩ := nodup_cons.mp distinct
      refine ⟨law, fun other same => ?_, rest, distinct⟩
      cases same
      exact ⟨tracked task mem_cons_self request sends, absent⟩
  · rintro ⟨law, head, rest, distinct⟩
    refine ⟨count ▸ law, fun other member request sends => ?_, ?_⟩
    · rcases mem_cons.mp member with rfl | member
      · exact (head request sends).1
      · exact rest other member request sends
    · cases sends : task.sends with
      | none => rwa [filterMap_cons_none sends]
      | some request =>
        rw [filterMap_cons_some sends]
        exact nodup_cons.mpr ⟨(head request sends).2, distinct⟩

theorem Balanced.advance (balanced : { s with requestTasks := task :: others }.Balanced)
    (fresh : progress = .track → ∀ request ∈ task.grants, request ∉ s.blockTracker)
    (step : s.advance task progress = some (t, later)) : { t with requestTasks := later :: others }.Balanced := by
  obtain ⟨law, head, rest, distinct⟩ := balanced_cons.mp balanced
  rw [balanced_cons]
  unfold PeerSession.advance at step
  split at step
  · -- `acquire`
    split_ifs at step with none
    cases step
    refine ⟨?_, nofun, rest, distinct⟩
    simp only [grants, Option.elim] at law ⊢
    omega
  · -- `expire`
    cases step
    exact ⟨law, nofun, rest, distinct⟩
  · -- `track`
    rename_i request remaining
    cases step
    have untracked : request ∉ s.blockTracker := fresh rfl request rfl
    refine ⟨?_, ?_, fun other member block sends => mem_insert_of_mem (rest other member block sends), distinct⟩
    · simp only [grants, Option.elim, card_insert_of_notMem untracked] at law ⊢
      omega
    · rintro _ ⟨⟩
      refine ⟨mem_insert_self .., fun member => ?_⟩
      obtain ⟨other, listed, sends⟩ := mem_filterMap.mp member
      exact untracked (rest other listed request sends)
  · -- `sent`
    cases step
    exact ⟨law, nofun, rest, distinct⟩
  · -- `fail`
    cases step
    exact ⟨law, head, rest, distinct⟩
  · -- `untrack`
    rename_i request
    cases step
    obtain ⟨present, absent⟩ := head request rfl
    refine ⟨?_, nofun, fun other member block sends => ?_, distinct⟩
    · have positive := card_pos.mpr ⟨request, present⟩
      simp only [grants, Option.elim, card_erase_of_mem present] at law ⊢
      omega
    · refine mem_erase.mpr ⟨?_, rest other member block sends⟩
      rintro rfl
      exact absent (mem_filterMap.mpr ⟨other, member, sends⟩)
  · cases step

theorem requestTasks_advance (step : s.advance task progress = some (t, later)) : t.requestTasks = s.requestTasks := by
  unfold advance at step
  split at step
  · split_ifs at step
    cases step
    rfl
  all_goals first
    | (obtain ⟨rfl, -⟩ := Prod.mk.inj (some.inj step); rfl)
    | cases step

section

variable (balanced : s.Balanced)
include balanced

theorem Balanced.advanceTask (careful : s.Careful (.task i progress)) (step : s.advanceTask i progress = some t) :
    t.Balanced := by
  obtain ⟨task, place, step⟩ := bind_eq_some_iff.mp step
  obtain ⟨⟨u, later⟩, advanced, rfl⟩ := map_eq_some_iff.mp step
  obtain ⟨others, front, back⟩ := perm_set place
  have next := (balanced.perm front).advance (fun isTrack request grants => by
    subst isTrack
    exact careful task place request grants) advanced
  dsimp only
  rw [requestTasks_advance advanced]
  exact next.perm (back later)

theorem Balanced.remove (kept : ∀ task ∈ s.requestTasks, ∀ request ∈ task.sends, request ∈ tracker)
    (count : available + tracker.card + s.pendingWindowShrink = s.availablePermits + s.blockTracker.card + shrink) :
    { s with blockTracker := tracker, availablePermits := available, pendingWindowShrink := shrink }.Balanced where
  law := by
    have law := balanced.law
    dsimp only
    omega
  tracked := kept
  distinct := balanced.distinct

theorem Balanced.receive (careful : s.Careful (.message message)) : (s.receive message).1.Balanced := by
  unfold PeerSession.receive
  split
  · rename_i index begin data
    dsimp only
    split_ifs with expected
    · have tracked := of_decide_eq_true expected
      have card := card_erase_of_mem tracked
      have positive := card_pos.mpr ⟨_, tracked⟩
      have kept : ∀ task ∈ s.requestTasks, ∀ request ∈ task.sends,
          request ∈ s.blockTracker.erase (blockOf index.toNat begin.toNat data) := by
        intro task listed request sends
        refine mem_erase.mpr ⟨?_, balanced.tracked task listed request sends⟩
        rintro rfl
        exact careful task listed sends
      unfold takeBlock
      dsimp only
      split_ifs with shrinks
      · exact balanced.remove kept (by omega)
      · exact balanced.remove kept (by omega)
    · exact balanced
  · obtain ⟨small, free⟩ := careful
    have idle : s.requestTasks.countP (·.grants.isSome) = 0 := by
      refine countP_eq_zero.mpr fun task listed => ?_
      rw [(free task listed).1]
      exact Bool.false_ne_true
    refine ⟨?_, fun task listed request sends => ?_, balanced.distinct⟩
    · simp only [reset, card_empty, idle, max_eq_right small]
    · rw [(free task listed).2] at sends
      cases sends
  · exact balanced

theorem Balanced.cancel (careful : s.Careful (.cancel i)) (place : s.cancelTasks[i]? = some cancels) :
    (s.runCancel cancels).Balanced := by
  have card := card_sdiff_add_card_eq_card
    (inter_subset_right : cancels.toFinset ∩ s.blockTracker ⊆ s.blockTracker)
  refine balanced.remove (fun task listed request sends => ?_) (by omega)
  refine mem_sdiff.mpr ⟨balanced.tracked task listed request sends, fun cancelled => ?_⟩
  exact careful cancels place task listed request sends (mem_toFinset.mp (mem_inter.mp cancelled).1)

theorem Balanced.shrinkWindow : s.shrinkWindow.Balanced := by
  obtain ⟨law, tracked, distinct⟩ := balanced
  unfold PeerSession.shrinkWindow
  dsimp only
  split_ifs
  · exact ⟨by dsimp only; omega, tracked, distinct⟩
  · exact ⟨by dsimp only; omega, tracked, distinct⟩
  · exact ⟨law, tracked, distinct⟩

theorem Balanced.adjustWindowSize (change : SpeedChange) : (s.adjustWindowSize change).Balanced := by
  unfold PeerSession.adjustWindowSize
  split
  · cases change with
    | faster =>
      dsimp only
      split
      · exact ⟨by have := balanced.law; dsimp only; omega, balanced.tracked, balanced.distinct⟩
      · exact balanced
    | slower => exact balanced.shrinkWindow
    | similar => exact balanced
  · split
    · exact balanced.shrinkWindow
    · exact balanced

theorem Balanced.next (careful : s.Careful event) (step : s.next event = some (t, told)) : t.Balanced := by
  cases event with
  | command command =>
    cases step
    cases command with
    | bulkRequest requests =>
      have same : (waiting requests :: s.requestTasks).Perm (s.requestTasks ++ [.waiting requests]) :=
        (perm_append_singleton ..).symm
      have more : { s with requestTasks := .waiting requests :: s.requestTasks }.Balanced :=
        balanced_cons.mpr ⟨balanced.law, nofun, balanced.tracked, balanced.distinct⟩
      exact more.perm same
    | bulkCancel cancels => exact { balanced with }
    | peerChoke | peerUnchoke | clientInterested | notInterested => exact balanced
  | message message =>
    obtain rfl : (s.receive message).1 = t := congrArg Prod.fst (some.inj step)
    exact balanced.receive careful
  | task i progress =>
    obtain ⟨u, advanced, same⟩ := map_eq_some_iff.mp step
    cases same
    exact balanced.advanceTask careful advanced
  | cancel i =>
    obtain ⟨cancels, place, same⟩ := map_eq_some_iff.mp step
    cases same
    have after := balanced.cancel careful place
    exact { after with }
  | adjust change =>
    cases step
    exact balanced.adjustWindowSize change

end

/-- In every run of careful events, the permits that are available, the tracked requests and the permits held by other
requests are together the window and what it still has to shrink; so no more requests are outstanding than the
window admits once it has shrunk. -/
theorem window_conserved (run : Steps Moves Careful new s) :
    s.availablePermits + s.blockTracker.card + s.pendingPermits = s.currentWindowSize + s.pendingWindowShrink ∧
      (s.pendingWindowShrink = 0 → s.blockTracker.card + s.pendingPermits ≤ s.currentWindowSize) := by
  have balanced := run.preserves Balanced (fun _ _ _ careful ⟨_, step⟩ before => before.next careful step)
    ⟨rfl, nofun, .nil⟩
  have law := balanced.law
  rw [balanced.pendingPermits]
  exact ⟨law, by omega⟩

instance (s : PeerSession) (event : Event) : Decidable (s.Careful event) := by
  unfold Careful
  split <;> infer_instance

theorem exists_session (guard : PeerSession → Event → Prop) [∀ s event, Decidable (guard s event)] (events : List Event)
    (facts : PeerSession → Prop) [DecidablePred facts]
    (replayed : (events.foldlM (fun s event => if decide (guard s event) then (s.next event).map Prod.fst else none)
      new).any (fun s => decide (facts s)) = true) : ∃ s, Steps Moves guard new s ∧ facts s := by
  obtain ⟨s, run, reached⟩ := Steps.exists_replay guard (fun s event => (s.next event).map Prod.fst)
    (fun s event => decide (guard s event)) events new facts (fun _ _ _ => of_decide_eq_true) replayed
  refine ⟨s, run.mono_move fun event u v step => ?_, reached⟩
  obtain ⟨⟨w, told⟩, next, rfl⟩ := map_eq_some_iff.mp step
  exact ⟨told, next⟩

def requesting (i count : ℕ) : List Event :=
  .command (.bulkRequest ((List.range count).map fun block => (block, 0, 0))) ::
    (replicate count [.task i .acquire, .task i .track, .task i .sent]).flatten

def arriving (first count : ℕ) : List Event :=
  (List.range' first count).map fun block => .message (.piece (.ofNat block) 0 [])

def growing : List Event := requesting 0 7 ++ arriving 0 1 ++ [.adjust .faster]

/-- A choke resets the window and not the permits: once the other six blocks have arrived, nine requests can be
outstanding in a window of eight. -/
theorem choke_leaves_permits : ∃ s, Steps Moves (fun _ _ => True) new s ∧
    s.availablePermits + s.blockTracker.card + s.pendingPermits ≠ s.currentWindowSize + s.pendingWindowShrink ∧
    s.pendingWindowShrink = 0 ∧ s.currentWindowSize = 8 ∧ s.blockTracker.card = 9 := by
  exact exists_session (fun _ _ => True)
    (growing ++ arriving 1 6 ++ [.message .choke, .message .unchoke] ++ requesting 1 9) (fun s =>
      s.availablePermits + s.blockTracker.card + s.pendingPermits ≠ s.currentWindowSize + s.pendingWindowShrink ∧
        s.pendingWindowShrink = 0 ∧ s.currentWindowSize = 8 ∧ s.blockTracker.card = 9) (by decide +kernel)

/-- The window grows, and shrinks while seven requests are outstanding; after a choke, a task has a permit. -/
theorem window_conserved_choked : ∃ s : PeerSession, s.pendingPermits = 1 ∧
    s.availablePermits + s.blockTracker.card + s.pendingPermits = s.currentWindowSize + s.pendingWindowShrink := by
  obtain ⟨s, run, reached⟩ := exists_session Careful
    (growing ++ requesting 1 1 ++ [.adjust .slower, .message .choke, .message .unchoke,
      .command (.bulkRequest [(0, 0, 0)]), .task 2 .acquire]) (fun s => s.pendingPermits = 1) (by decide +kernel)
  exact ⟨s, reached, (window_conserved run).1⟩

end PeerSession

end Superseedr
