import Superseedr.Model.ResourceManager
import Superseedr.ToMathlib.LabeledSteps

/-! # Permits and waiters

Whenever a permit is free and somebody waits for it, the manager is going to look at the queue. The permits in use are
those of the guards that are alive or whose release is on its way, unless a waiter gives up between the check and the
moment it is sent the guard: then its permit is given back twice.
-/

namespace Superseedr.ResourceManager

open List ResourceState Function

structure Stable (calm : List Notice → Prop) (holds : List Notice → ResourceState → Prop) : Prop where
  acquire : ∀ {sent state left} waiter, holds sent state →
    holds (sent ++ (state.handleAcquire left waiter).2) (state.handleAcquire left waiter).1
  update : ∀ {sent state} limits, holds sent state → holds (sent ++ [.processQueue]) (state.updateLimit limits).1
  handle : ∀ {sent state left gone} notice, calm (state.handle left gone notice).2 → holds (notice :: sent) state →
    holds (sent ++ (state.handle left gone notice).2) (state.handle left gone notice).1
  drop : ∀ {sent state}, 0 < state.live → holds sent state → holds (sent ++ [.release]) state.drop.1

variable {m n : ResourceManager} {event : Event} {resource : ResourceType} {state : ResourceState}
  {sent more : List Notice} {gone left : Finset ℕ} {rounds : ℕ} {limits : ResourceType → Option (ℕ × ℕ)}
  {handler : ResourceState → ResourceState × List Notice} {calm : List Notice → Prop}
  {holds : List Notice → ResourceState → Prop}


def Everywhere (holds : List Notice → ResourceState → Prop) (m : ResourceManager) : Prop :=
  ∀ resource state, m.resources resource = some state → holds (m.pending resource) state

theorem Everywhere.act (run : m.act resource handler = some n)
    (others : ∀ other ≠ resource, ∀ state, m.resources other = some state → holds (m.pending other) state)
    (own : ∀ state, m.resources resource = some state →
      holds (m.pending resource ++ (handler state).2) (handler state).1) : n.Everywhere holds := by
  obtain ⟨changed, found, rfl⟩ := Option.map_eq_some_iff.mp run
  intro other state known
  by_cases same : other = resource
  · subst same
    simp only [update_self] at known
    simpa [pending, Option.some.inj known, comp_def] using own changed found
  · simp only [update_of_ne same] at known
    simpa [pending, Ne.symm same, comp_def] using others other same state known

def Sends (calm : List Notice → Prop) (m : ResourceManager) : Event → Prop
  | .control gone =>
    match m.control with
    | .notice resource notice :: _ => ∀ state ∈ m.resources resource, calm (state.handle m.closed gone notice).2
    | _ => True
  | _ => True

theorem sends_trivial (m : ResourceManager) (event : Event) : m.Sends (fun _ => True) event := by
  unfold Sends
  split
  · split <;> simp
  · trivial

instance [DecidablePred calm] : ∀ event, Decidable (m.Sends calm event) := by
  intro event
  unfold Sends
  split
  · split <;> infer_instance
  · infer_instance

section Stable

variable (stable : Stable calm holds)
include stable

theorem Stable.handleUpdateLimits (before : m.Everywhere holds) (limits : List (ResourceType × ResourceLimitUpdate)) :
    (m.handleUpdateLimits limits).Everywhere holds := by
  induction limits generalizing m with
  | nil => exact before
  | cons entry limits ih =>
    refine ih ?_
    dsimp only
    cases run : m.act entry.1 (·.updateLimit entry.2) with
    | none => exact before
    | some n => exact .act run (fun other _ => before other) fun state found =>
        stable.update entry.2 (before _ state found)

theorem Stable.next (before : m.Everywhere holds) (allowed : m.Sends calm event) (step : m.next event = some n) :
    n.Everywhere holds := by
  cases event with
  | acquire resource waiter =>
    dsimp only [ResourceManager.next] at step
    split_ifs at step
    exact .act step (fun other _ => before other) fun state found =>
      stable.acquire waiter (before _ state found)
  | control gone =>
    dsimp only [ResourceManager.next] at step
    split at step
    · cases step
    · rename_i resource notice control isHead
      refine .act step (fun other differs state found => ?_) fun state found => ?_
      · simpa [pending, isHead, Ne.symm differs] using before other state found
      · rw [Sends, isHead] at allowed
        refine stable.handle notice (allowed state found) ?_
        simpa [pending, isHead] using before resource state found
    · rename_i limits control isHead
      cases step
      refine stable.handleUpdateLimits (fun other state found => ?_) limits
      simpa [pending, isHead] using before other state found
  | cancel waiter =>
    cases step
    exact before
  | drop resource =>
    dsimp only [ResourceManager.next] at step
    split_ifs at step with held
    refine .act step (fun other _ => before other) fun state found => stable.drop ?_ (before _ state found)
    simpa [found] using held
  | updateLimits limits =>
    cases step
    intro other state found
    simpa [pending] using before other state found

end Stable

/-! ## Waiters -/

/-- The queue is not too long, and if a permit is free the manager is going to look at it. -/
def Attended (sent : List Notice) (state : ResourceState) : Prop :=
  (state.waitQueue ≠ [] → state.inUse < state.limit → .processQueue ∈ sent ∨ .release ∈ sent) ∧
    state.waitQueue.length ≤ state.maxQueueSize

theorem Attended.mono (attended : Attended sent state) (kept : sent ⊆ more) : Attended more state :=
  ⟨fun waiting free => (attended.1 waiting free).imp (kept ·) (kept ·), attended.2⟩

theorem attended_grantRounds (short : state.waitQueue.length ≤ state.maxQueueSize) :
    Attended (state.grantRounds left gone rounds).2 (state.grantRounds left gone rounds).1 := by
  induction rounds generalizing state with
  | zero =>
    refine ⟨fun waiting free => .inl ?_, short⟩
    rw [grantRounds, if_pos ⟨free, waiting⟩]
    exact .head _
  | succ rounds ih =>
    rw [grantRounds]
    split_ifs with full
    · exact ⟨fun _ free => absurd free (not_lt.mpr full), short⟩
    cases queue : state.waitQueue with
    | nil => exact ⟨fun waiting => absurd queue waiting, short⟩
    | cons nextInLine waitQueue =>
      rw [queue] at short
      dsimp only
      split
      · exact ih (Nat.le_of_succ_le short)
      · exact (ih (Nat.le_of_succ_le short)).mono (subset_append_right ..)

theorem attended_stable : Stable (fun _ => True) Attended where
  acquire waiter attended := by
    unfold handleAcquire
    split_ifs with free room
    · exact .mono ⟨fun waiting _ => attended.1 waiting free, attended.2⟩ (subset_append_left ..)
    · exact ⟨fun _ less => absurd less free, by simpa using Nat.succ_le_of_lt room⟩
    · exact attended.mono (subset_append_left ..)
  update limits attended := by
    refine ⟨fun _ _ => .inl (mem_append_right _ (.head _)), ?_⟩
    unfold updateLimit
    split
    · exact length_take_le ..
    · exact attended.2
  handle notice _ attended := by
    cases notice with
    | release => exact ⟨fun _ _ => .inl (mem_append_right _ (.head _)), attended.2⟩
    | processQueue => exact (attended_grantRounds attended.2).mono (subset_append_right ..)
  drop _ attended := ⟨fun _ _ => .inr (mem_append_right _ (.head _)), attended.2⟩

/-! ## Permits -/

/-- The permits in use are those of the guards that are alive or were dropped. -/
def Balanced (sent : List Notice) (state : ResourceState) : Prop :=
  state.inUse = state.live + sent.count .release ∧ state.limit ≤ state.largest ∧ state.inUse ≤ state.largest

theorem Balanced.grant (balanced : Balanced sent state) (free : state.inUse < state.limit) (received : Bool) :
    Balanced (sent ++ (state.grant received).2) (state.grant received).1 := by
  refine ⟨?_, balanced.2.1, free.trans_le balanced.2.1⟩
  have count := balanced.1
  cases received <;> simp [ResourceState.grant] <;> omega

abbrev Run (guard : ResourceManager → Event → Prop) : ResourceManager → ResourceManager → Prop :=
  Steps (fun event m n => m.next event = some n) guard

theorem Stable.run {guard : ResourceManager → Event → Prop} (stable : Stable calm holds)
    (allowed : ∀ m event, guard m event → Sends calm m event)
    (fresh : ∀ limit maxQueueSize, holds [] { limit, maxQueueSize }) (run : Run guard (.new limits) m) :
    m.Everywhere holds := by
  refine run.preserves (Everywhere holds) (fun _ _ _ permits step before => ?_) ?_
  · exact stable.next before (allowed _ _ permits) step
  intro resource state found
  obtain ⟨⟨limit, maxQueueSize⟩, -, rfl⟩ := Option.map_eq_some_iff.mp found
  exact fresh limit maxQueueSize

section Results

variable (found : m.resources resource = some state)
include found

/-- In every run, when somebody waits and a permit is free, the manager is going to look at the queue, which is never
longer than it may be. -/
theorem waiters_attended (run : Run (fun _ _ => True) (.new limits) m) :
    (state.waitQueue ≠ [] → state.inUse < state.limit →
      .processQueue ∈ m.pending resource ∨ .release ∈ m.pending resource) ∧
      state.waitQueue.length ≤ state.maxQueueSize :=
  attended_stable.run (fun m event _ => sends_trivial m event) (fun _ _ => ⟨nofun, Nat.zero_le _⟩)
    run resource state found

end Results

/-- One permit and one place to wait. -/
def single : ResourceManager := .new fun _ => some (1, 1)

theorem exists_single (guard : ResourceManager → Event → Prop) [∀ m, DecidablePred (guard m)] (events : List Event)
    (facts : ResourceState → Prop) [DecidablePred facts]
    (replayed : (events.foldlM (fun m event => if guard m event then m.next event else none) single).any fun m =>
      (m.resources .diskRead).any facts) :
    ∃ m state, Run guard single m ∧ m.resources .diskRead = some state ∧ facts state := by
  obtain ⟨m, run, reached⟩ := Steps.exists_replay guard next (fun m event => guard m event) events single
    (fun m => (m.resources .diskRead).any facts) (fun _ _ _ => of_decide_eq_true) (by simpa using replayed)
  obtain ⟨state, found, holds⟩ := (Option.any_eq_true _ _).mp reached
  exact ⟨m, state, run, found, of_decide_eq_true holds⟩

/-- A second client waits, and the first drops its guard. -/
def handOn : List Event := [.acquire .diskRead 1, .acquire .diskRead 2, .drop .diskRead, .control ∅]

theorem waiters_attended_freed : ∃ m state, Run (fun _ _ => True) single m ∧ m.resources .diskRead = some state ∧
    state.waitQueue = [2] ∧ (.processQueue ∈ m.pending .diskRead ∨ .release ∈ m.pending .diskRead) := by
  obtain ⟨m, state, run, found, waits, free⟩ := exists_single (fun _ _ => True) handOn
    (fun state => state.waitQueue = [2] ∧ state.inUse < state.limit) (by decide +kernel)
  exact ⟨m, state, run, found, waits, (waiters_attended found run).1 (by simp [waits]) free⟩

end Superseedr.ResourceManager
