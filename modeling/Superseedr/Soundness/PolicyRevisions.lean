import Superseedr.Model.PolicyPersistence
import Superseedr.ToMathlib.LabeledSteps

/-! # A clean policy has been saved

Requests are answered in the order of their revisions, and two requests of one revision carry one policy. So whatever
is written after the current revision was acknowledged is the current policy. A counter that cannot grow any more gives
two policies one revision.
-/

namespace Superseedr.PolicyService

variable {Policy : Type*} {s t : PolicyService Policy} {loaded : Policy} {event : Event Policy} {tx dirty : Bool}

def unanswered (s : PolicyService Policy) : List (PolicyPersistenceRequest Policy) :=
  s.writing.toList ++ s.request.toList

@[grind =]
theorem mem_unanswered {request : PolicyPersistenceRequest Policy} :
    request ∈ s.unanswered ↔ s.writing = some request ∨ s.request = some request := by
  simp [unanswered]

/-- The policy has been saved, or is the one that was loaded. -/
def Saved (loaded : Policy) (s : PolicyService Policy) : Prop :=
  s.saved = some s.policy ∨ s.saved = none ∧ s.persistence.revision = 0 ∧ s.policy = loaded

structure Tracked (loaded : Policy) (s : PolicyService Policy) : Prop where
  behind : ∀ request ∈ s.unanswered, request.revision ≤ s.persistence.revision
  current : ∀ request ∈ s.unanswered, request.revision = s.persistence.revision → request.policy = s.policy
  ordered : ∀ first second, s.writing = some first → s.request = some second → first.revision ≤ second.revision
  answered : ∀ result ∈ s.results, result.revision ≤ s.persistence.revision ∧
    ∀ request ∈ s.unanswered, result.revision ≤ request.revision
  settled : s.persistence.dirty = false ∨ ⟨s.persistence.revision, true⟩ ∈ s.results →
    s.Saved loaded ∧ ∀ request ∈ s.unanswered, request.revision = s.persistence.revision

def Counted (s : PolicyService Policy) : Event Policy → Prop
  | .change _ => s.persistence.revision < 2 ^ 64 - 1
  | _ => True

theorem Tracked.next (tracked : Tracked loaded s) (counted : s.Counted event) (step : s.next event = some t) :
    Tracked loaded t := by
  obtain ⟨behind, current, ordered, answered, settled⟩ := tracked
  cases event with
  | change policy =>
    cases step
    -- No request and no result is of the new revision.
    have larger : s.persistence.markDirty.revision = s.persistence.revision + 1 := min_eq_left (by exact counted)
    constructor <;> grind [PolicyPersistenceState.markDirty]
  | queue =>
    cases step
    unfold queueIfDirty
    dsimp only
    split_ifs
    · exact ⟨behind, current, ordered, answered, settled⟩
    all_goals constructor <;> grind [Saved]
  | receive =>
    simp only [PolicyService.next] at step
    split at step
    · rename_i result results known
      obtain ⟨revision, succeeded⟩ := result
      cases step
      unfold PolicyPersistenceState.applyResult
      split_ifs <;> constructor <;> grind [Saved]
    · split_ifs at step
      cases step
      exact ⟨behind, current, ordered, answered, settled⟩
  | take =>
    simp only [PolicyService.next] at step
    split_ifs at step with idle
    obtain ⟨request, found, rfl⟩ := Option.map_eq_some_iff.mp step
    constructor <;> grind [Saved]
  | finish succeeded =>
    -- A request of the current revision carries the current policy.
    obtain ⟨request, found, rfl⟩ := Option.map_eq_some_iff.mp step
    constructor <;> grind [Saved]
  | close =>
    cases step
    exact ⟨behind, current, ordered, answered, settled⟩

abbrev Run (guard : PolicyService Policy → Event Policy → Prop) : PolicyService Policy → PolicyService Policy → Prop :=
  Steps (fun event s t => s.next event = some t) guard

/-- A service that is clean has saved the policy of its revision, as long as the counter counts the changes. -/
theorem clean_policy_saved (run : Run Counted (new loaded tx dirty) s) (clean : s.persistence.dirty = false) :
    s.Saved loaded := by
  have initial : Tracked loaded (new loaded tx dirty) := by
    constructor <;> cases dirty <;> simp [new, unanswered, Saved]
  have tracked := run.preserves (Tracked loaded) (fun s t event counted step before => before.next counted step) initial
  exact (tracked.settled (.inl clean)).1

/-- A policy is changed and saved. -/
theorem clean_policy_saved_change : ∃ s, Run Counted (new 0 true false) s ∧ s.policy = 1 ∧ s.Saved 0 := by
  obtain ⟨s, run, changed, clean⟩ := Steps.exists_replay Counted next (fun s _ => s.persistence.revision < 2 ^ 64 - 1)
    [.change 1, .queue, .take, .finish true, .receive] (new 0 true false)
    (fun s => s.policy = 1 ∧ s.persistence.dirty = false) (by simp [Counted]) (by decide +kernel)
  exact ⟨s, run, changed, clean_policy_saved run clean⟩

/-- The policy has been changed many times. -/
theorem run_change {n : ℕ} (small : n < 2 ^ 64 - 1) : Run (fun _ _ => True) (new false true true)
    { new false true true with persistence := ⟨true, true, n + 1, none⟩ } := by
  induction n with
  | zero => exact Steps.refl
  | succ n ih =>
    have counted : satAdd64 (n + 1) 1 = n + 2 := min_eq_left (by omega)
    refine (ih (by omega)).tail ⟨.change false, trivial, ?_⟩
    simp [next, PolicyPersistenceState.markDirty, counted, new]

/-- A policy that changes while the last revision is written is taken to be saved. -/
theorem clean_policy_unsaved : ∃ s, Run (fun _ _ => True) (new false true true) s ∧
    s.persistence.dirty = false ∧ s.saved = some false ∧ s.policy = true := by
  obtain ⟨s, run, facts⟩ := Steps.exists_replay (fun _ _ => True) next (fun _ _ => true)
    [.queue, .take, .finish true, .change true, .receive]
    { new false true true with persistence := ⟨true, true, 2 ^ 64 - 1, none⟩ }
    (fun s => s.persistence.dirty = false ∧ s.saved = some false ∧ s.policy = true) (by simp) (by decide +kernel)
  exact ⟨s, (run_change (by omega)).trans run, facts⟩

end Superseedr.PolicyService
