import Mathlib.Data.List.Basic

/-! # Steps of a reducer that emits effects

A reducer takes a state to a new state and a list of effects, or stops because it panicked. Handlers
run other handlers one after another and over lists, and their effects add up. A relation between
the first state, the effects and the last state that is closed under composition holds of such a
sequence as soon as it holds of its parts.
-/

/-- One step of a reducer: the new state and what was emitted, or a panic. -/
abbrev EmittingStep (S E : Type*) := Option (S × List E)

namespace EmittingStep

variable {S E α : Type*} {body : ℕ → α → S → EmittingStep S E} {l : List α}

/-- Run a second step from the state the first one ends in. -/
def andThen (first : EmittingStep S E) (second : S → EmittingStep S E) : EmittingStep S E :=
  first.bind fun (s, effects) => (second s).map fun (t, more) => (t, effects ++ more)

/-- Run a body for every element of a list, numbering the rounds. -/
def forEachFrom (body : ℕ → α → S → EmittingStep S E) : ℕ → List α → S → EmittingStep S E
  | _, [], s => some (s, [])
  | i, x :: rest, s => (body i x s).andThen (forEachFrom body (i + 1) rest)

/-- Run a body for every element of a list, from round zero on. -/
def forEach (l : List α) (body : ℕ → α → S → EmittingStep S E) (s : S) : EmittingStep S E :=
  forEachFrom body 0 l s

theorem andThen_eq_some {first : EmittingStep S E} {second : S → EmittingStep S E} {t : S} {effects : List E} :
    first.andThen second = some (t, effects) ↔
      ∃ s before after, first = some (s, before) ∧ second s = some (t, after) ∧ effects = before ++ after := by
  cases first with
  | none => simp [andThen]
  | some result =>
    obtain ⟨s, before⟩ := result
    simp only [andThen, Option.bind_some, Option.map_eq_some_iff, Prod.mk.injEq, Prod.exists, Option.some.injEq]
    constructor
    · rintro ⟨u, after, run, rfl, rfl⟩
      exact ⟨s, before, after, ⟨rfl, rfl⟩, run, rfl⟩
    · rintro ⟨_, _, after, ⟨rfl, rfl⟩, run, rfl⟩
      exact ⟨t, after, run, rfl, rfl⟩

@[simp] theorem forEachFrom_nil (i : ℕ) (s : S) : forEachFrom body i [] s = some (s, []) := rfl

@[simp] theorem forEachFrom_cons (i : ℕ) (x : α) (rest : List α) (s : S) :
    forEachFrom body i (x :: rest) s = (body i x s).andThen (forEachFrom body (i + 1) rest) := rfl

@[simp] theorem forEach_nil (s : S) : forEach [] body s = some (s, []) := rfl

/-- A relation closed under composition holds of a loop as soon as it holds of every round. -/
theorem forEachFrom_rule {R : S → List E → S → Prop} (idle : ∀ s, R s [] s)
    (chain : ∀ {s before t after u}, R s before t → R t after u → R s (before ++ after) u)
    (round : ∀ i x s t effects, x ∈ l → body i x s = some (t, effects) → R s effects t) {i : ℕ} {s t : S}
    {effects : List E} (run : forEachFrom body i l s = some (t, effects)) : R s effects t := by
  induction l generalizing i s effects with
  | nil =>
    simp only [forEachFrom_nil, Option.some.injEq, Prod.mk.injEq] at run
    obtain ⟨rfl, rfl⟩ := run
    exact idle s
  | cons x rest ih =>
    rw [forEachFrom_cons, andThen_eq_some] at run
    obtain ⟨middle, before, after, head, tail, rfl⟩ := run
    have first := round i x s middle before (.head _) head
    have others := ih (fun j y u v es member => round j y u v es (.tail x member)) tail
    exact chain first others

/-- What one round of a loop establishes and every round keeps holds at the end. -/
theorem forEachFrom_reaches {P : S → Prop} {x : α} (member : x ∈ l)
    (makes : ∀ i s t effects, body i x s = some (t, effects) → P t)
    (keeps : ∀ i y s t effects, body i y s = some (t, effects) → P s → P t) {i : ℕ} {s t : S} {effects : List E}
    (run : forEachFrom body i l s = some (t, effects)) : P t := by
  induction l generalizing i s effects with
  | nil => cases member
  | cons y rest ih =>
    rw [forEachFrom_cons, andThen_eq_some] at run
    obtain ⟨middle, before, after, head, tail, rfl⟩ := run
    rcases List.mem_cons.mp member with rfl | later
    · have kept := forEachFrom_rule (R := fun (s : S) (_ : List E) (t : S) => P s → P t) (fun _ => id)
        (fun first second holds => second (first holds)) (fun j z u v es _ round => keeps j z u v es round) tail
      exact kept (makes i s middle before head)
    · exact ih later tail

/-- A step that emits nothing loud and leaves a view of the state alone. -/
structure Frame {V : Type*} (loud : E → Bool) (view : S → V) (s : S) (effects : List E) (t : S) : Prop where
  silent : ∀ effect ∈ effects, loud effect = false
  same : view t = view s

namespace Frame

variable {V : Type*} {loud : E → Bool} {view : S → V} {s t u : S} {effects before after : List E}

theorem refl (s : S) : Frame loud view s [] s := ⟨by simp, rfl⟩

theorem trans (first : Frame loud view s before t) (second : Frame loud view t after u) :
    Frame loud view s (before ++ after) u := by
  refine ⟨fun effect member => ?_, second.same.trans first.same⟩
  rcases List.mem_append.mp member with early | late
  · exact first.silent effect early
  · exact second.silent effect late

/-- Changing what is not in view first. -/
theorem from_same (same : view t = view s) (frame : Frame loud view t effects u) : Frame loud view s effects u :=
  ⟨frame.silent, frame.same.trans same⟩

theorem of_some {result : S × List E} (run : some result = some (t, effects))
    (silent : ∀ effect ∈ result.2, loud effect = false) (same : view result.1 = view s) :
    Frame loud view s effects t := by
  cases run
  exact ⟨silent, same⟩

theorem of_result {result : S × List E} (frame : Frame loud view s result.2 result.1)
    (run : some result = some (t, effects)) : Frame loud view s effects t := by
  cases run
  exact frame

theorem of_map {x : Option α} {result : α → S × List E} (run : x.map result = some (t, effects))
    (silent : ∀ a, ∀ effect ∈ (result a).2, loud effect = false) (same : ∀ a, view (result a).1 = view s) :
    Frame loud view s effects t := by
  obtain ⟨a, -, result⟩ := Option.map_eq_some_iff.mp run
  exact of_some (congrArg some result) (silent a) (same a)

theorem andThen {first : EmittingStep S E} {second : S → EmittingStep S E}
    (run : first.andThen second = some (u, after))
    (left : ∀ t effects, first = some (t, effects) → Frame loud view s effects t)
    (right : ∀ t effects, second t = some (u, effects) → Frame loud view t effects u) : Frame loud view s after u := by
  obtain ⟨t, before, more, firstRun, secondRun, rfl⟩ := andThen_eq_some.mp run
  exact (left t before firstRun).trans (right t more secondRun)

theorem forEach (run : EmittingStep.forEach l body s = some (u, after))
    (round : ∀ i x s t effects, body i x s = some (t, effects) → Frame loud view s effects t) :
    Frame loud view s after u :=
  forEachFrom_rule refl (fun first second => trans first second)
    (fun i x s t effects _ run => round i x s t effects run) run

end Frame

end EmittingStep
