import Mathlib.Data.List.Infix

/-! # Walks through a tree of directories

A directory is the list of names that leads to it, the innermost name first. A step goes down into a
named directory or up to the parent; going up at the top stays at the top. `staysBelow` is the test that
a walk never rises above the directory it starts in. It is exact: a walk that passes ends below its
start whatever the start is, and a walk that fails leaves a start whose name it never mentions.
-/

namespace DirWalk

variable {N : Type*}

inductive Step (N : Type*) where
  | up
  | down (name : N)
deriving DecidableEq, Repr

/-- The directory reached from `dir`. -/
def walk : List N → List (Step N) → List N
  | dir, [] => dir
  | dir, .up :: steps => walk dir.tail steps
  | dir, .down name :: steps => walk (name :: dir) steps

/-- The walk starts `depth` levels below some directory and never rises above that directory. -/
def staysBelow : ℕ → List (Step N) → Bool
  | _, [] => true
  | 0, .up :: _ => false
  | depth + 1, .up :: steps => staysBelow depth steps
  | depth, .down _ :: steps => staysBelow (depth + 1) steps

@[simp] theorem staysBelow_down (depth : ℕ) (name : N) (steps : List (Step N)) :
    staysBelow depth (.down name :: steps) = staysBelow (depth + 1) steps := by
  cases depth <;> rfl

theorem walk_append (dir : List N) (first second : List (Step N)) :
    walk dir (first ++ second) = walk (walk dir first) second := by
  induction first generalizing dir with
  | nil => rfl
  | cons step first ih =>
    cases step with
    | up => exact ih dir.tail
    | down name => exact ih (name :: dir)

/-- A beginning of a walk that stays below stays below. -/
theorem staysBelow_of_append {depth : ℕ} {first second : List (Step N)} (stays : staysBelow depth (first ++ second)) :
    staysBelow depth first := by
  induction first generalizing depth with
  | nil => rfl
  | cons step first ih =>
    cases step with
    | down name => exact ih stays
    | up =>
      cases depth with
      | zero => cases stays
      | succ depth => exact ih stays

theorem walk_append_dir {below above : List N} {steps : List (Step N)} (stays : staysBelow below.length steps) :
    walk (below ++ above) steps = walk below steps ++ above := by
  induction steps generalizing below with
  | nil => rfl
  | cons step steps ih =>
    cases step with
    | down name =>
      rw [staysBelow_down] at stays
      exact @ih (name :: below) stays
    | up =>
      cases below with
      | nil => cases stays
      | cons name below => exact ih stays

/-- A walk that stays below its start ends inside it. -/
theorem suffix_walk {dir : List N} {steps : List (Step N)} (stays : staysBelow 0 steps) : dir <:+ walk dir steps := by
  have inside : walk ([] ++ dir) steps = walk [] steps ++ dir := walk_append_dir stays
  exact ⟨_, inside.symm⟩

/-- Only names of the start and of downward steps appear in the directory reached. -/
theorem notMem_walk {name : N} {dir : List N} {steps : List (Step N)} (absent : name ∉ dir)
    (unnamed : .down name ∉ steps) : name ∉ walk dir steps := by
  induction steps generalizing dir with
  | nil => exact absent
  | cons step steps ih =>
    rw [List.mem_cons, not_or] at unnamed
    cases step with
    | up => exact ih (fun member => absent (List.mem_of_mem_tail member)) unnamed.2
    | down other =>
      refine ih ?_ unnamed.2
      rw [List.mem_cons, not_or]
      exact ⟨fun same => unnamed.1 (congrArg _ same), absent⟩

/-- A walk that rises above its start leaves a directory whose name it does not mention. -/
theorem notMem_walk_of_leaves {name : N} {below : List N} {steps : List (Step N)}
    (leaves : staysBelow below.length steps = false) (unnamed : .down name ∉ steps) :
    name ∉ walk (below ++ [name]) steps := by
  induction steps generalizing below with
  | nil => exact absurd leaves Bool.noConfusion
  | cons step steps ih =>
    rw [List.mem_cons, not_or] at unnamed
    cases step with
    | down other =>
      rw [staysBelow_down] at leaves
      exact @ih (other :: below) leaves unnamed.2
    | up =>
      cases below with
      | nil => exact @notMem_walk N name [] steps List.not_mem_nil unnamed.2
      | cons inner below => exact ih leaves unnamed.2

end DirWalk
