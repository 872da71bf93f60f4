import Mathlib.Data.List.Basic
import Mathlib.Data.List.Count

/-! # Cells that partition a space

A list of cells partitions a space if every point lies in exactly one of them. The first cell that covers a point then
is the only one, and a partition stays one when a cell is replaced by its halves.
-/

/-- Every point lies in exactly one cell. -/
def Partitions {C X : Type*} (covers : C → X → Bool) (cells : List C) : Prop :=
  ∀ x, cells.countP (covers · x) = 1

namespace Partitions

open List

variable {C X : Type*} {covers : C → X → Bool} {cells before after : List C} {c left right : C}

theorem singleton (all : ∀ x, covers c x = true) : Partitions covers [c] := by
  intro x
  rw [countP_singleton, if_pos (all x)]

/-- The halves of a cell take its place. -/
theorem split (partitions : Partitions covers (before ++ c :: after)) (side : X → Bool)
    (isLeft : ∀ x, covers left x = (covers c x && !side x)) (isRight : ∀ x, covers right x = (covers c x && side x)) :
    Partitions covers (before ++ left :: right :: after) := by
  intro x
  have whole := partitions x
  rw [countP_append, countP_cons] at whole
  rw [countP_append, countP_cons, countP_cons, isLeft, isRight]
  cases covered : covers c x <;> cases side x <;> simp [covered] at whole ⊢ <;> omega

theorem exists_index (partitions : Partitions covers cells) (x : X) :
    ∃ i c, cells.findIdx? (covers · x) = some i ∧ cells[i]? = some c ∧ covers c x = true := by
  have positive : 0 < cells.countP (covers · x) := by rw [partitions x]; exact Nat.one_pos
  obtain ⟨c, member, covered⟩ := countP_pos_iff.mp positive
  cases found : cells.findIdx? (covers · x) with
  | none => exact absurd covered (findIdx?_eq_none_iff.mp found c member ▸ Bool.false_ne_true)
  | some i =>
    obtain ⟨inside, covered, -⟩ := findIdx?_eq_some_iff_getElem.mp found
    exact ⟨i, cells[i], rfl, getElem?_eq_getElem inside, covered⟩

/-- No two places hold a cell that covers the same point. -/
theorem index_unique (partitions : Partitions covers cells) {x : X} {i j : ℕ} {d : C} (first : cells[i]? = some c)
    (covered : covers c x = true) (second : cells[j]? = some d) (alsoCovered : covers d x = true) : i = j := by
  have once := Nat.le_of_eq (partitions x)
  clear partitions
  induction cells generalizing i j with
  | nil => simp at first
  | cons cell rest ih =>
    have later : ∀ {k e}, rest[k]? = some e → covers e x = true → 0 < rest.countP (covers · x) := fun place covered =>
      countP_pos_iff.mpr ⟨_, mem_of_getElem? place, covered⟩
    rw [countP_cons] at once
    match i, j with
    | 0, 0 => rfl
    | 0, j + 1 =>
      cases first
      rw [if_pos covered] at once
      have := later second alsoCovered
      omega
    | i + 1, 0 =>
      cases second
      rw [if_pos alsoCovered] at once
      have := later first covered
      omega
    | i + 1, j + 1 => rw [ih first second (by omega)]

end Partitions
