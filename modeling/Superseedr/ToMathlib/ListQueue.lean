import Mathlib.Data.List.Perm.Basic
import Mathlib.Data.List.Nodup

/-! # Removing from an unordered queue

`Vec::swap_remove` fills the hole with the last element. As a multiset this is erasure, so a
queue without repetitions stays one and loses exactly the removed element.
-/

namespace List

variable {α : Type*}

/-- Remove the element at a position and put the last element in its place. -/
def swapRemove (l : List α) (i : ℕ) : List α :=
  match l.getLast? with
  | none => []
  | some last => if i + 1 = l.length then l.dropLast else l.dropLast.set i last

theorem swapRemove_concat (l : List α) (last : α) (i : ℕ) :
    (l ++ [last]).swapRemove i = if i = l.length then l else l.set i last := by
  simp only [swapRemove, getLast?_concat, length_append, length_singleton, Nat.add_right_cancel_iff, dropLast_concat]

theorem getElem_cons_swapRemove_perm {l : List α} {i : ℕ} (bound : i < l.length) : (l[i] :: l.swapRemove i).Perm l := by
  obtain ⟨front, last, rfl⟩ : ∃ front last, l = front ++ [last] :=
    ⟨l.dropLast, l.getLast (ne_nil_of_length_pos (by omega)), (dropLast_append_getLast _).symm⟩
  rw [swapRemove_concat]
  split_ifs with atEnd
  · subst atEnd
    simpa using (perm_append_singleton last front).symm
  have inside : i < front.length := by
    simp only [length_append, length_singleton] at bound
    omega
  rw [getElem_append_left inside]
  calc (front[i] :: front.set i last).Perm (front[i] :: last :: front.eraseIdx i) :=
        (set_perm_cons_eraseIdx inside last).cons _
    _ |>.Perm (last :: front[i] :: front.eraseIdx i) := .swap ..
    _ |>.Perm (last :: front) := (getElem_cons_eraseIdx_perm inside).cons _
    _ |>.Perm (front ++ [last]) := (perm_append_singleton last front).symm

variable [DecidableEq α]

/-- Swap-remove the first occurrence of an element, if there is one. -/
def swapErase (l : List α) (x : α) : List α :=
  if x ∈ l then l.swapRemove (l.idxOf x) else l

theorem swapErase_perm (l : List α) (x : α) : (l.swapErase x).Perm (l.erase x) := by
  unfold swapErase
  split_ifs with member
  · have bound : l.idxOf x < l.length := idxOf_lt_length_iff.mpr member
    have restored := getElem_cons_swapRemove_perm bound
    rw [getElem_idxOf bound] at restored
    exact (restored.trans (perm_cons_erase member)).cons_inv
  · rw [erase_of_not_mem member]

theorem Nodup.swapErase {l : List α} (unique : l.Nodup) (x : α) : (l.swapErase x).Nodup :=
  (swapErase_perm l x).nodup_iff.mpr (unique.erase x)

theorem Nodup.mem_swapErase_iff {l : List α} (unique : l.Nodup) {x y : α} : y ∈ l.swapErase x ↔ y ≠ x ∧ y ∈ l :=
  (swapErase_perm l x).mem_iff.trans unique.mem_erase_iff

end List
