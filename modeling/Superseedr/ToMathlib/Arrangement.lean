import Mathlib.Data.List.Perm.Basic

/-! # Unordered iteration as an explicit choice

A program that walks a hash table or shuffles a list fixes the elements it visits but not their
order. An arrangement supplies the order: at every call site it permutes the list it is given, and
nothing else about it is known. Sites are addresses in a tree, so that nested loops can hand each
of their rounds an arrangement of its own and no two rounds are forced to agree.
-/

structure Arrangement where
  order : {α : Type} → List ℕ → List α → List α
  perm : ∀ {α : Type} (site : List ℕ) (l : List α), (order site l).Perm l

namespace Arrangement

/-- The arrangement a nested computation uses. -/
def sub (a : Arrangement) (branch : ℕ) : Arrangement where
  order site l := a.order (branch :: site) l
  perm site l := a.perm (branch :: site) l

/-- The order chosen at the `branch`-th site of the current computation. -/
def arrange (a : Arrangement) (branch : ℕ) {α : Type} (l : List α) : List α :=
  a.order [branch] l

def stored : Arrangement where
  order _ l := l
  perm _ _ := .refl _

instance : Inhabited Arrangement := ⟨stored⟩

variable (a : Arrangement) (branch : ℕ) {α : Type}

theorem arrange_perm (l : List α) : (a.arrange branch l).Perm l := a.perm [branch] l

@[simp] theorem mem_arrange {l : List α} {x : α} : x ∈ a.arrange branch l ↔ x ∈ l :=
  (a.arrange_perm branch l).mem_iff

@[simp] theorem nodup_arrange {l : List α} : (a.arrange branch l).Nodup ↔ l.Nodup :=
  (a.arrange_perm branch l).nodup_iff

end Arrangement
