import Mathlib.Algebra.Ring.Nat
import Mathlib.Data.List.Basic

/-! # Perfect binary hash trees

A tree is given by its leaves, numbered from the left, and a function that combines two nodes. A proof
is a list of siblings from a leaf upwards; climbing it combines the leaf with one sibling after another,
on the side the position says. The climb along the siblings of the tree itself ends in its root. Two climbs
of the same height that end in the same node start from the same node, unless two different pairs combine
to the same node on the way.
-/

namespace MerkleTree

variable {H : Type*} (combine : H → H → H)

/-- The node at a height and a position over the leaves. -/
def node (leaf : ℕ → H) : ℕ → ℕ → H
  | 0, i => leaf i
  | height + 1, i => combine (node leaf height (2 * i)) (node leaf height (2 * i + 1))

/-- A node and its sibling, in the order of their positions. -/
def ordered (x : H) (i : ℕ) (sibling : H) : H × H := if i % 2 = 0 then (x, sibling) else (sibling, x)

/-- Combine a node with one sibling after another. -/
def climb : H → ℕ → List H → H
  | x, _, [] => x
  | x, i, sibling :: rest =>
    climb (combine (ordered x i sibling).1 (ordered x i sibling).2) (i / 2) rest

def climbed : H → ℕ → List H → List (H × H)
  | _, _, [] => []
  | x, i, sibling :: rest =>
    ordered x i sibling :: climbed (combine (ordered x i sibling).1 (ordered x i sibling).2) (i / 2) rest

/-- The pairs the tree combines above a position. -/
def above (leaf : ℕ → H) : ℕ → ℕ → List (H × H)
  | 0, _ => []
  | height + 1, i => (leaf (2 * (i / 2)), leaf (2 * (i / 2) + 1)) :: above (node combine leaf 1) height (i / 2)

/-- The siblings of the nodes above a position. -/
def siblingsOf (leaf : ℕ → H) : ℕ → ℕ → List H
  | 0, _ => []
  | height + 1, i => leaf (if i % 2 = 0 then i + 1 else i - 1) :: siblingsOf (node combine leaf 1) height (i / 2)

variable {combine}

/-- The tree over the parents of the leaves is one lower. -/
theorem node_node (leaf : ℕ → H) (height i : ℕ) :
    node combine (node combine leaf 1) height i = node combine leaf (height + 1) i := by
  induction height generalizing i with
  | zero => rfl
  | succ height ih =>
    rw [node, ih, ih]
    rfl

/-- The first nodes of a tree, if combining one with any sibling leads to the next. -/
theorem node_zero {spine : ℕ → H} {leaf : ℕ → H} (start : leaf 0 = spine 0) {height : ℕ}
    (step : ∀ k < height, ∀ sibling, combine (spine k) sibling = spine (k + 1)) :
    node combine leaf height 0 = spine height := by
  induction height with
  | zero => exact start
  | succ height ih =>
    rw [node, Nat.mul_zero, ih fun k below => step k (Nat.lt_succ_of_lt below)]
    exact step height (Nat.lt_succ_self height) _

/-- A leaf and its sibling are the two leaves of their parent. -/
theorem ordered_leaf (leaf : ℕ → H) (i : ℕ) :
    ordered (leaf i) i (leaf (if i % 2 = 0 then i + 1 else i - 1)) = (leaf (2 * (i / 2)), leaf (2 * (i / 2) + 1)) := by
  unfold ordered
  split_ifs with even
  · rw [show 2 * (i / 2) = i by omega]
  · rw [show 2 * (i / 2) = i - 1 by omega, Nat.sub_add_cancel (by omega)]

theorem climbed_siblingsOf (leaf : ℕ → H) (height i : ℕ) :
    climbed combine (leaf i) i (siblingsOf combine leaf height i) = above combine leaf height i := by
  induction height generalizing leaf i with
  | zero => rfl
  | succ height ih =>
    rw [siblingsOf, climbed, ordered_leaf, above, ← ih]
    rfl

theorem climb_siblingsOf (leaf : ℕ → H) (height i : ℕ) :
    climb combine (leaf i) i (siblingsOf combine leaf height i) = node combine leaf height (i / 2 ^ height) := by
  induction height generalizing leaf i with
  | zero => simp [siblingsOf, climb, node]
  | succ height ih =>
    rw [siblingsOf, climb, ordered_leaf, Nat.pow_succ', ← Nat.div_div_eq_div_mul, ← node_node, ← ih]
    rfl

theorem length_siblingsOf (leaf : ℕ → H) (height i : ℕ) : (siblingsOf combine leaf height i).length = height := by
  induction height generalizing leaf i with
  | zero => rfl
  | succ height ih => rw [siblingsOf, List.length_cons, ih]

section Everywhere

variable {P : H → Prop} (combined : ∀ x y, P (combine x y))
include combined

theorem forall_node {leaf : ℕ → H} (leaves : ∀ i, P (leaf i)) (height i : ℕ) : P (node combine leaf height i) := by
  cases height with
  | zero => exact leaves i
  | succ height => exact combined _ _

theorem forall_siblingsOf {leaf : ℕ → H} (leaves : ∀ i, P (leaf i)) {height i : ℕ} {sibling : H}
    (beside : sibling ∈ siblingsOf combine leaf height i) : P sibling := by
  induction height generalizing leaf i with
  | zero => cases beside
  | succ height ih =>
    rcases List.mem_cons.mp beside with rfl | higher
    · exact leaves _
    · exact ih (forall_node combined leaves 1) higher

/-- Climbs of the same height from different nodes to the same node meet: on some height, two different nodes
and their siblings are combined to the same node. -/
theorem exists_meeting {x y : H} {i : ℕ} {siblings others : List H} (start : P x) (start' : P y) (different : x ≠ y)
    (even : siblings.length = others.length) (meet : climb combine x i siblings = climb combine y i others) :
    ∃ j u v sibling other, P u ∧ P v ∧ u ≠ v ∧ ordered u j sibling ∈ climbed combine x i siblings ∧
      ordered v j other ∈ climbed combine y i others ∧
      combine (ordered u j sibling).1 (ordered u j sibling).2 =
        combine (ordered v j other).1 (ordered v j other).2 := by
  induction siblings generalizing x y i others with
  | nil =>
    cases List.length_eq_zero_iff.mp even.symm
    exact absurd meet different
  | cons sibling rest ih =>
    obtain ⟨other, more, rfl⟩ := List.exists_cons_of_length_pos (by rw [← even]; exact Nat.succ_pos _)
    by_cases same : combine (ordered x i sibling).1 (ordered x i sibling).2 =
        combine (ordered y i other).1 (ordered y i other).2
    · exact ⟨i, x, y, sibling, other, start, start', different, .head _, .head _, same⟩
    · obtain ⟨j, u, v, below, below', isU, isV, apart, climbs, climbs', parents⟩ :=
        ih (combined _ _) (combined _ _) same (Nat.succ.inj even) meet
      exact ⟨j, u, v, below, below', isU, isV, apart, .tail _ climbs, .tail _ climbs', parents⟩

end Everywhere

end MerkleTree
