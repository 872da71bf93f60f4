import Mathlib.Algebra.BigOperators.Group.List.Basic
import Mathlib.Algebra.Order.Ring.Defs
import Mathlib.Tactic.Linarith
import Mathlib.Tactic.Ring

/-! # Metered admission

A meter has a level that grows at a rate up to a capacity, is brought up to date at a stamp, and pays for
what is admitted. `Metered` is what a log of admissions has to do with a level at a stamp. It is kept when the
meter is brought up to date, when it pays, and when something is admitted that counts for nothing; and it
bounds what is admitted in any span of time.
-/

namespace Meter

variable {K : Type*} [CommRing K] [LinearOrder K]

/-- What a log of times and amounts says was admitted from one time to another. -/
def between (log : List (K × K)) (first last : K) : K :=
  ((log.filter fun entry => decide (first ≤ entry.1 ∧ entry.1 ≤ last)).map (·.2)).sum

@[simp] theorem between_nil (first last : K) : between [] first last = 0 := rfl

theorem between_cons (time amount : K) (log : List (K × K)) (first last : K) :
    between ((time, amount) :: log) first last =
      (if first ≤ time ∧ time ≤ last then amount else 0) + between log first last := by
  unfold between
  by_cases inside : first ≤ time ∧ time ≤ last
  · rw [if_pos inside, List.filter_cons_of_pos (by simpa using inside), List.map_cons, List.sum_cons]
  · rw [if_neg inside, List.filter_cons_of_neg (by simpa using inside), zero_add]

/-- A log that is paid for: since any time no more was admitted than the level at that time and what was added to it
since then, less what is left. After the stamp nothing counted. -/
structure Metered (rate capacity level stamp : K) (log : List (K × K)) : Prop where
  bounded : ∀ first last, first ≤ last → between log first last ≤ capacity + rate * (last - first)
  left : ∀ first last, first ≤ stamp → stamp ≤ last →
    between log first last + level ≤ capacity + rate * (stamp - first)
  recent : ∀ first last, stamp < first → between log first last ≤ 0

namespace Metered

variable [IsStrictOrderedRing K] {rate capacity level stamp : K} {log : List (K × K)}

theorem start (full : level ≤ capacity) (positive : 0 ≤ level) (growing : 0 ≤ rate) :
    Metered rate capacity level stamp [] where
  bounded first last ordered := by
    have added := mul_nonneg growing (sub_nonneg.mpr ordered)
    rw [between_nil]
    linarith
  left first last before _ := by
    have added := mul_nonneg growing (sub_nonneg.mpr before)
    rw [between_nil]
    linarith
  recent first last _ := le_refl _

/-- Bringing the meter up to date. -/
theorem refill (metered : Metered rate capacity level stamp log) (growing : 0 ≤ rate) {now refilled : K}
    (later : stamp ≤ now) (full : refilled ≤ capacity) (grown : refilled ≤ level + rate * (now - stamp)) :
    Metered rate capacity refilled now log where
  bounded := metered.bounded
  left first last before after := by
    rcases le_or_gt first stamp with old | fresh
    · have paid := metered.left first last old (later.trans after)
      have sum : rate * (now - first) = rate * (now - stamp) + rate * (stamp - first) := by ring
      linarith
    · have nothing := metered.recent first last fresh
      have added := mul_nonneg growing (sub_nonneg.mpr before)
      linarith
  recent first last after := metered.recent first last (later.trans_lt after)

/-- Paying for an admission at the stamp. -/
theorem take (metered : Metered rate capacity level stamp log) (growing : 0 ≤ rate) {amount : K}
    (enough : amount ≤ level) : Metered rate capacity (level - amount) stamp ((stamp, amount) :: log) where
  bounded first last ordered := by
    rw [between_cons]
    split_ifs with inside
    · have paid := metered.left first last inside.1 inside.2
      have added := mul_nonneg growing (sub_nonneg.mpr inside.2)
      have sum : rate * (last - first) = rate * (last - stamp) + rate * (stamp - first) := by ring
      linarith
    · rw [zero_add]
      exact metered.bounded first last ordered
  left first last before after := by
    have paid := metered.left first last before after
    rw [between_cons, if_pos ⟨before, after⟩]
    linarith
  recent first last after := by
    rw [between_cons, if_neg fun inside => absurd inside.1 (not_le.mpr after), zero_add]
    exact metered.recent first last after

theorem between_cons_le {time amount first last : K} (nothing : amount ≤ 0) :
    between ((time, amount) :: log) first last ≤ between log first last := by
  rw [between_cons]
  split_ifs <;> linarith

/-- Admitting what counts for nothing, at any time. -/
theorem free (metered : Metered rate capacity level stamp log) {time amount : K} (nothing : amount ≤ 0) :
    Metered rate capacity level stamp ((time, amount) :: log) where
  bounded first last ordered := (between_cons_le nothing).trans (metered.bounded first last ordered)
  left first last before after := by
    have fewer : between ((time, amount) :: log) first last ≤ between log first last := between_cons_le nothing
    have paid := metered.left first last before after
    linarith
  recent first last after := (between_cons_le nothing).trans (metered.recent first last after)

end Metered

end Meter
