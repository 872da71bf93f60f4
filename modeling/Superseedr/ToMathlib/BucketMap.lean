import Mathlib.Algebra.Ring.Nat
import Mathlib.Data.List.Flatten
import Superseedr.ToMathlib.AssocMap

/-! # Maps of lists

A map whose values are lists holds one record for every element of every list. Up to order the records are what an
insertion adds and an erasure takes away, so that a bound on their number or a fact about each of them follows from the
operations of the map.
-/

namespace AList

open List

variable {K V : Type*}

/-- The elements of all lists, each with its key. -/
def records (m : AList fun _ : K => List V) : List (K × V) :=
  m.entries.flatMap fun entry => entry.2.map (Prod.mk entry.1)

theorem length_records (m : AList fun _ : K => List V) :
    m.records.length = (m.entries.map fun entry => entry.2.length).sum := by
  rw [records, length_flatMap]
  simp only [length_map]

theorem records_retain_sublist (keep : K → List V → Bool) (m : AList fun _ : K => List V) :
    (m.retain keep).records.Sublist m.records :=
  filter_sublist.flatMap _

theorem records_mapVal_sublist {f : K → List V → List V} (shrinks : ∀ k bucket, (f k bucket).Sublist bucket)
    (m : AList fun _ : K => List V) : (m.mapVal f).records.Sublist m.records := by
  rw [records, mapVal, flatMap_map]
  exact List.Sublist.flatMap_right _ fun entry _ => (shrinks entry.1 entry.2).map _

variable [DecidableEq K]

theorem mem_records {m : AList fun _ : K => List V} {record : K × V} :
    record ∈ m.records ↔ ∃ bucket, m.lookup record.1 = some bucket ∧ record.2 ∈ bucket := by
  rw [records, mem_flatMap]
  constructor
  · rintro ⟨⟨k, bucket⟩, isEntry, inBucket⟩
    obtain ⟨v, isElement, rfl⟩ := mem_map.mp inBucket
    exact ⟨bucket, mem_lookup_iff.mpr isEntry, isElement⟩
  · rintro ⟨bucket, found, isElement⟩
    exact ⟨⟨record.1, bucket⟩, mem_lookup_iff.mp found, mem_map.mpr ⟨record.2, isElement, rfl⟩⟩

theorem records_insert (k : K) (bucket : List V) (m : AList fun _ : K => List V) :
    (m.insert k bucket).records = bucket.map (Prod.mk k) ++ (m.erase k).records :=
  rfl

/-- A list and the records of the other keys are all records. -/
theorem records_perm_erase {k : K} {bucket : List V} {m : AList fun _ : K => List V}
    (found : m.lookup k = some bucket) : m.records.Perm (bucket.map (Prod.mk k) ++ (m.erase k).records) := by
  obtain ⟨other, before, after, -, split, erased⟩ := exists_of_kerase (mem_keys.mp (mem_of_lookup_eq_some found))
  have same : bucket = other := by
    have isEntry : (⟨k, other⟩ : Sigma fun _ : K => List V) ∈ m.entries := by rw [split]; simp
    exact Option.some.inj (found.symm.trans (mem_lookup_iff.mpr isEntry))
  have remaining : (m.erase k).entries = before ++ after := erased
  rw [records, records, remaining, split, same, flatMap_append, flatMap_append, flatMap_cons]
  rw [← append_assoc, ← append_assoc]
  exact perm_append_comm.append_right _

theorem records_erase_sublist (k : K) (m : AList fun _ : K => List V) : (m.erase k).records.Sublist m.records :=
  (kerase_sublist k m.entries).flatMap _

end AList
