import Mathlib.Data.Finmap

/-! # Finite maps that are updated in place

Mathlib's `AList` has insertion, erasure and lookup. A reducer also rewrites stored values where
they stand and discards entries that fail a test; both keep the remaining keys and their order.
The lemmas here reduce every such operation to a statement about `lookup`, which is the only view
of a map the later proofs take. A set is a map to `Unit`.
-/

namespace AList

open List

variable {K V W X : Type*} {m : AList fun _ : K => V} {k other : K} {v : V} {f : K → V → W} {change : V → V}

/-- Rewrite every value; the keys stay where they are. -/
def mapVal (f : K → V → W) (m : AList fun _ : K => V) : AList fun _ : K => W where
  entries := m.entries.map (Sigma.map id f)
  nodupKeys := List.NodupKeys.map₂ f m.entries m.nodupKeys

/-- Discard the entries that fail the test. -/
def retain (keep : K → V → Bool) (m : AList fun _ : K => V) : AList fun _ : K => V where
  entries := m.entries.filter fun entry => keep entry.1 entry.2
  nodupKeys := m.nodupKeys.sublist List.filter_sublist

@[simp] theorem keys_mapVal : (m.mapVal f).keys = m.keys := map₂_keys f m.entries

@[simp] theorem mem_mapVal : k ∈ m.mapVal f ↔ k ∈ m := by
  rw [mem_keys, keys_mapVal, ← mem_keys]

theorem mapVal_mapVal {g : K → W → X} : (m.mapVal f).mapVal g = m.mapVal fun k v => g k (f k v) := by
  apply AList.ext
  simp only [mapVal, map_map]
  rfl

variable [DecidableEq K]

theorem mapVal_erase : (m.erase k).mapVal f = (m.mapVal f).erase k := by
  apply AList.ext
  simp only [mapVal, erase, kerase, eraseP_map]
  rfl

theorem mapVal_insert : (m.insert k v).mapVal f = (m.mapVal f).insert k (f k v) := by
  apply AList.ext
  simp only [mapVal, insert, kinsert_def, map_cons, kerase, eraseP_map]
  rfl

/-- Rewrite the value stored under one key, if there is one. -/
def modify (k : K) (f : V → V) (m : AList fun _ : K => V) : AList fun _ : K => V :=
  m.mapVal fun other v => if other = k then f v else v

@[simp] theorem lookup_mapVal : (m.mapVal f).lookup k = (m.lookup k).map (f k) := dlookup_map₂ k

theorem lookup_modify :
    (m.modify k change).lookup other = if other = k then (m.lookup other).map change else m.lookup other := by
  rw [modify, lookup_mapVal]
  split_ifs with same
  · rfl
  · exact congrFun Option.map_id (m.lookup other)

@[simp] theorem lookup_modify_self : (m.modify k change).lookup k = (m.lookup k).map change := by
  rw [lookup_modify, if_pos rfl]

theorem lookup_modify_ne (differ : other ≠ k) : (m.modify k change).lookup other = m.lookup other := by
  rw [lookup_modify, if_neg differ]

@[simp] theorem mem_modify : other ∈ m.modify k change ↔ other ∈ m := mem_mapVal

theorem mapVal_modify {change' : W → W} {g : V → W} (commutes : ∀ v, g (change v) = change' (g v)) :
    (m.modify k change).mapVal (fun _ => g) = (m.mapVal fun _ => g).modify k change' := by
  rw [modify, modify, mapVal_mapVal, mapVal_mapVal]
  congr 1
  funext other v
  rw [apply_ite g, commutes]

/-- Only what is done to the stored value counts. -/
theorem modify_congr {f g : V → V} (agree : ∀ v, m.lookup k = some v → f v = g v) : m.modify k f = m.modify k g := by
  apply AList.ext
  apply map_congr_left
  rintro ⟨other, v⟩ member
  rcases eq_or_ne other k with rfl | same
  · simp only [Sigma.map, agree v (mem_lookup_iff.mpr member)]
  · simp only [Sigma.map, if_neg same]

@[simp] theorem modify_id : m.modify k id = m := by
  apply AList.ext
  simp only [modify, mapVal, id, ite_self]
  exact map_id _

@[simp] theorem keys_modify : (m.modify k change).keys = m.keys := keys_mapVal

theorem lookup_retain {keep : K → V → Bool} : (m.retain keep).lookup k = (m.lookup k).filter (keep k) := by
  ext v
  rw [Option.filter_eq_some_iff, ← Option.mem_def, ← Option.mem_def, mem_lookup_iff, mem_lookup_iff]
  exact mem_filter

theorem lookup_erase_ite : (m.erase k).lookup other = if other = k then none else m.lookup other := by
  split_ifs with same
  · rw [same, lookup_erase]
  · rw [lookup_erase_ne same]

theorem lookup_insert_ite : (m.insert k v).lookup other = if other = k then some v else m.lookup other := by
  split_ifs with same
  · rw [same, lookup_insert]
  · rw [lookup_insert_ne same]

theorem insert_erase : (m.erase k).insert k v = m.insert k v := by
  apply AList.ext
  rw [entries_insert_of_notMem fun member => (mem_erase.mp member).1 rfl]
  rfl

theorem lookup_of_erase (found : (m.erase k).lookup other = some v) : m.lookup other = some v := by
  rw [lookup_erase_ite] at found
  split_ifs at found
  exact found

/-- What holds of the entries of a map and of a new one holds after the insertion. -/
theorem forall_insert {P : K → V → Prop} (old : ∀ other w, m.lookup other = some w → P other w) (new : P k v)
    (other : K) (w : V) (found : (m.insert k v).lookup other = some w) : P other w := by
  rw [lookup_insert_ite] at found
  split_ifs at found with same
  · rwa [same, ← Option.some.inj found]
  · exact old other w found

theorem forall_modify {P : K → V → Prop} (old : ∀ other v, m.lookup other = some v → P other v)
    (kept : ∀ v, P k v → P k (change v)) (other : K) (v : V) (found : (m.modify k change).lookup other = some v) :
    P other v := by
  rw [lookup_modify] at found
  split_ifs at found with same
  · obtain ⟨before, stored, rfl⟩ := Option.map_eq_some_iff.mp found
    subst same
    exact kept before (old other before stored)
  · exact old other v found

theorem lookup_eq_some_of_mem (member : k ∈ m) : ∃ v, m.lookup k = some v :=
  Option.isSome_iff_exists.mp (lookup_isSome.mpr member)

theorem mem_of_lookup_eq_some (found : m.lookup k = some v) : k ∈ m :=
  lookup_isSome.mp (by rw [found]; rfl)

/-- Erasing a list of keys one after another. -/
theorem lookup_foldl_erase (l : List (K × V)) :
    (l.foldl (fun m entry => m.erase entry.1) m).lookup k = if k ∈ l.map (·.1) then none else m.lookup k := by
  induction l generalizing m with
  | nil => rfl
  | cons entry rest ih =>
    rw [foldl_cons, ih, lookup_erase_ite, map_cons]
    by_cases later : k ∈ rest.map (·.1)
    · rw [if_pos later, if_pos (.tail _ later)]
    · rw [if_neg later]
      simp only [mem_cons, later, or_false]

theorem length_keys_foldl_erase {l : List (K × V)} (distinct : (l.map (·.1)).Nodup)
    (present : ∀ k ∈ l.map (·.1), k ∈ m) :
    (l.foldl (fun m entry => m.erase entry.1) m).keys.length = m.keys.length - l.length := by
  induction l generalizing m with
  | nil => rfl
  | cons entry rest ih =>
    rw [map_cons, nodup_cons] at distinct
    have here : entry.1 ∈ m := present entry.1 (by simp)
    rw [foldl_cons, ih distinct.2, keys_erase, length_erase_of_mem (mem_keys.mp here), length_cons]
    · omega
    · intro k later
      rw [mem_erase]
      exact ⟨fun same => distinct.1 (same ▸ later), present k (by simp [later])⟩

omit [DecidableEq K] in
/-- A map none of whose keys is present is the empty map. -/
theorem eq_empty_of_forall_notMem (absent : ∀ k, k ∉ m) : m = ∅ := by
  apply AList.ext
  rw [empty_entries]
  apply eq_nil_iff_forall_not_mem.mpr
  intro entry member
  exact absent entry.1 (mem_keys.mpr (mem_keys_of_mem member))

end AList
