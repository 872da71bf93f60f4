import Superseedr.Soundness.PieceSpace

/-! # The order of the files of a tree

A version 2 torrent is laid out in the order of the joined paths of its files. Other clients walk through the tree,
siblings in the order of the bytes of their names. The two agree if decoding keeps siblings in order and no name
continues that of a directory beside it with the slash or a byte below the slash.
-/

namespace Superseedr

open List

section Bytes

variable {u v x y : Bytes}

/-- What is continued stays in order, unless the first is a beginning of the second. -/
theorem append_lt_append (less : u < v) (begins : ∀ rest, v = u ++ rest → x < rest ++ y) : u ++ x < v ++ y := by
  induction u generalizing v with
  | nil => exact begins v rfl
  | cons a u ih =>
    cases v with
    | nil => exact absurd less (not_lt_nil _)
    | cons b v =>
      rw [cons_append, cons_append, cons_lt_cons_iff]
      refine (cons_lt_cons_iff.mp less).imp_right fun ⟨same, rest⟩ => ⟨same, ih rest fun back continues => ?_⟩
      exact begins back (by rw [continues, same, cons_append])

end Bytes

mutual

/-- The tree with siblings in the order of the bytes of their names. -/
def inByteOrder : Value → Value
  | .dict entries => .dict ((entriesInByteOrder entries).insertionSort fun a b => a.1 ≤ b.1)
  | value => value

def entriesInByteOrder : List (Bytes × Value) → List (Bytes × Value)
  | [] => []
  | (key, value) :: rest =>
    (key, if fromUtf8Lossy key = [] then value else inByteOrder value) :: entriesInByteOrder rest

end

/-- The files that take up pieces. -/
def nonempty (files : List (Bytes × ℕ × Bytes)) : List (Bytes × ℕ × Bytes) := files.filter (0 < ·.2.1)

/-- The files of an entry of a directory, by their paths in the directory. -/
def filesOf (entry : Bytes × Value) : List (Bytes × ℕ × Bytes) := nonempty (traverseEntries [entry] [])

/-- The names of two entries with files are in order, and the second does not continue the first with the slash or a
byte below it if the first is a directory. -/
def Before (a b : Bytes × Value) : Prop :=
  filesOf a ≠ [] → filesOf b ≠ [] → fromUtf8Lossy a.1 < fromUtf8Lossy b.1 ∧
    ((∃ file ∈ filesOf a, file.1 ≠ fromUtf8Lossy a.1) → fromUtf8Lossy a.1 <+: fromUtf8Lossy b.1 →
      ∀ c ∈ (fromUtf8Lossy b.1)[(fromUtf8Lossy a.1).length]?, 0x2F < c)

instance : DecidableRel Before := fun a _ => inferInstanceAs (Decidable (filesOf a ≠ [] → _))

/-- All siblings of a tree are in order. -/
inductive Ordered : Value → Prop
  | dict {entries : List (Bytes × Value)}
      (siblings : entries.Pairwise fun a b => (a.1 ≤ b.1 → Before a b) ∧ (b.1 ≤ a.1 → Before b a))
      (below : ∀ entry ∈ entries, fromUtf8Lossy entry.1 ≠ [] → Ordered entry.2) : Ordered (.dict entries)
  | other {value : Value} (leaf : ∀ entries, value ≠ .dict entries) : Ordered value

section Walk

def under (path : Bytes) (file : Bytes × ℕ × Bytes) : Bytes × ℕ × Bytes :=
  (if path = [] then file.1 else if file.1 = [] then path else path ++ asciiBytes "/" ++ file.1, file.2)

theorem leafRoot_cases (value : Value) :
    (∀ path, leafRoot path value = []) ∨ ∃ data, ∀ path, leafRoot path value = [(path, data)] := by
  unfold leafRoot
  split
  · split
    · exact .inr ⟨_, fun _ => rfl⟩
    · exact .inl fun _ => rfl
  · exact .inl fun _ => rfl

theorem under_top : under [] = id := rfl

mutual

theorem traverseFileTree_under : ∀ (value : Value) (path : Bytes),
    traverseFileTree value path = (traverseFileTree value []).map (under path)
  | .dict entries, path => traverseEntries_under entries path
  | .int _, _ => rfl
  | .bytes _, _ => rfl
  | .list _, _ => rfl

theorem traverseEntries_under : ∀ (entries : List (Bytes × Value)) (path : Bytes),
    traverseEntries entries path = (traverseEntries entries []).map (under path)
  | [], _ => rfl
  | (key, value) :: rest, path => by
    simp only [traverseEntries, map_append, traverseEntries_under rest path]
    congr 1
    split_ifs with leaf top
    · rcases leafRoot_cases value with nothing | ⟨data, one⟩
      · simp only [nothing, map_nil]
      · simp +contextual [one, under]
    · rw [top, under_top, map_id]
    · rw [traverseFileTree_under value (path ++ _ ++ _), traverseFileTree_under value (fromUtf8Lossy key), List.map_map]
      refine map_congr_left fun file _ => ?_
      simp only [Function.comp_apply, under, leaf, top, if_false, append_eq_nil_iff, and_false]
      split_ifs <;> simp_all

end

theorem traverseEntries_eq (entries : List (Bytes × Value)) :
    nonempty (traverseEntries entries []) = entries.flatMap filesOf := by
  induction entries with
  | nil => rfl
  | cons entry rest ih =>
    rw [flatMap_cons, ← ih, filesOf]
    simp only [nonempty, traverseEntries, append_nil, filter_append]

def arranged (entry : Bytes × Value) : Bytes × Value :=
  (entry.1, if fromUtf8Lossy entry.1 = [] then entry.2 else inByteOrder entry.2)

theorem entriesInByteOrder_eq (entries : List (Bytes × Value)) : entriesInByteOrder entries = entries.map arranged := by
  induction entries with
  | nil => rfl
  | cons entry rest ih =>
    rw [map_cons, ← ih]
    rfl

section Entries

variable {key : Bytes} {value : Value}

theorem filesOf_leaf (leaf : fromUtf8Lossy key = []) : filesOf (key, value) = nonempty (leafRoot [] value) := by
  simp only [filesOf, traverseEntries, leaf, if_true, append_nil]

theorem filesOf_tree (named : fromUtf8Lossy key ≠ []) :
    filesOf (key, value) = (nonempty (traverseFileTree value [])).map (under (fromUtf8Lossy key)) := by
  simp only [filesOf, traverseEntries, named, if_true, if_false, append_nil, nonempty]
  rw [traverseFileTree_under, filter_map]
  rfl

end Entries

theorem path_of_filesOf {entry : Bytes × Value} {file : Bytes × ℕ × Bytes} (listed : file ∈ filesOf entry) :
    file.1 = fromUtf8Lossy entry.1 ∨ ∃ rest, file.1 = fromUtf8Lossy entry.1 ++ 0x2F :: rest := by
  obtain ⟨key, value⟩ := entry
  by_cases leaf : fromUtf8Lossy key = []
  · rw [filesOf_leaf leaf, nonempty, mem_filter] at listed
    left
    rw [leaf]
    rcases leafRoot_cases value with nothing | ⟨data, one⟩
    · simp [nothing] at listed
    · rw [one, mem_singleton] at listed
      rw [listed.1]
  · rw [filesOf_tree leaf] at listed
    obtain ⟨inner, -, rfl⟩ := mem_map.mp listed
    simp only [under, leaf, if_false]
    split_ifs
    · exact .inl rfl
    · exact .inr ⟨inner.1, by simp [asciiBytes]⟩

theorem Before.lt {a b : Bytes × Value} (before : Before a b) {first second : Bytes × ℕ × Bytes}
    (left : first ∈ filesOf a) (right : second ∈ filesOf b) : first.1 < second.1 := by
  obtain ⟨less, continues⟩ := before (ne_nil_of_mem left) (ne_nil_of_mem right)
  obtain ⟨back, same⟩ : ∃ back, second.1 = fromUtf8Lossy b.1 ++ back := by
    rcases path_of_filesOf right with same | ⟨rest, same⟩
    · exact ⟨[], by rw [same, append_nil]⟩
    · exact ⟨_, same⟩
  rw [same]
  rcases path_of_filesOf left with own | ⟨rest, own⟩
  · rw [own, ← append_nil (fromUtf8Lossy a.1)]
    refine append_lt_append less fun more longer => ?_
    cases more with
    | nil => exact absurd (longer ▸ less) (by simp)
    | cons c more => exact nil_lt_cons _ _
  · rw [own]
    refine append_lt_append less fun more longer => ?_
    cases more with
    | nil => exact absurd (longer ▸ less) (by simp)
    | cons c more =>
      have deep : ∃ file ∈ filesOf a, file.1 ≠ fromUtf8Lossy a.1 := ⟨first, left, by simp [own]⟩
      exact cons_lt_cons_iff.mpr (.inl (continues deep ⟨_, longer.symm⟩ c (by simp [longer])))

theorem under_lt {path : Bytes} {first second : Bytes × ℕ × Bytes} (less : first.1 < second.1) :
    (under path first).1 < (under path second).1 := by
  simp only [under]
  have more : second.1 ≠ [] := fun nothing => not_lt_nil _ (nothing ▸ less)
  split_ifs
  · exact less
  · rw [append_assoc]
    nth_rewrite 1 [← append_nil path]
    exact append_left_lt (nil_lt_cons _ _)
  · exact append_left_lt less

/-- The files of one entry come before those of another. -/
def Apart (a b : Bytes × Value) : Prop := ∀ first ∈ filesOf a, ∀ second ∈ filesOf b, first.1 < second.1

theorem Ordered.walk {value : Value} (ordered : Ordered value) :
    (nonempty (traverseFileTree (inByteOrder value) [])).Perm (nonempty (traverseFileTree value [])) ∧
      (nonempty (traverseFileTree (inByteOrder value) [])).Pairwise (·.1 < ·.1) := by
  induction ordered with
  | other leaf => 
    rename_i value
    cases value with
    | dict entries => exact absurd rfl (leaf entries)
    | _ => exact ⟨.refl _, .nil⟩
  | @dict entries siblings below ih =>
    have arrangedFiles (entry : Bytes × Value) (listed : entry ∈ entries) :
        (filesOf (arranged entry)).Perm (filesOf entry) ∧ (filesOf (arranged entry)).Pairwise (·.1 < ·.1) := by
      obtain ⟨key, value⟩ := entry
      by_cases leaf : fromUtf8Lossy key = []
      · rw [arranged, if_pos leaf]
        refine ⟨.refl _, ?_⟩
        rw [filesOf_leaf leaf]
        rcases leafRoot_cases value with nothing | ⟨data, one⟩
        · simp [nothing, nonempty]
        · simp only [one, nonempty]
          exact (pairwise_singleton _ _).filter _
      · obtain ⟨same, sorted⟩ := ih _ listed leaf
        rw [arranged, if_neg leaf, filesOf_tree leaf, filesOf_tree leaf]
        exact ⟨same.map _, pairwise_map.mpr (sorted.imp fun less => under_lt less)⟩
    have walk : nonempty (traverseFileTree (inByteOrder (.dict entries)) []) =
        ((entries.map arranged).insertionSort fun a b => a.1 ≤ b.1).flatMap filesOf := by
      rw [inByteOrder, traverseFileTree, traverseEntries_eq, entriesInByteOrder_eq]
    have sorted := perm_insertionSort (fun a b => a.1 ≤ b.1) (entries.map arranged)
    rw [walk, traverseFileTree, traverseEntries_eq]
    refine ⟨?_, pairwise_flatMap.mpr ⟨fun entry listed => ?_, ?_⟩⟩
    · refine (sorted.flatMap_right _).trans ?_
      rw [flatMap_map]
      exact Perm.flatMap_left _ fun entry listed => (arrangedFiles entry listed).1
    · obtain ⟨entry, among, rfl⟩ := mem_map.mp (sorted.mem_iff.mp listed)
      exact (arrangedFiles entry among).2
    · have apart : (entries.map arranged).Pairwise fun a b => (a.1 ≤ b.1 → Apart a b) ∧ (b.1 ≤ a.1 → Apart b a) := by
        refine pairwise_map.mpr (siblings.imp_of_mem fun {a b} first second before => ?_)
        have holds {a b : Bytes × Value} (first : a ∈ entries) (second : b ∈ entries) (before : Before a b) :
            Apart (arranged a) (arranged b) := fun x left y right => before.lt
          ((arrangedFiles a first).1.mem_iff.mp left) ((arrangedFiles b second).1.mem_iff.mp right)
        exact ⟨fun le => holds first second (before.1 le), fun le => holds second first (before.2 le)⟩
      have symmetric := (sorted.pairwise_iff fun {a b} both => both.symm).mpr apart
      exact ((pairwise_insertionSort (fun a b : Bytes × Value => a.1 ≤ b.1) _).and symmetric).imp
        fun both => both.2.1 both.1

end Walk

namespace Torrent

/-- The files in the order of a walk through the tree. -/
def depthFirst (torrent : Torrent) : List (Bytes × ℕ × Bytes) :=
  match torrent.info.fileTree with
  | some tree => traverseFileTree (inByteOrder tree) []
  | none => []

/-- The pieces go to the files in depth-first order if all siblings of the tree are in order. -/
theorem v2_files_depth_first (torrent : Torrent) (ordered : ∀ tree, torrent.info.fileTree = some tree → Ordered tree) :
    nonempty torrent.sortedV2Roots = nonempty torrent.depthFirst ∧
      (torrent.Space → Laid torrent.pieceLen torrent.sortedV2Roots torrent.calculateV2Mapping) := by
  refine ⟨?_, Space.laid⟩
  have sorted : (nonempty torrent.sortedV2Roots).Pairwise (·.1 ≤ ·.1) := (pairwise_insertionSort _ _).filter _
  have same : (nonempty torrent.sortedV2Roots).Perm (nonempty torrent.getV2Roots) :=
    (perm_insertionSort _ _).filter _
  obtain ⟨walk, increasing⟩ : (nonempty torrent.depthFirst).Perm (nonempty torrent.getV2Roots) ∧
      (nonempty torrent.depthFirst).Pairwise (·.1 < ·.1) := by
    unfold depthFirst getV2Roots
    cases found : torrent.info.fileTree with
    | none => exact ⟨.refl _, .nil⟩
    | some tree => exact (ordered tree found).walk
  have distinct : ((nonempty torrent.depthFirst).map (·.1)).Nodup :=
    pairwise_map.mpr (increasing.imp fun {a b} less (equal : a.1 = b.1) => List.lt_irrefl b.1 (equal ▸ less))
  refine Perm.eq_of_pairwise ?_ sorted (increasing.imp fun less => List.le_of_lt less) (same.trans walk.symm)
  intro a b first second below above
  exact inj_on_of_nodup_map distinct ((same.trans walk.symm).mem_iff.mp first) second (List.le_antisymm below above)

/-- A directory with one file, and a file beside it. -/
def branchingTorrent (name : String) : Torrent where
  info :=
    { pieceLength := 4
      pieces := []
      files := []
      name := "t"
      length := 0
      metaVersion := some 2
      fileTree := some (.dict [(asciiBytes name, leaf 2), (asciiBytes "a", .dict [(asciiBytes "b", leaf 1)])]) }
where
  leaf (root : UInt8) : Value :=
    .dict [([], .dict [(asciiBytes "length", .int 4), (asciiBytes "pieces root", .bytes [root])])]

/-- A name that continues that of the directory with a byte above the slash. -/
theorem v2_files_depth_first_above : nonempty (branchingTorrent "a0").sortedV2Roots =
    [(asciiBytes "a/b", 4, [1]), (asciiBytes "a0", 4, [2])] := by
  refine (v2_files_depth_first _ fun tree found => ?_).1.trans (by decide +kernel)
  cases found
  have leaf (root : UInt8) : Ordered (branchingTorrent.leaf root) :=
    .dict (pairwise_singleton _ _) (forall_mem_singleton.mpr fun named => absurd rfl named)
  refine .dict (by decide +kernel) (forall_mem_cons.mpr ⟨fun _ => leaf 2, forall_mem_singleton.mpr fun _ => ?_⟩)
  exact .dict (pairwise_singleton _ _) (forall_mem_singleton.mpr fun _ => leaf 1)

/-- A name that continues that of the directory with a byte below the slash. -/
theorem v2_files_out_of_order : (branchingTorrent "a-").Space ∧
    nonempty (branchingTorrent "a-").sortedV2Roots ≠ nonempty (branchingTorrent "a-").depthFirst := by
  refine ⟨⟨rfl, ?_, ?_, ?_⟩, ?_⟩ <;> decide +kernel

end Torrent

end Superseedr
