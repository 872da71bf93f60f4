import Superseedr.Model.Parser
import Superseedr.Soundness.PieceSpace

/-! # The file layout of a version 2 torrent

The parser, the piece mapping and the storage layout walk over the same sorted files, each with counters of its
own. Here the files are placed once: every file has a first piece, which is the number of pieces of the files
before it. The layout of the completed metadata and the piece mapping both follow this placement.
-/

namespace Superseedr

open List

variable {layout : MultiFileInfo} {p position : ℕ} {roots : List V2RootInfo} {files : List InfoFile}

theorem divCeil_mul_eq_add {length pieceLen : ℕ} (positive : 0 < pieceLen) :
    divCeil length pieceLen * pieceLen =
      length + if length % pieceLen > 0 then pieceLen - length % pieceLen else 0 := by
  have split := Nat.div_add_mod length pieceLen
  have below := Nat.mod_lt length positive
  unfold divCeil
  split_ifs with tail
  · have quotient : (length + pieceLen - 1) / pieceLen = length / pieceLen + 1 := by
      have sum : length + pieceLen - 1 = (length % pieceLen - 1) + pieceLen * (length / pieceLen + 1) := by
        rw [Nat.mul_succ]
        omega
      rw [sum, Nat.add_mul_div_left _ _ positive, Nat.div_eq_of_lt (by omega), Nat.zero_add]
    rw [quotient, Nat.succ_mul, Nat.mul_comm]
    omega
  have quotient : (length + pieceLen - 1) / pieceLen = length / pieceLen := by
    have sum : length + pieceLen - 1 = (pieceLen - 1) + pieceLen * (length / pieceLen) := by omega
    rw [sum, Nat.add_mul_div_left _ _ positive, Nat.div_eq_of_lt (by omega), Nat.zero_add]
  rw [quotient, Nat.mul_comm]
  omega

theorem divCeil_pos {length pieceLen : ℕ} (nonempty : 0 < length) (positive : 0 < pieceLen) :
    0 < divCeil length pieceLen := Nat.div_pos (by omega) positive

namespace Torrent

/-- A file of the tree with its number among the files, its first piece and its number in the layout. -/
structure Placement where
  file : Bytes × ℕ × Bytes
  index : ℕ
  first : ℕ
  slot : ℕ

namespace Placement

variable (rootDir : String) (filePriorities : ℕ → Option FilePriority) (pieceLen : ℕ)

def length (x : Placement) : ℕ := x.file.2.1

def pieces (x : Placement) : ℕ := divCeil x.length pieceLen

/-- The entry of the file in the layout. -/
def info (x : Placement) : FileInfo where
  path := (pathComponents x.file.1).foldl pathPush rootDir
  length := x.length
  globalStartOffset := x.first * pieceLen
  isPadding := false
  isSkipped := filePriorities x.slot = some .skip

def padding (x : Placement) : List FileInfo :=
  if x.length % pieceLen > 0 then
    [{ path := [".pad", toString (pieceLen - x.length % pieceLen)].foldl pathPush rootDir
       length := pieceLen - x.length % pieceLen
       globalStartOffset := x.first * pieceLen + x.length
       isPadding := true
       isSkipped := filePriorities (x.slot + 1) = some .skip }]
  else []

def entries (x : Placement) : List FileInfo :=
  x.info rootDir filePriorities pieceLen :: x.padding rootDir filePriorities pieceLen

def root (x : Placement) : V2RootInfo := ⟨x.first * pieceLen, x.length, x.file.2.2, u32 x.index⟩

end Placement

open Placement

/-- Place files behind one another. -/
def placements (pieceLen : ℕ) : List (Bytes × ℕ × Bytes) → ℕ → ℕ → ℕ → List Placement
  | [], _, _, _ => []
  | file :: rest, index, first, slot =>
    ⟨file, index, first, slot⟩ ::
      placements pieceLen rest (index + 1) (first + divCeil file.2.1 pieceLen)
        (slot + (polyfillFile pieceLen file).length)

section Placing

variable {pieceLen : ℕ} {files : List (Bytes × ℕ × Bytes)} {index first slot : ℕ} {x : Placement}

theorem map_file_placements : (placements pieceLen files index first slot).map file = files := by
  induction files generalizing index first slot with
  | nil => rfl
  | cons file rest ih => rw [placements, map_cons, ih]

theorem map_index_placements :
    (placements pieceLen files index first slot).map (fun x => (x.file, x.index)) = files.zipIdx index := by
  induction files generalizing index first slot with
  | nil => rfl
  | cons file rest ih => rw [placements, map_cons, ih, zipIdx_cons]

theorem placements_bounds (placed : x ∈ placements pieceLen files index first slot) :
    first ≤ x.first ∧ x.first + x.pieces pieceLen ≤ first + filePieces pieceLen files := by
  induction files generalizing index first slot with
  | nil => cases placed
  | cons file rest ih =>
    rw [filePieces_cons]
    rcases mem_cons.mp placed with rfl | later
    · refine ⟨le_rfl, ?_⟩
      simp only [Placement.pieces, Placement.length]
      omega
    · obtain ⟨after, inside⟩ := ih later
      omega

theorem exists_placement (behind : first ≤ p) (inside : p < first + filePieces pieceLen files) :
    ∃ x ∈ placements pieceLen files index first slot, x.first ≤ p ∧ p < x.first + x.pieces pieceLen := by
  induction files generalizing index first slot with
  | nil =>
    simp only [filePieces, map_nil, sum_nil] at inside
    omega
  | cons file rest ih =>
    rw [filePieces_cons] at inside
    by_cases here : p < first + divCeil file.2.1 pieceLen
    · exact ⟨_, .head _, behind, here⟩
    · obtain ⟨x, placed, within⟩ := @ih (index + 1) (first + divCeil file.2.1 pieceLen)
        (slot + (polyfillFile pieceLen file).length) (by omega) (by omega)
      exact ⟨x, .tail _ placed, within⟩

section

variable (rootDir : String) (filePriorities : ℕ → Option FilePriority)

theorem addFile_eq {start length : ℕ} (file : InfoFile) (idx : ℕ) (total : layout.totalSize = start)
    (isLength : asU64 file.length = length) (fits : start + length < 2 ^ 64) :
    layout.addFile rootDir filePriorities (file, idx) =
      ⟨layout.files ++ [⟨file.path.foldl pathPush rootDir, length, start,
        file.attr.any fun attr => attr.toList.contains 'p', filePriorities idx = some .skip⟩], start + length⟩ := by
  simp only [MultiFileInfo.addFile, total, isLength, u64_of_lt fits]

theorem foldl_addFile_polyfillFile (positive : 0 < pieceLen) (total : layout.totalSize = x.first * pieceLen)
    (bytes : (x.first + x.pieces pieceLen) * pieceLen < 2 ^ 64) :
    ((polyfillFile pieceLen x.file).zipIdx x.slot).foldl (MultiFileInfo.addFile rootDir filePriorities) layout =
      ⟨layout.files ++ x.entries rootDir filePriorities pieceLen, (x.first + x.pieces pieceLen) * pieceLen⟩ := by
  obtain ⟨⟨path, length, rootHash⟩, index, first, slot⟩ := x
  have filled := @divCeil_mul_eq_add length pieceLen positive
  simp only [Placement.pieces, Placement.length, Nat.add_mul] at total bytes ⊢
  have lengthBack : asU64 (i64 length) = length := asU64_i64 (by omega)
  by_cases tail : length % pieceLen > 0
  · rw [if_pos tail] at filled
    rw [filled] at bytes ⊢
    have paddingBack : asU64 (i64 (pieceLen - length % pieceLen : ℕ)) = pieceLen - length % pieceLen :=
      asU64_i64 (by omega)
    have file := addFile_eq rootDir filePriorities { length := i64 length, path := pathComponents path } slot total
      lengthBack (by omega)
    have size := congrArg MultiFileInfo.totalSize file
    dsimp only at size
    have padding := addFile_eq rootDir filePriorities
      { length := i64 (pieceLen - length % pieceLen : ℕ), path := [".pad", toString (pieceLen - length % pieceLen)],
        attr := some "p" } (slot + 1) size paddingBack (by omega)
    rw [polyfillFile, if_pos ⟨positive, tail⟩, zipIdx_cons, zipIdx_cons, zipIdx_nil, foldl_cons,
      foldl_cons, foldl_nil, padding, file, Placement.entries, Placement.padding, Placement.length,
      if_pos tail, append_assoc, Nat.add_assoc]
    rfl
  · rw [if_neg tail] at filled
    rw [filled] at bytes ⊢
    have file := addFile_eq rootDir filePriorities { length := i64 length, path := pathComponents path } slot total
      lengthBack (by omega)
    rw [polyfillFile, if_neg (fun both => tail both.2), zipIdx_cons, zipIdx_nil, foldl_cons,
      foldl_nil, file, Placement.entries, Placement.padding, Placement.length, if_neg tail]
    rfl

theorem foldl_addFile_polyfill (positive : 0 < pieceLen) (total : layout.totalSize = first * pieceLen)
    (bytes : (first + filePieces pieceLen files) * pieceLen < 2 ^ 64) :
    ((files.flatMap (polyfillFile pieceLen)).zipIdx slot).foldl (MultiFileInfo.addFile rootDir filePriorities) layout =
      ⟨layout.files ++ (placements pieceLen files index first slot).flatMap
        (entries rootDir filePriorities pieceLen), (first + filePieces pieceLen files) * pieceLen⟩ := by
  induction files generalizing index first slot layout with
  | nil =>
    obtain ⟨done, size⟩ := layout
    simp only at total
    simp [placements, filePieces, total]
  | cons file rest ih =>
    rw [filePieces_cons, ← Nat.add_assoc] at bytes ⊢
    have within := lt_of_le_of_lt (Nat.mul_le_mul_right _ (Nat.le_add_right _ _)) bytes
    rw [flatMap_cons, zipIdx_append, foldl_append]
    have head := @foldl_addFile_polyfillFile layout pieceLen ⟨file, index, first, slot⟩ rootDir filePriorities positive
      total within
    rw [head, ih rfl bytes, placements, flatMap_cons, append_assoc]

end

section

variable {mapping : V2Mapping} (positive : 0 < pieceLen) (count : mapping.pieceCount = first)
  (pieces : first + filePieces pieceLen files < 2 ^ 32)
  (bytes : (first + filePieces pieceLen files) * pieceLen < 2 ^ 64)
include positive count pieces bytes

theorem foldl_mapFile_before (before : p < first) :
    ((files.zipIdx index).foldl (mapFile pieceLen) mapping).pieceToRoots p = mapping.pieceToRoots p := by
  induction files generalizing index first mapping with
  | nil => rfl
  | cons file rest ih =>
    obtain ⟨path, length, rootHash⟩ := file
    simp only [filePieces_cons, ← Nat.add_assoc] at pieces bytes
    have within := Nat.mul_le_mul_right pieceLen (Nat.le_add_right (first + divCeil length pieceLen)
      (filePieces pieceLen rest))
    have beforeRest : p < first + divCeil length pieceLen := by omega
    rw [zipIdx_cons, foldl_cons, mapFile_eq positive path rootHash index count (by omega) (by omega),
      ih rfl pieces bytes beforeRest]
    exact if_neg (by omega)

theorem foldl_mapFile_placed (placed : x ∈ placements pieceLen files index first slot) (behind : x.first ≤ p)
    (inside : p < x.first + x.pieces pieceLen) :
    ((files.zipIdx index).foldl (mapFile pieceLen) mapping).pieceToRoots p =
      some ((mapping.pieceToRoots p).getD [] ++ [x.root pieceLen]) := by
  induction files generalizing index first slot mapping with
  | nil => cases placed
  | cons file rest ih =>
    obtain ⟨path, length, rootHash⟩ := file
    simp only [filePieces_cons, ← Nat.add_assoc] at pieces bytes
    have within := Nat.mul_le_mul_right pieceLen (Nat.le_add_right (first + divCeil length pieceLen)
      (filePieces pieceLen rest))
    rw [zipIdx_cons, foldl_cons, mapFile_eq positive path rootHash index count (by omega) (by omega)]
    rcases mem_cons.mp placed with rfl | later
    · rw [foldl_mapFile_before positive rfl pieces bytes inside]
      exact if_pos ⟨behind, inside⟩
    have after := (placements_bounds later).1
    dsimp only at after
    rw [ih rfl pieces bytes later]
    dsimp only
    rw [if_neg (by omega)]

end

theorem index_le_of_mem (placed : x ∈ placements pieceLen files index first slot) : index ≤ x.index := by
  induction files generalizing index first slot with
  | nil => cases placed
  | cons file rest ih =>
    rcases mem_cons.mp placed with rfl | later
    · exact le_rfl
    · have after := ih later
      omega

section

variable {y : Placement} (first_mem : x ∈ placements pieceLen files index first slot)
  (second_mem : y ∈ placements pieceLen files index first slot)
include first_mem second_mem

theorem placements_ordered : x = y ∨
      (x.index < y.index ∧ x.first + x.pieces pieceLen ≤ y.first) ∨
      (y.index < x.index ∧ y.first + y.pieces pieceLen ≤ x.first) := by
  induction files generalizing index first slot with
  | nil => cases first_mem
  | cons file rest ih =>
    rcases mem_cons.mp first_mem with rfl | firstLater <;> rcases mem_cons.mp second_mem with rfl | secondLater
    · exact .inl rfl
    · exact .inr (.inl ⟨index_le_of_mem secondLater, (placements_bounds secondLater).1⟩)
    · exact .inr (.inr ⟨index_le_of_mem firstLater, (placements_bounds firstLater).1⟩)
    · exact ih firstLater secondLater

theorem placements_injective (same : x.index = y.index) : x = y := by
  rcases placements_ordered first_mem second_mem with equal | before | after
  · exact equal
  · omega
  · omega

theorem placements_disjoint (behind : x.first ≤ p) (inside : p < x.first + x.pieces pieceLen) (behind' : y.first ≤ p)
    (inside' : p < y.first + y.pieces pieceLen) : x = y := by
  rcases placements_ordered first_mem second_mem with equal | before | after
  · exact equal
  · omega
  · omega

end

theorem index_le_first (positive : 0 < pieceLen) (nonempty : ∀ file ∈ files, 0 < file.2.1)
    (placed : x ∈ placements pieceLen files index first slot) : x.index + first ≤ x.first + index := by
  induction files generalizing index first slot with
  | nil => cases placed
  | cons file rest ih =>
    rcases mem_cons.mp placed with rfl | later
    · exact Nat.le_of_eq (Nat.add_comm ..)
    · have after := ih (fun other member => nonempty other (.tail _ member)) later
      have pieces := divCeil_pos (nonempty file (.head _)) positive
      omega

end Placing

/-- The files of the tree in their places. -/
def placed (torrent : Torrent) : List Placement := placements torrent.pieceLen torrent.sortedV2Roots 0 0 0

variable {torrent : Torrent} {x : Placement}

theorem file_mem_of_placed (placed : x ∈ torrent.placed) : x.file ∈ torrent.sortedV2Roots := by
  have member := mem_map_of_mem (f := file) placed
  rwa [Torrent.placed, map_file_placements] at member

theorem Space.pieceToRoots_placed (space : torrent.Space) (placed : x ∈ torrent.placed) (behind : x.first ≤ p)
    (inside : p < x.first + x.pieces torrent.pieceLen) :
    torrent.calculateV2Mapping.pieceToRoots p = some [x.root torrent.pieceLen] := by
  have pieces := space.pieces
  have bytes := space.bytes
  rw [← Nat.zero_add (filePieces _ _)] at pieces bytes
  rw [calculateV2Mapping, if_pos ⟨space.version, space.positive⟩,
    foldl_mapFile_placed space.positive rfl pieces bytes placed behind inside]
  rfl

theorem Space.placed_of_mapped (space : torrent.Space)
    (mapped : torrent.calculateV2Mapping.pieceToRoots p = some roots) :
    ∃ x ∈ torrent.placed, x.first ≤ p ∧ p < x.first + x.pieces torrent.pieceLen ∧
      roots = [x.root torrent.pieceLen] := by
  obtain ⟨inside, -⟩ := space.single mapped
  obtain ⟨x, placed, behind, within⟩ := @exists_placement p torrent.pieceLen torrent.sortedV2Roots 0 0 0
    (Nat.zero_le p) (by omega)
  refine ⟨x, placed, behind, within, ?_⟩
  rw [space.pieceToRoots_placed placed behind within] at mapped
  exact (Option.some.inj mapped).symm

theorem Space.layout_eq_of_files (space : torrent.Space) (some : torrent.sortedV2Roots ≠ [])
    (listed : files = torrent.sortedV2Roots.flatMap (polyfillFile torrent.pieceLen)) (rootDir name : String)
    (length : ℕ) (filePriorities : ℕ → Option FilePriority) :
    MultiFileInfo.new rootDir name files length filePriorities =
      ⟨torrent.placed.flatMap (entries rootDir filePriorities torrent.pieceLen),
        filePieces torrent.pieceLen torrent.sortedV2Roots * torrent.pieceLen⟩ := by
  have nonempty : torrent.sortedV2Roots.flatMap (polyfillFile torrent.pieceLen) ≠ [] := by
    obtain ⟨file, rest, isCons⟩ := exists_cons_of_ne_nil some
    simp [isCons, polyfillFile]
  have bytes := space.bytes
  rw [← Nat.zero_add (filePieces _ _)] at bytes
  rw [MultiFileInfo.new, listed, if_pos nonempty,
    foldl_addFile_polyfill rootDir filePriorities space.positive (Nat.zero_mul _).symm bytes, Nat.zero_add]
  rfl

theorem polyfillV2Files_files (pure : torrent.info.files = []) :
    (polyfillV2Files torrent).info.files = torrent.sortedV2Roots.flatMap (polyfillFile torrent.pieceLen) := by
  rw [polyfillV2Files]
  split_ifs with tree
  · rfl
  · have none : torrent.info.fileTree = none := by simpa [pure] using tree
    simp [pure, sortedV2Roots, getV2Roots, none]

end Torrent

/-- The byte of the payload lies in the file. -/
def FileInfo.Holds (file : FileInfo) (position : ℕ) : Prop :=
  file.globalStartOffset ≤ position ∧ position < file.globalStartOffset + file.length

namespace Torrent

/-- A file of the layout is where the piece mapping expects a file of the tree, given with its number. -/
structure Agrees (torrent : Torrent) (rootDir : String) (layout : MultiFileInfo) (info : FileInfo)
    (entry : (Bytes × ℕ × Bytes) × ℕ) : Prop where
  path : info.path = (pathComponents entry.1.1).foldl pathPush rootDir
  length : info.length = entry.1.2.1
  aligned : torrent.pieceLen ∣ info.globalStartOffset
  mapped : ∃ p roots, torrent.calculateV2Mapping.pieceToRoots p = some roots ∧
    ∃ root ∈ roots, root.fileIndex = entry.2
  recorded : ∀ p roots root, torrent.calculateV2Mapping.pieceToRoots p = some roots → root ∈ roots →
    root.fileIndex = entry.2 → root.fileOffset = info.globalStartOffset
  covered : ∀ p roots root, torrent.calculateV2Mapping.pieceToRoots p = some roots → root ∈ roots →
    root.fileIndex = entry.2 → ∀ position, p * torrent.pieceLen ≤ position →
      position < (p + 1) * torrent.pieceLen → info.Holds position ∨ ∃ padding ∈ layout.files,
        padding.isPadding = true ∧ padding.globalStartOffset = info.globalStartOffset + info.length ∧
          padding.Holds position

section Agreement

variable {torrent : Torrent} {x : Placement} {root : V2RootInfo} {rootDir : String}
  {filePriorities : ℕ → Option FilePriority} {pieceLen : ℕ}

theorem Placement.holds_of_piece (positive : 0 < pieceLen) (behind : x.first ≤ p)
    (inside : p < x.first + x.pieces pieceLen) (from_start : p * pieceLen ≤ position)
    (to_end : position < (p + 1) * pieceLen) :
    (x.info rootDir filePriorities pieceLen).Holds position ∨ ∃ padding ∈ x.padding rootDir filePriorities pieceLen,
      padding.isPadding = true ∧ padding.globalStartOffset = x.first * pieceLen + x.length ∧
        padding.Holds position := by
  have filled : x.pieces pieceLen * pieceLen = _ := divCeil_mul_eq_add positive
  have after : x.first * pieceLen ≤ p * pieceLen := Nat.mul_le_mul_right _ behind
  have before : (p + 1) * pieceLen ≤ (x.first + x.pieces pieceLen) * pieceLen := Nat.mul_le_mul_right _ inside
  rw [Nat.add_mul x.first] at before
  by_cases within : position < x.first * pieceLen + x.length
  · left
    exact ⟨le_trans after from_start, within⟩
  right
  by_cases tail : x.length % pieceLen > 0
  · rw [if_pos tail] at filled
    rw [padding, if_pos tail]
    refine ⟨_, mem_singleton_self _, rfl, rfl, ?_, ?_⟩
    · exact Nat.le_of_not_lt within
    · dsimp only
      omega
  · rw [if_neg tail] at filled
    omega

/-- The files of the layout that are not padding. -/
theorem filter_entries (places : List Placement) :
    (places.flatMap (Placement.entries rootDir filePriorities pieceLen)).filter (fun file => !file.isPadding) =
      places.map (Placement.info rootDir filePriorities pieceLen) := by
  induction places with
  | nil => rfl
  | cons x rest ih =>
    have padding : (x.padding rootDir filePriorities pieceLen).filter (fun file => !file.isPadding) = [] := by
      unfold Placement.padding
      split <;> rfl
    rw [flatMap_cons, filter_append, ih, Placement.entries, filter_cons_of_pos (by rfl), padding,
      map_cons, singleton_append]

section

variable (space : torrent.Space) (nonempty : ∀ file ∈ torrent.sortedV2Roots, 0 < file.2.1)
  (placed : x ∈ torrent.placed)
include space nonempty placed

theorem Space.index_lt : x.index < 2 ^ 32 := by
  have counted := index_le_first space.positive nonempty placed
  have total := (placements_bounds placed).2
  have pieces := space.pieces
  omega

theorem Space.placed_of_fileIndex (mapped : torrent.calculateV2Mapping.pieceToRoots p = some roots)
    (member : root ∈ roots) (isIndex : root.fileIndex = x.index) :
    x.first ≤ p ∧ p < x.first + x.pieces torrent.pieceLen ∧ root = x.root torrent.pieceLen := by
  obtain ⟨y, other, behind, inside, rfl⟩ := space.placed_of_mapped mapped
  obtain rfl := mem_singleton.mp member
  have same : y = x :=
    placements_injective other placed ((u32_of_lt (space.index_lt nonempty other)).symm.trans isIndex)
  subst same
  exact ⟨behind, inside, rfl⟩

theorem Space.agrees_of_placed
    (files : layout.files = torrent.placed.flatMap (Placement.entries rootDir filePriorities torrent.pieceLen)) :
    torrent.Agrees rootDir layout (x.info rootDir filePriorities torrent.pieceLen) (x.file, x.index) := by
  refine ⟨rfl, rfl, Nat.dvd_mul_left _ _, ?_, ?_, ?_⟩
  · have pieces : 0 < x.pieces torrent.pieceLen :=
      divCeil_pos (nonempty x.file (file_mem_of_placed placed)) space.positive
    refine ⟨x.first, _, space.pieceToRoots_placed placed le_rfl (by omega), x.root torrent.pieceLen, ?_, ?_⟩
    · exact mem_singleton_self _
    · exact u32_of_lt (space.index_lt nonempty placed)
  · intro p roots root mapped member isIndex
    obtain ⟨-, -, rfl⟩ := space.placed_of_fileIndex nonempty placed mapped member isIndex
    rfl
  · intro p roots root mapped member isIndex position from_start to_end
    obtain ⟨behind, inside, -⟩ := space.placed_of_fileIndex nonempty placed mapped member isIndex
    rcases Placement.holds_of_piece space.positive behind inside from_start to_end with here | ⟨padding, isEntry, rest⟩
    · exact .inl here
    · refine .inr ⟨padding, ?_, rest⟩
      rw [files]
      exact mem_flatMap.mpr ⟨x, placed, .tail _ isEntry⟩

end

/-- The parser's list of files, laid out by the storage, agrees with the piece mapping on every file. -/
theorem layout_agrees (space : torrent.Space) (pure : torrent.info.files = [])
    (nonempty : ∀ file ∈ torrent.sortedV2Roots, 0 < file.2.1) (rootDir name : String) (length : ℕ)
    (filePriorities : ℕ → Option FilePriority) (layout : MultiFileInfo)
    (built : layout = MultiFileInfo.new rootDir name (polyfillV2Files torrent).info.files length filePriorities) :
    torrent.sortedV2Roots = [] ∨
      List.Forall₂ (torrent.Agrees rootDir layout) (layout.files.filter fun file => !file.isPadding)
        torrent.sortedV2Roots.zipIdx := by
  by_cases some : torrent.sortedV2Roots = []
  · exact .inl some
  right
  rw [space.layout_eq_of_files some (polyfillV2Files_files pure)] at built
  have files := congrArg MultiFileInfo.files built
  have numbered : torrent.placed.map (fun x => (x.file, x.index)) = torrent.sortedV2Roots.zipIdx :=
    map_index_placements
  rw [files, filter_entries, ← numbered, forall₂_map_left_iff, forall₂_map_right_iff]
  apply forall₂_same.mpr
  intro x placed
  exact space.agrees_of_placed nonempty placed files

end Agreement

def twoFileTorrent (pieceLength first second : ℤ) : Torrent where
  info :=
    { pieceLength
      pieces := []
      files := []
      name := "t"
      length := 0
      metaVersion := some 2
      fileTree := some (.dict [
        (asciiBytes "a",
          .dict [([], .dict [(asciiBytes "length", .int first), (asciiBytes "pieces root", .bytes [1])])]),
        (asciiBytes "b",
          .dict [([], .dict [(asciiBytes "length", .int second), (asciiBytes "pieces root", .bytes [2])])])]) }

/-- Behind 2^32 pieces of a first file, the second file is recorded for the first piece, far from its bytes. -/
theorem layout_disagrees_beyond_u32 : ∃ torrent layout, torrent.info.metaVersion = some 2 ∧ 0 < torrent.pieceLen ∧
    torrent.info.pieces = [] ∧ torrent.info.files = [] ∧ (∀ file ∈ torrent.sortedV2Roots, 0 < file.2.1) ∧
    layout = MultiFileInfo.new "d" "t" (polyfillV2Files torrent).info.files 0 (fun _ => none) ∧
    ¬(torrent.sortedV2Roots = [] ∨ List.Forall₂ (torrent.Agrees "d" layout)
      (layout.files.filter fun file => !file.isPadding) torrent.sortedV2Roots.zipIdx) := by
  have roots : (twoFileTorrent 16384 (2 ^ 46) 1).sortedV2Roots = [([97], 2 ^ 46, [1]), ([98], 1, [2])] := by
    decide +kernel
  have mapped : (twoFileTorrent 16384 (2 ^ 46) 1).calculateV2Mapping.pieceToRoots 0 =
      some [⟨2 ^ 46, 1, [2], 1⟩] := by decide +kernel
  have starts : ((MultiFileInfo.new "d" "t" (polyfillV2Files (twoFileTorrent 16384 (2 ^ 46) 1)).info.files 0
      (fun _ => none)).files.filter fun file => !file.isPadding).map FileInfo.globalStartOffset = [0, 2 ^ 46] := by
    decide +kernel
  refine ⟨twoFileTorrent 16384 (2 ^ 46) 1, _, rfl, by decide, rfl, rfl, ?_, rfl, ?_⟩
  · rw [roots]
    decide
  rw [roots]
  rintro (none | agree)
  · cases none
  generalize MultiFileInfo.new "d" "t" _ 0 (fun _ => none) = layout at agree starts
  generalize layout.files.filter (fun file => !file.isPadding) = files at agree starts
  cases agree with
  | cons _ rest =>
    cases rest with
    | cons second _ =>
      simp only [map_cons, cons.injEq] at starts
      rcases second.covered 0 _ _ mapped (.head _) rfl 0 (Nat.zero_le _) (by decide)
        with here | ⟨padding, -, -, behind, here⟩
      · have start := here.1
        omega
      · have start := here.1
        omega

/-- Two files of three and five bytes in pieces of four bytes. -/
theorem layout_agrees_small : (twoFileTorrent 4 3 5).sortedV2Roots = [] ∨
    List.Forall₂ ((twoFileTorrent 4 3 5).Agrees "d"
      (MultiFileInfo.new "d" "t" (polyfillV2Files (twoFileTorrent 4 3 5)).info.files 0 fun _ => none))
      ((MultiFileInfo.new "d" "t" (polyfillV2Files (twoFileTorrent 4 3 5)).info.files 0 fun _ => none).files.filter
        fun file => !file.isPadding) (twoFileTorrent 4 3 5).sortedV2Roots.zipIdx :=
  layout_agrees ⟨rfl, by decide, by decide +kernel, by decide +kernel⟩ rfl (by decide +kernel) "d" "t" 0 (fun _ => none)
    _ rfl

end Torrent

end Superseedr
