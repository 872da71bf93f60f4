import Superseedr.Soundness.Geometry

/-! # The piece space of a version 2 torrent

Files take up whole pieces, one after another in the order of their paths. As long as there are fewer than
2^32 pieces and 2^64 bytes nothing wraps around: every piece belongs to exactly one file, and its index
inside the file is its index in the torrent less the first piece of the file.
-/

namespace Superseedr

variable {offset p n length : ℕ} {root : V2RootInfo} {more : List (Bytes × ℕ × Bytes)} {roots : List V2RootInfo}

/-- A piece lies in the file that a root describes. -/
structure V2RootInfo.Covers (root : V2RootInfo) (pieceLen p : ℕ) : Prop where
  nonempty : 0 < root.length
  aligned : root.fileOffset = root.fileOffset / pieceLen * pieceLen
  first : root.fileOffset / pieceLen ≤ p
  last : p < root.fileOffset / pieceLen + divCeil root.length pieceLen

namespace V2RootInfo.Covers

variable {pieceLen : ℕ}

theorem fileOffset_le (covers : root.Covers pieceLen p) : root.fileOffset ≤ p * pieceLen :=
  covers.aligned ▸ Nat.mul_le_mul_right _ covers.first

theorem relative (covers : root.Covers pieceLen p) (inside : offset < pieceLen) :
    (p * pieceLen + offset - root.fileOffset) / pieceLen = p - root.fileOffset / pieceLen := by
  have split : p * pieceLen = root.fileOffset + (p - root.fileOffset / pieceLen) * pieceLen := by
    conv_rhs => lhs; rw [covers.aligned]
    rw [← Nat.add_mul, Nat.add_sub_cancel' covers.first]
  have order : p * pieceLen + offset - root.fileOffset = offset + (p - root.fileOffset / pieceLen) * pieceLen := by
    omega
  rw [order, Nat.add_mul_div_right _ _ (by omega), Nat.div_eq_of_lt inside, Nat.zero_add]

end V2RootInfo.Covers

namespace Torrent

def filePieces (pieceLen : ℕ) (files : List (Bytes × ℕ × Bytes)) : ℕ :=
  (files.map fun file => divCeil file.2.1 pieceLen).sum

theorem filePieces_cons (pieceLen : ℕ) (file : Bytes × ℕ × Bytes) (rest : List (Bytes × ℕ × Bytes)) :
    filePieces pieceLen (file :: rest) = divCeil file.2.1 pieceLen + filePieces pieceLen rest := rfl

theorem filePieces_append (pieceLen : ℕ) (files more : List (Bytes × ℕ × Bytes)) :
    filePieces pieceLen (files ++ more) = filePieces pieceLen files + filePieces pieceLen more := by
  simp [filePieces]

/-- Version 2 metadata whose pieces are counted by 32 bits and whose bytes by 64 bits. -/
structure Space (torrent : Torrent) : Prop where
  version : torrent.info.metaVersion = some 2
  positive : 0 < torrent.pieceLen
  pieces : filePieces torrent.pieceLen torrent.sortedV2Roots < 2 ^ 32
  bytes : filePieces torrent.pieceLen torrent.sortedV2Roots * torrent.pieceLen < 2 ^ 64

structure Placed (pieceLen : ℕ) (files : List (Bytes × ℕ × Bytes)) (p : ℕ) (root : V2RootInfo) : Prop where
  covers : root.Covers pieceLen p
  listed : ∃ before path after, files = before ++ (path, root.length, root.rootHash) :: after ∧
    root.fileOffset / pieceLen = filePieces pieceLen before

structure Laid (pieceLen : ℕ) (files : List (Bytes × ℕ × Bytes)) (mapping : V2Mapping) : Prop where
  count : mapping.pieceCount = filePieces pieceLen files
  single : ∀ p < filePieces pieceLen files, ∃ root, mapping.pieceToRoots p = some [root] ∧
    Placed pieceLen files p root
  beyond : ∀ p, filePieces pieceLen files ≤ p → mapping.pieceToRoots p = none

variable {pieceLen : ℕ} {files : List (Bytes × ℕ × Bytes)} {mapping : V2Mapping}

theorem Placed.append (placed : Placed pieceLen files p root) (more : List (Bytes × ℕ × Bytes)) :
    Placed pieceLen (files ++ more) p root := by
  obtain ⟨before, path, after, rfl, start⟩ := placed.listed
  exact ⟨placed.covers, before, path, after ++ more, by simp, start⟩

theorem divCeil_zero (positive : 0 < pieceLen) : divCeil 0 pieceLen = 0 := by
  rw [divCeil]
  exact Nat.div_eq_of_lt (by omega)

theorem mapFile_eq (positive : 0 < pieceLen) (path rootHash : Bytes) (index : ℕ) (count : mapping.pieceCount = n)
    (pieces : n + divCeil length pieceLen < 2 ^ 32) (bytes : (n + divCeil length pieceLen) * pieceLen < 2 ^ 64) :
    mapFile pieceLen mapping ((path, length, rootHash), index) =
      ⟨fun p => if n ≤ p ∧ p < n + divCeil length pieceLen then
          some ((mapping.pieceToRoots p).getD [] ++ [⟨n * pieceLen, length, rootHash, u32 index⟩])
        else mapping.pieceToRoots p, n + divCeil length pieceLen⟩ := by
  rw [Torrent.mapFile]
  rcases Nat.eq_zero_or_pos length with rfl | nonempty
  · have none : ∀ p, ¬(n ≤ p ∧ p < n) := by omega
    simp only [divCeil_zero positive, Nat.add_zero, none, if_false, if_neg (Nat.lt_irrefl 0)]
    rw [← count]
  have offset : n * pieceLen ≤ (n + divCeil length pieceLen) * pieceLen := Nat.mul_le_mul_right _ (by omega)
  have unwrappedOffset : u64 (n * pieceLen) = n * pieceLen := u64_of_lt (by omega)
  have unwrappedStart : u32 n = n := u32_of_lt (by omega)
  have unwrappedCount : u64 (n + divCeil length pieceLen) = n + divCeil length pieceLen := u64_of_lt (by omega)
  have unwrappedEnd : u32 (n + divCeil length pieceLen) = n + divCeil length pieceLen := u32_of_lt pieces
  rw [if_pos nonempty, count]
  simp only [unwrappedOffset, unwrappedStart, unwrappedCount, unwrappedEnd]

theorem Laid.mapFile (laid : Laid pieceLen files mapping) (positive : 0 < pieceLen) (file : Bytes × ℕ × Bytes)
    (index : ℕ) (pieces : filePieces pieceLen (files ++ [file]) < 2 ^ 32)
    (bytes : filePieces pieceLen (files ++ [file]) * pieceLen < 2 ^ 64) :
    Laid pieceLen (files ++ [file]) (mapFile pieceLen mapping (file, index)) := by
  obtain ⟨path, length, rootHash⟩ := file
  obtain ⟨n, isN⟩ : ∃ n, n = filePieces pieceLen files := ⟨_, rfl⟩
  have total : filePieces pieceLen (files ++ [(path, length, rootHash)]) = n + divCeil length pieceLen := by
    rw [filePieces_append, isN]
    simp [filePieces]
  rw [total] at pieces bytes
  have start : n * pieceLen / pieceLen = n := Nat.mul_div_cancel n positive
  rw [mapFile_eq positive path rootHash index (isN ▸ laid.count) pieces bytes]
  refine ⟨total.symm, fun p inside => ?_, fun p outside => ?_⟩
  · dsimp only
    rw [total] at inside
    rcases lt_or_ge p n with before | now
    · obtain ⟨root, mapped, placed⟩ := laid.single p (isN ▸ before)
      refine ⟨root, ?_, placed.append _⟩
      rw [if_neg (by omega), mapped]
    have nonempty : 0 < length := by
      rcases Nat.eq_zero_or_pos length with rfl | nonempty
      · rw [divCeil_zero positive] at inside
        omega
      · exact nonempty
    refine ⟨⟨n * pieceLen, length, rootHash, u32 index⟩, ?_, ⟨nonempty, ?_, ?_, ?_⟩, files, path, [], rfl, ?_⟩
    · rw [if_pos ⟨now, inside⟩, laid.beyond p (isN ▸ now)]
      rfl
    all_goals dsimp only; rw [start]
    · exact now
    · exact inside
    · exact isN
  · dsimp only
    rw [total] at outside
    rw [if_neg (by omega)]
    exact laid.beyond p (by omega)

theorem laid_foldl (positive : 0 < pieceLen) (index : ℕ) (laid : Laid pieceLen files mapping)
    (pieces : filePieces pieceLen (files ++ more) < 2 ^ 32)
    (bytes : filePieces pieceLen (files ++ more) * pieceLen < 2 ^ 64) :
    Laid pieceLen (files ++ more) ((more.zipIdx index).foldl (Torrent.mapFile pieceLen) mapping) := by
  induction more generalizing files mapping index with
  | nil =>
    rw [List.append_nil]
    exact laid
  | cons file rest ih =>
    have split : files ++ file :: rest = (files ++ [file]) ++ rest := by simp
    rw [split] at pieces bytes ⊢
    have total : filePieces pieceLen (files ++ [file]) ≤ filePieces pieceLen ((files ++ [file]) ++ rest) := by
      rw [filePieces_append pieceLen (files ++ [file]) rest]
      exact Nat.le_add_right _ _
    have upTo := Nat.mul_le_mul_right pieceLen total
    rw [List.zipIdx_cons, List.foldl_cons]
    exact ih (index + 1) (laid.mapFile positive file index (by omega) (by omega)) pieces bytes

variable {torrent : Torrent}

/-- The mapping of a torrent lays out its files. -/
theorem Space.laid (space : torrent.Space) :
    Laid torrent.pieceLen torrent.sortedV2Roots torrent.calculateV2Mapping := by
  have empty : Laid torrent.pieceLen [] ⟨fun _ => none, 0⟩ :=
    ⟨rfl, fun p inside => absurd inside (Nat.not_lt_zero p), fun _ _ => rfl⟩
  rw [calculateV2Mapping, if_pos ⟨space.version, space.positive⟩]
  exact laid_foldl space.positive 0 empty space.pieces space.bytes

theorem Space.single (space : torrent.Space) (mapped : torrent.calculateV2Mapping.pieceToRoots p = some roots) :
    p < filePieces torrent.pieceLen torrent.sortedV2Roots ∧
      ∃ root, roots = [root] ∧ Placed torrent.pieceLen torrent.sortedV2Roots p root := by
  have laid := space.laid
  rcases lt_or_ge p (filePieces torrent.pieceLen torrent.sortedV2Roots) with inside | outside
  · obtain ⟨root, found, placed⟩ := laid.single p inside
    exact ⟨inside, root, Option.mem_unique mapped found, placed⟩
  · rw [laid.beyond p outside] at mapped
    cases mapped

theorem Placed.last_le (placed : Placed pieceLen files p root) :
    root.fileOffset / pieceLen + divCeil root.length pieceLen ≤ filePieces pieceLen files := by
  obtain ⟨before, path, after, rfl, start⟩ := placed.listed
  rw [start, filePieces_append]
  simp only [filePieces, List.map_cons, List.sum_cons]
  omega

end Torrent

end Superseedr
