import Mathlib.Algebra.BigOperators.Group.Finset.Basic
import Mathlib.Algebra.BigOperators.Intervals
import Superseedr.Soundness.V2Layout
import Superseedr.Soundness.Validation

/-! # Two computations of piece sizes

The state derives the size of a piece from the metadata and, for version 2, from the file the piece belongs to.
The block engine derives it from its own geometry, in which the short last pieces of files are listed as
exceptions. Both agree as soon as metadata has been received, the sizes add up to the payload, and the blocks of
a piece follow one another without gaps.
-/

namespace Superseedr

open Finset BlockManager Torrent

variable {torrent : Torrent}

namespace BlockManager

/-- The blocks of a piece cover a stretch of it, one after another. -/
def Tiles (p : ℕ) : ℕ → List BlockAddress → ℕ → Prop
  | start, [], stop => start = stop
  | start, block :: rest, stop =>
    block.pieceIndex = p ∧ block.byteOffset = start ∧ 0 < block.length ∧ block.length ≤ blockSize ∧
      Tiles p (start + block.length) rest stop

variable {bm : BlockManager} {p : ℕ}

theorem tiles_from (k count : ℕ) (upTo : k + count = blocksInPiece (bm.calculatePieceSize p)) :
    Tiles p (min (k * blockSize) (bm.calculatePieceSize p)) ((List.range' k count).map (bm.blockAt p))
      (bm.calculatePieceSize p) := by
  induction count generalizing k with
  | zero => exact Nat.min_eq_right (not_lt.mp (mt mul_blockSize_lt.mp upTo.ge.not_gt))
  | succ count ih =>
    have inside := mul_blockSize_lt.mpr (by omega : k < blocksInPiece (bm.calculatePieceSize p))
    have next : k * blockSize + (bm.blockAt p k).length = min ((k + 1) * blockSize) (bm.calculatePieceSize p) := by
      simp only [Nat.succ_mul, blockAt]
      omega
    refine ⟨rfl, (Nat.min_eq_left inside.le).symm, lt_min (by decide) (Nat.sub_pos_of_lt inside),
      Nat.min_le_left _ _, ?_⟩
    rw [Nat.min_eq_left inside.le, next]
    exact ih (k + 1) (by omega)

/-- The blocks of a piece cover it exactly once. -/
theorem tiles_pieceBlockAddresses : Tiles p 0 (bm.pieceBlockAddresses p) (bm.calculatePieceSize p) := by
  have tiles := @tiles_from bm p 0 _ (Nat.zero_add _)
  rwa [Nat.zero_mul, Nat.zero_min, ← List.range_eq_range', ← pieceBlockAddresses_eq] at tiles

end BlockManager

theorem sum_min_sub (pieceLen length count : ℕ) :
    ∑ i ∈ range count, min pieceLen (length - i * pieceLen) = min (count * pieceLen) length := by
  induction count with
  | zero => simp
  | succ count ih =>
    rw [sum_range_succ, ih, Nat.succ_mul]
    omega

namespace Torrent

def overrideTail (pieceLen : ℕ) (acc : (ℕ → Option ℕ) × ℕ) (file : Bytes × ℕ × Bytes) : (ℕ → Option ℕ) × ℕ :=
  if file.2.1 > 0 ∧ pieceLen > 0 then
    (if u32 (file.2.1 % pieceLen) > 0 then
        Function.update acc.1 (u32 (u64 (acc.2 + divCeil file.2.1 pieceLen - 1))) (some (u32 (file.2.1 % pieceLen)))
      else acc.1, u64 (acc.2 + divCeil file.2.1 pieceLen))
  else acc

theorem tailOverrides_eq (version : torrent.info.metaVersion = some 2) :
    tailOverrides torrent = (torrent.sortedV2Roots.foldl (overrideTail torrent.pieceLen) (fun _ => none, 0)).1 := by
  rw [tailOverrides, if_pos version]
  rfl

section Overrides

variable {pieceLen : ℕ} {files : List (Bytes × ℕ × Bytes)} {index first slot : ℕ} {x : Placement}
  {overrides : ℕ → Option ℕ} {p : ℕ}

variable (positive : 0 < pieceLen) (short : pieceLen < 2 ^ 32)
include positive short

/-- The exceptions after one file, if nothing wraps around. -/
theorem overrideTail_eq (file : Bytes × ℕ × Bytes) (pieces : first + divCeil file.2.1 pieceLen < 2 ^ 32) :
    overrideTail pieceLen (overrides, first) file =
      (fun p => if 0 < file.2.1 % pieceLen ∧ p + 1 = first + divCeil file.2.1 pieceLen then
          some (file.2.1 % pieceLen) else overrides p, first + divCeil file.2.1 pieceLen) := by
  obtain ⟨path, length, rootHash⟩ := file
  dsimp only at pieces ⊢
  have tail : u32 (length % pieceLen) = length % pieceLen := u32_of_lt (lt_trans (Nat.mod_lt _ positive) short)
  have unwrapped : u64 (first + divCeil length pieceLen) = first + divCeil length pieceLen := u64_of_lt (by omega)
  rcases Nat.eq_zero_or_pos length with rfl | nonempty
  · simp [overrideTail, divCeil_zero positive]
  have some := divCeil_pos nonempty positive
  have last : u32 (u64 (first + divCeil length pieceLen - 1)) = first + divCeil length pieceLen - 1 := by
    rw [u64_of_lt (by omega), u32_of_lt (by omega)]
  simp only [overrideTail, if_pos (And.intro nonempty positive), tail, unwrapped, last, Prod.mk.injEq, and_true]
  funext p
  by_cases cut : 0 < length % pieceLen
  · simp only [cut, true_and, if_true]
    rw [Function.update_apply]
    by_cases isLast : p + 1 = first + divCeil length pieceLen
    · rw [if_pos isLast, if_pos (by omega)]
    · rw [if_neg isLast, if_neg (by omega)]
  · simp only [cut, false_and, if_false]

theorem foldl_overrideTail_before (pieces : first + filePieces pieceLen files < 2 ^ 32) (before : p < first) :
    (files.foldl (overrideTail pieceLen) (overrides, first)).1 p = overrides p := by
  induction files generalizing first overrides with
  | nil => rfl
  | cons file rest ih =>
    rw [filePieces_cons, ← Nat.add_assoc] at pieces
    have beforeRest : p < first + divCeil file.2.1 pieceLen := by omega
    rw [List.foldl_cons, overrideTail_eq positive short file (by omega), ih pieces beforeRest]
    refine if_neg fun isLast => ?_
    have some : 0 < divCeil file.2.1 pieceLen := by
      rcases Nat.eq_zero_or_pos file.2.1 with empty | nonempty
      · rw [empty, Nat.zero_mod] at isLast
        omega
      · exact divCeil_pos nonempty positive
    omega

theorem foldl_overrideTail_placed (pieces : first + filePieces pieceLen files < 2 ^ 32)
    (placed : x ∈ placements pieceLen files index first slot) (behind : x.first ≤ p)
    (inside : p < x.first + x.pieces pieceLen) (unset : overrides p = none) :
    (files.foldl (overrideTail pieceLen) (overrides, first)).1 p =
      if 0 < x.length % pieceLen ∧ p + 1 = x.first + x.pieces pieceLen then some (x.length % pieceLen) else none := by
  induction files generalizing index first slot overrides with
  | nil => cases placed
  | cons file rest ih =>
    rw [filePieces_cons, ← Nat.add_assoc] at pieces
    rw [List.foldl_cons, overrideTail_eq positive short file (by omega)]
    rcases List.mem_cons.mp placed with rfl | later
    · rw [foldl_overrideTail_before positive short pieces inside, unset]
      rfl
    · have after := (placements_bounds later).1
      apply ih pieces later
      rw [if_neg (by omega), unset]

end Overrides

variable {x : Placement} {p : ℕ}

theorem Space.pieceSizeOf_placed (space : torrent.Space) (placed : x ∈ torrent.placed) (behind : x.first ≤ p)
    (inside : p < x.first + x.pieces torrent.pieceLen) :
    pieceSizeOf torrent torrent.calculateV2Mapping.pieceToRoots p =
      min torrent.pieceLen (x.length - (p - x.first) * torrent.pieceLen) := by
  have total := (placements_bounds placed).2
  have bytes := space.bytes
  have end_le : p * torrent.pieceLen ≤ filePieces torrent.pieceLen torrent.sortedV2Roots * torrent.pieceLen :=
    Nat.mul_le_mul_right _ (by omega)
  have unwrapped : u64 (p * torrent.pieceLen) = p * torrent.pieceLen := u64_of_lt (by omega)
  simp only [pieceSizeOf, space.pieceToRoots_placed placed behind inside, remainingInFile, Placement.root, unwrapped,
    Nat.sub_mul]

theorem min_sub_eq {pieceLen length i : ℕ} (positive : 0 < pieceLen) (inside : i < divCeil length pieceLen) :
    min pieceLen (length - i * pieceLen) =
      if 0 < length % pieceLen ∧ i + 1 = divCeil length pieceLen then length % pieceLen else pieceLen := by
  have filled := @divCeil_mul_eq_add length pieceLen positive
  have upTo : (i + 1) * pieceLen ≤ divCeil length pieceLen * pieceLen := Nat.mul_le_mul_right _ inside
  rw [Nat.succ_mul] at upTo
  have below := Nat.mod_lt length positive
  by_cases tail : 0 < length % pieceLen
  · rw [if_pos tail] at filled
    by_cases isLast : i + 1 = divCeil length pieceLen
    · rw [if_pos ⟨tail, isLast⟩]
      rw [← isLast, Nat.succ_mul] at filled
      omega
    rw [if_neg fun both => isLast both.2]
    have next : (i + 2) * pieceLen ≤ divCeil length pieceLen * pieceLen := Nat.mul_le_mul_right _ (by omega)
    rw [Nat.add_mul, Nat.two_mul] at next
    omega
  · rw [if_neg tail] at filled
    rw [if_neg fun both => tail both.1]
    omega

/-- Version 2 metadata without SHA-1 hashes, with fewer than 2^32 pieces. -/
structure PureV2 (torrent : Torrent) : Prop where
  version : torrent.info.metaVersion = some 2
  pure : torrent.info.pieces = []
  pieces : filePieces torrent.pieceLen torrent.sortedV2Roots < 2 ^ 32

section

variable (pureV2 : torrent.PureV2) (wellFormed : torrent.WellFormed)
include pureV2 wellFormed

theorem PureV2.space : torrent.Space := by
  obtain ⟨positive, short, -⟩ := wellFormed.pieceLen
  refine ⟨pureV2.version, positive, pureV2.pieces, ?_⟩
  calc filePieces torrent.pieceLen torrent.sortedV2Roots * torrent.pieceLen < 2 ^ 32 * 2 ^ 32 :=
        Nat.mul_lt_mul'' pureV2.pieces short
    _ = 2 ^ 64 := by decide

theorem PureV2.numPieces : torrent.numPieces = filePieces torrent.pieceLen torrent.sortedV2Roots := by
  rw [Torrent.numPieces, if_neg (not_not.mpr pureV2.pure), (pureV2.space wellFormed).laid.count]
  exact u32_of_lt pureV2.pieces

theorem PureV2.calculatePieceSize_placed (validated : Bool) (placed : x ∈ torrent.placed) (behind : x.first ≤ p)
    (inside : p < x.first + x.pieces torrent.pieceLen) :
    (TorrentState.loadedPieces torrent validated).blockManager.calculatePieceSize p =
      min torrent.pieceLen (x.length - (p - x.first) * torrent.pieceLen) := by
  have space := pureV2.space wellFormed
  obtain ⟨positive, short, same⟩ := wellFormed.pieceLen
  have total := (placements_bounds placed).2
  rw [Nat.zero_add] at total
  have cut : tailOverrides torrent p = if 0 < x.length % torrent.pieceLen ∧
      p + 1 = x.first + x.pieces torrent.pieceLen then some (x.length % torrent.pieceLen) else none := by
    rw [tailOverrides_eq pureV2.version]
    refine foldl_overrideTail_placed positive short ?_ placed behind inside rfl
    rw [Nat.zero_add]
    exact pureV2.pieces
  have stream : torrent.geometryLength = filePieces torrent.pieceLen torrent.sortedV2Roots * torrent.pieceLen := by
    rw [geometryLength, if_pos pureV2.version, pureV2.numPieces wellFormed]
    exact u64_of_lt space.bytes
  have room : (p + 1) * torrent.pieceLen ≤ filePieces torrent.pieceLen torrent.sortedV2Roots * torrent.pieceLen :=
    Nat.mul_le_mul_right _ (by omega)
  rw [Nat.succ_mul] at room
  have isPieces : x.pieces torrent.pieceLen = divCeil x.length torrent.pieceLen := rfl
  rw [min_sub_eq positive (show p - x.first < divCeil x.length torrent.pieceLen by omega)]
  simp only [TorrentState.loadedPieces, PieceManager.setGeometry, setGeometry, calculatePieceSize, cut, stream, same]
  by_cases isTail : 0 < x.length % torrent.pieceLen ∧ p + 1 = x.first + x.pieces torrent.pieceLen
  · rw [if_pos isTail, if_pos ⟨isTail.1, by omega⟩]
  · rw [if_neg isTail, if_neg fun both => isTail ⟨both.1, by omega⟩]
    dsimp only
    omega

end

theorem sum_placements {pieceLen : ℕ} (positive : 0 < pieceLen) {files : List (Bytes × ℕ × Bytes)}
    {index first slot : ℕ} {size : ℕ → ℕ} (sizes : ∀ x ∈ placements pieceLen files index first slot,
      ∀ i < x.pieces pieceLen, size (x.first + i) = min pieceLen (x.length - i * pieceLen)) :
    ∑ i ∈ range (filePieces pieceLen files), size (first + i) = (files.map fun file => file.2.1).sum := by
  induction files generalizing index first slot with
  | nil => rfl
  | cons file rest ih =>
    have head : ∑ i ∈ range (divCeil file.2.1 pieceLen), size (first + i) = file.2.1 := by
      have each : ∀ i ∈ range (divCeil file.2.1 pieceLen),
          size (first + i) = min pieceLen (file.2.1 - i * pieceLen) := fun i member =>
        sizes ⟨file, index, first, slot⟩ (.head _) i (mem_range.mp member)
      rw [sum_congr rfl each]
      have filled := @divCeil_mul_eq_add file.2.1 pieceLen positive
      exact (sum_min_sub _ _ _).trans (Nat.min_eq_right (by omega))
    have tail := @ih (index + 1) (first + divCeil file.2.1 pieceLen) (slot + (polyfillFile pieceLen file).length)
      fun x later => sizes x (.tail _ later)
    rw [filePieces_cons, sum_range_add, head, List.map_cons, List.sum_cons, ← tail]
    simp only [Nat.add_assoc]

/-- The number of bytes that the metadata describes. -/
def payload (torrent : Torrent) : ℕ :=
  if torrent.info.metaVersion = some 2 then (torrent.sortedV2Roots.map fun file => file.2.1).sum
  else if torrent.info.files = [] then asU64 torrent.info.length
  else (torrent.info.files.map fun file => asU64 file.length).sum

structure CoveredV1 (torrent : Torrent) : Prop where
  version : torrent.info.metaVersion ≠ some 2
  pieces : torrent.numPieces ≤ 2 ^ 32
  covered : torrent.payload ≤ torrent.numPieces * torrent.pieceLen

section

variable (coveredV1 : torrent.CoveredV1) (wellFormed : torrent.WellFormed)
include coveredV1 wellFormed

theorem CoveredV1.streamLength : torrent.streamLength = torrent.payload := by
  obtain ⟨-, short, -⟩ := wellFormed.pieceLen
  have small : torrent.payload < 2 ^ 64 := by
    have most := Nat.mul_le_mul_right torrent.pieceLen coveredV1.pieces
    have covered := coveredV1.covered
    omega
  rw [payload, if_neg coveredV1.version] at small ⊢
  unfold Torrent.streamLength
  split_ifs at small ⊢
  · rfl
  · exact u64_of_lt small

theorem CoveredV1.pieceSizeOf_eq (inside : p < torrent.numPieces) :
    pieceSizeOf torrent torrent.calculateV2Mapping.pieceToRoots p =
      min torrent.pieceLen (torrent.payload - p * torrent.pieceLen) := by
  obtain ⟨-, short, -⟩ := wellFormed.pieceLen
  have unwrapped : u64 (p * torrent.pieceLen) = p * torrent.pieceLen := by
    apply u64_of_lt
    have pieces := coveredV1.pieces
    calc p * torrent.pieceLen < 2 ^ 32 * 2 ^ 32 := Nat.mul_lt_mul'' (by omega) short
      _ = 2 ^ 64 := by decide
  rw [Scheduler.pieceSizeOf_of_no_roots (pieceToRoots_of_version1 coveredV1.version p), unwrapped,
    coveredV1.streamLength wellFormed]

theorem CoveredV1.calculatePieceSize_eq (validated : Bool) (p : ℕ) :
    (TorrentState.loadedPieces torrent validated).blockManager.calculatePieceSize p =
      min torrent.pieceLen (torrent.payload - p * torrent.pieceLen) := by
  obtain ⟨-, -, same⟩ := wellFormed.pieceLen
  simp only [TorrentState.loadedPieces, PieceManager.setGeometry, setGeometry,
    calculatePieceSize, tailOverrides, if_neg coveredV1.version, geometryLength, same,
    coveredV1.streamLength wellFormed]

end

/-- Both computations of piece sizes agree. -/
theorem pieceSizeOf_eq_calculatePieceSize (wellFormed : torrent.WellFormed) (kind : torrent.CoveredV1 ∨ torrent.PureV2)
    (validated : Bool) (inside : p < torrent.numPieces) :
    pieceSizeOf torrent torrent.calculateV2Mapping.pieceToRoots p =
      (TorrentState.loadedPieces torrent validated).blockManager.calculatePieceSize p := by
  rcases kind with coveredV1 | pureV2
  · rw [coveredV1.pieceSizeOf_eq wellFormed inside, coveredV1.calculatePieceSize_eq wellFormed]
  rw [pureV2.numPieces wellFormed] at inside
  obtain ⟨x, placed, behind, within⟩ := @exists_placement p torrent.pieceLen torrent.sortedV2Roots 0 0 0
    (Nat.zero_le p) (by omega)
  rw [(pureV2.space wellFormed).pieceSizeOf_placed placed behind within,
    pureV2.calculatePieceSize_placed wellFormed validated placed behind within]

/-- The sizes of all pieces add up to the payload. -/
theorem sum_pieceSizeOf (wellFormed : torrent.WellFormed) (kind : torrent.CoveredV1 ∨ torrent.PureV2) :
    ∑ i ∈ range torrent.numPieces, pieceSizeOf torrent torrent.calculateV2Mapping.pieceToRoots i =
      torrent.payload := by
  rcases kind with coveredV1 | pureV2
  · rw [sum_congr rfl fun i member => coveredV1.pieceSizeOf_eq wellFormed (mem_range.mp member), sum_min_sub]
    exact Nat.min_eq_right coveredV1.covered
  have space := pureV2.space wellFormed
  rw [pureV2.numPieces wellFormed, payload, if_pos pureV2.version]
  have sum := @sum_placements torrent.pieceLen space.positive torrent.sortedV2Roots 0 0 0
    (pieceSizeOf torrent torrent.calculateV2Mapping.pieceToRoots) fun x placed i inside => by
      rw [space.pieceSizeOf_placed placed (by omega) (by omega), Nat.add_sub_cancel_left]
  simpa only [Nat.zero_add] using sum

end Torrent

open TorrentState

/-- As soon as metadata has been received, both computations agree on the size of every piece, the sizes add up to the
payload, and the blocks of every piece cover it exactly once. -/
theorem piece_sizes_agree {host : Host} {s t : TorrentState} {effects : List Effect} {metadataLength : ℤ}
    (unloaded : s.torrent = none) (run : update host s (.metadataReceived torrent metadataLength) = some (t, effects))
    (wellFormed : torrent.WellFormed) (kind : torrent.CoveredV1 ∨ torrent.PureV2) :
    (∀ i < torrent.numPieces, t.getPieceSize i = t.pieceManager.blockManager.calculatePieceSize i ∧
      Tiles i 0 (t.pieceManager.blockManager.pieceBlockAddresses i) (t.getPieceSize i)) ∧
    ∑ i ∈ range torrent.numPieces, t.getPieceSize i = torrent.payload := by
  obtain ⟨loaded, roots, marks⟩ := metadataReceived_loads unloaded run
  have geometry : t.pieceManager.blockManager = (loadedPieces torrent s.torrentValidationStatus).blockManager :=
    congrArg Prod.snd marks
  have sizes : t.getPieceSize = pieceSizeOf torrent torrent.calculateV2Mapping.pieceToRoots := by
    funext i
    rw [getPieceSize, loaded, roots]
  rw [sizes, geometry]
  refine ⟨fun i inside => ?_, sum_pieceSizeOf wellFormed kind⟩
  have agree := pieceSizeOf_eq_calculatePieceSize wellFormed kind s.torrentValidationStatus inside
  refine ⟨agree, ?_⟩
  rw [agree]
  exact tiles_pieceBlockAddresses

/-- A torrent of version 1 with eight bytes and a single piece of four bytes. -/
def truncatedTorrent : Torrent where
  info :=
    { pieceLength := 4
      pieces := List.replicate 20 0
      files := []
      name := "t"
      length := 8
      metaVersion := none
      fileTree := none }

/-- Metadata with too few hashes is accepted, and its pieces leave out a part of the payload. -/
theorem piece_sizes_miss_payload : ∃ t effects, truncatedTorrent.info.metaVersion ≠ some 2 ∧
    truncatedTorrent.WellFormed ∧
    update {} emptyState (.metadataReceived truncatedTorrent 0) = some (t, effects) ∧
    ∑ i ∈ range truncatedTorrent.numPieces, t.getPieceSize i ≠ truncatedTorrent.payload := by
  have checked : (update {} emptyState (.metadataReceived truncatedTorrent 0)).any (fun next =>
      decide (∑ i ∈ range truncatedTorrent.numPieces, next.1.getPieceSize i ≠ truncatedTorrent.payload)) =
        true := by decide +kernel
  obtain ⟨⟨t, effects⟩, run, differ⟩ := (Option.any_eq_true _ _).mp checked
  exact ⟨t, effects, by decide, ⟨by decide, by decide⟩, run, of_decide_eq_true differ⟩

/-- Two files of version 2, of three and five bytes, in three pieces. -/
theorem piece_sizes_agree_two_files : ∃ t effects,
    update {} emptyState (.metadataReceived (twoFileTorrent 4 3 5) 0) = some (t, effects) ∧
    (∀ i < 3, t.getPieceSize i = t.pieceManager.blockManager.calculatePieceSize i ∧
      Tiles i 0 (t.pieceManager.blockManager.pieceBlockAddresses i) (t.getPieceSize i)) ∧
    ∑ i ∈ range 3, t.getPieceSize i = 8 := by
  have checked : (update {} emptyState (.metadataReceived (twoFileTorrent 4 3 5) 0)).isSome = true := by
    decide +kernel
  obtain ⟨⟨t, effects⟩, run⟩ := Option.isSome_iff_exists.mp checked
  have agree := piece_sizes_agree rfl run ⟨by decide, by decide⟩ (.inr ⟨rfl, rfl, by decide +kernel⟩)
  have count : (twoFileTorrent 4 3 5).numPieces = 3 := by decide +kernel
  rw [count, payload] at agree
  exact ⟨t, effects, run, agree⟩

end Superseedr
