import Superseedr.Soundness.Runs

/-! # Priorities of files and of pieces

A piece gets the highest priority among the files that touch it. Padding files and empty files touch pieces like any
other, although they hold no bytes of their own, and nobody chooses a priority for padding.
-/

namespace Superseedr

open List

/-- A file at its place in the stream of all files. -/
structure PlacedFile where
  start : ℕ
  length : ℕ
  padding : Bool
  priority : FilePriority

/-- Place files one behind the other. -/
def placeFiles (chosen : ℕ → Option FilePriority) : ℕ → ℕ → List (ℤ × Bool) → List PlacedFile
  | _, _, [] => []
  | start, i, (length, padding) :: rest =>
    ⟨start, asU64 length, padding, (chosen i).getD .normal⟩ :: placeFiles chosen (start + asU64 length) (i + 1) rest

/-- The lengths of the files of a torrent and whether they are padding. -/
def Torrent.fileLengths (torrent : Torrent) : List (ℤ × Bool) :=
  if torrent.info.files ≠ [] then
    torrent.info.files.map fun file => (file.length, file.attr.any fun attr => attr.toList.contains 'p')
  else [(torrent.info.length, false)]

/-- The files of a torrent, with the priorities chosen for them. -/
def TorrentState.placedFiles (s : TorrentState) (torrent : Torrent) : List PlacedFile :=
  placeFiles s.filePriorities.lookup 0 0 torrent.fileLengths

namespace PlacedFile

variable {f : PlacedFile} {files : List PlacedFile} {pieceLen p : ℕ} {e : EffectivePiecePriority}

/-- How much the file adds to its pieces. -/
def rank (f : PlacedFile) : ℕ := (paintPiece f.priority .skip).rank

/-- The piece holds bytes of the file, which is no padding. -/
abbrev Fills (pieceLen p : ℕ) (f : PlacedFile) : Prop :=
  f.padding = false ∧ 0 < f.length ∧ f.start < (p + 1) * pieceLen ∧ p * pieceLen < f.start + f.length

/-- The file is painted over the piece. -/
abbrev Touches (pieceLen p : ℕ) (f : PlacedFile) : Prop :=
  f.start / pieceLen ≤ p ∧ p < (f.start + f.length - 1) / pieceLen + 1

theorem touches_iff (positive : 0 < pieceLen) (nonempty : 0 < f.length) :
    f.Touches pieceLen p ↔ f.start < (p + 1) * pieceLen ∧ p * pieceLen < f.start + f.length := by
  have behind : f.start / pieceLen ≤ p ↔ f.start < (p + 1) * pieceLen := by
    rw [← Nat.lt_succ_iff, Nat.div_lt_iff_lt_mul positive]
  rw [Touches, behind, Nat.lt_succ_iff, Nat.le_div_iff_mul_le positive]
  omega

def paint (pieceLen p : ℕ) (files : List PlacedFile) (e : EffectivePiecePriority) : EffectivePiecePriority :=
  files.foldl (fun e f => if f.Touches pieceLen p then paintPiece f.priority e else e) e

theorem rank_paint_le_iff (n : ℕ) :
    (paint pieceLen p files e).rank ≤ n ↔ e.rank ≤ n ∧ ∀ f ∈ files, f.Touches pieceLen p → f.rank ≤ n := by
  induction files generalizing e with
  | nil => simp [paint]
  | cons f rest ih =>
    rw [paint, foldl_cons, ← paint, ih, forall_mem_cons]
    split_ifs with touches
    · have painted : (paintPiece f.priority e).rank = max f.rank e.rank := by
        unfold rank
        cases f.priority <;> cases e <;> rfl
      rw [painted, max_le_iff]
      tauto
    · tauto

/-- The loop over the files, as one piece sees it. -/
theorem foldl_paintFile {chosen : ℕ → Option FilePriority} {entries : List (ℤ × Bool)} {start i : ℕ}
    {pieces : List EffectivePiecePriority} (fits : start + (entries.map fun entry => asU64 entry.1).sum < 2 ^ 64) :
    (((entries.map Prod.fst).zipIdx i).foldl (paintFile pieceLen chosen) (pieces, start)).1[p]? =
      pieces[p]?.map (paint pieceLen p (placeFiles chosen start i entries)) := by
  induction entries generalizing start i pieces with
  | nil => exact Option.map_id'.symm
  | cons entry rest ih =>
    obtain ⟨length, padding⟩ := entry
    rw [map_cons, sum_cons, ← Nat.add_assoc] at fits
    rw [map_cons, zipIdx_cons, foldl_cons, paintFile]
    dsimp only at fits ⊢
    rw [u64_of_lt (by omega), ih fits, getElem?_mapIdx, Option.map_map]
    rfl

/-- The highest priority among the files that fill a piece, and skip if there is none. -/
def IsHighest (pieceLen p : ℕ) (files : List PlacedFile) (e : EffectivePiecePriority) : Prop :=
  (∀ f ∈ files, f.Fills pieceLen p → f.rank ≤ e.rank) ∧
    (0 < e.rank → ∃ f ∈ files, f.Fills pieceLen p ∧ f.rank = e.rank)

/-- Every padding file and every empty file that touches the piece is skipped, or shares it with a file of at least its
own priority. -/
abbrev Outranked (pieceLen p : ℕ) (files : List PlacedFile) : Prop :=
  ∀ f ∈ files, ¬(f.padding = false ∧ 0 < f.length) → f.Touches pieceLen p → 0 < f.rank →
    ∃ g ∈ files, g.Fills pieceLen p ∧ f.rank ≤ g.rank

theorem isHighest_paint_iff (positive : 0 < pieceLen) :
    IsHighest pieceLen p files (paint pieceLen p files .skip) ↔ Outranked pieceLen p files := by
  obtain ⟨e, isPaint⟩ : ∃ e, e = paint pieceLen p files .skip := ⟨_, rfl⟩
  have bound (n : ℕ) : e.rank ≤ n ↔ ∀ f ∈ files, f.Touches pieceLen p → f.rank ≤ n := by
    rw [isPaint, rank_paint_le_iff]
    exact and_iff_right (Nat.zero_le n)
  have highest : ∀ f ∈ files, f.Fills pieceLen p → f.rank ≤ e.rank := fun f member fills =>
    (bound _).mp le_rfl f member ((touches_iff positive fills.2.1).mpr fills.2.2)
  rw [← isPaint]
  constructor
  · rintro ⟨-, reached⟩ f member - touches wanted
    have rank := (bound _).mp le_rfl f member touches
    obtain ⟨g, isFile, fills, same⟩ := reached (wanted.trans_le rank)
    exact ⟨g, isFile, fills, same ▸ rank⟩
  · refine fun outranked => ⟨highest, fun wanted => ?_⟩
    by_contra! lower
    -- Then every file that touches the piece has a lower priority than the piece.
    have below : ∀ g ∈ files, g.Fills pieceLen p → g.rank ≤ e.rank - 1 := fun g member fills => by
      have rank := highest g member fills
      have differs := lower g member fills
      omega
    have less := (bound (e.rank - 1)).mpr fun f member touches => by
      by_cases real : f.padding = false ∧ 0 < f.length
      · exact below f member ⟨real.1, real.2, (touches_iff positive real.2).mp touches⟩
      rcases Nat.eq_zero_or_pos f.rank with skipped | counts
      · omega
      · obtain ⟨g, isFile, fills, rank⟩ := outranked f member real touches counts
        exact rank.trans (below g isFile fills)
    omega

end PlacedFile

open PlacedFile

/-- Every piece has the highest priority among the files that fill it exactly if padding files and empty files are
outranked everywhere. -/
theorem piece_priorities_highest_iff {s : TorrentState} {torrent : Torrent} (loaded : s.torrent = some torrent)
    (positive : 0 < torrent.pieceLen) (fits : (torrent.fileLengths.map fun entry => asU64 entry.1).sum < 2 ^ 64) :
    (∃ priorities, s.calculatePiecePriorities = some priorities ∧ ∀ p < s.pieceManager.bitfield.length,
        ∃ e, priorities[p]? = some e ∧ IsHighest torrent.pieceLen p (s.placedFiles torrent) e) ↔
      ∀ p < s.pieceManager.bitfield.length, Outranked torrent.pieceLen p (s.placedFiles torrent) := by
  have lengths : (if torrent.info.files ≠ [] then torrent.info.files.map (·.length) else [torrent.info.length]) =
      torrent.fileLengths.map Prod.fst := by
    rw [Torrent.fileLengths]
    split_ifs
    · rw [List.map_map]
      rfl
    · rfl
  obtain ⟨priorities, run, painted⟩ : ∃ priorities, s.calculatePiecePriorities = some priorities ∧
      ∀ p < s.pieceManager.bitfield.length,
        priorities[p]? = some (paint torrent.pieceLen p (s.placedFiles torrent) .skip) := by
    simp only [TorrentState.calculatePiecePriorities, loaded, lengths, if_neg positive.ne']
    split_ifs with none
    · exact ⟨[], rfl, fun p inside => by omega⟩
    · refine ⟨_, rfl, fun p inside => ?_⟩
      rw [foldl_paintFile (by rwa [Nat.zero_add]), getElem?_replicate, if_pos inside]
      rfl
  constructor
  · rintro ⟨_, same, highest⟩ p inside
    cases run.symm.trans same
    obtain ⟨e, found, isHighest⟩ := highest p inside
    cases (painted p inside).symm.trans found
    exact (isHighest_paint_iff positive).mp isHighest
  · exact fun outranked => ⟨priorities, run, fun p inside =>
      ⟨_, painted p inside, (isHighest_paint_iff positive).mpr (outranked p inside)⟩⟩

/-- A file of three bytes and a byte of padding behind it, in one piece. -/
def paddedTorrent : Torrent where
  info :=
    { pieceLength := 4
      pieces := List.replicate 20 0
      files := [⟨3, ["f"], none⟩, ⟨1, [".pad", "1"], some "p"⟩]
      name := "t"
      length := 0
      metaVersion := none
      fileTree := none }

/-- Its piece has the priority of the file, unless that is skipped. -/
theorem piece_priorities_highest_padded : ∃ s : TorrentState, s.torrent = some paddedTorrent ∧
    ∃ priorities, s.calculatePiecePriorities = some priorities ∧ ∀ p < 1,
      ∃ e, priorities[p]? = some e ∧ IsHighest 4 p (s.placedFiles paddedTorrent) e := by
  refine ⟨{ emptyState with torrent := some paddedTorrent, pieceManager.bitfield := [.need] }, rfl, ?_⟩
  refine (piece_priorities_highest_iff rfl (by decide) (by decide +kernel)).mpr fun p inside => ?_
  obtain rfl : p = 0 := Nat.lt_one_iff.mp inside
  decide +kernel

/-- The only bytes of a piece are those of a skipped file, and the piece is wanted. -/
theorem skipped_file_wanted : ∃ s : TorrentState, Reachable (fun _ _ => True) s ∧
    s.torrent.map (·.fileLengths) = some [(3, false), (1, true)] ∧ s.filePriorities.lookup 0 = some .skip ∧
    s.calculatePiecePriorities = some [.normal] := by
  exact exists_reached
    [.handle {} (.setUserTorrentConfig "d" (AList.insert 0 .skip ∅) none),
      .handle {} (.metadataReceived paddedTorrent 0)]
    (fun s => s.torrent.map (·.fileLengths) = some [(3, false), (1, true)] ∧ s.filePriorities.lookup 0 = some .skip ∧
      s.calculatePiecePriorities = some [.normal]) (by decide +kernel)

end Superseedr
