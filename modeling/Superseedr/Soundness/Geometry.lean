import Superseedr.Soundness.PieceConservation

/-! # The blocks offered for request end inside their pieces

The block engine cuts pieces by a geometry of its own, which is fixed when metadata arrives and is
estimated from the first block after the torrent has been deleted. The metadata gives the size of a
piece independently. A request is cut off at the end of the piece's file if the piece has one. If it has
none, the geometry must not exceed the size: this fails for version 2 metadata whose pieces are not all
covered by files of its tree.
-/

namespace Superseedr

open PieceManager TorrentState

variable {bm bm' : BlockManager} {roots : ℕ → Option (List V2RootInfo)} {validated : Bool} {pm : PieceManager} {q : ℕ}
  {b : BlockRequest}

namespace Torrent

/-- The piece length is positive and fits into 32 bits. -/
def WellFormed (torrent : Torrent) : Prop := 0 < torrent.info.pieceLength ∧ torrent.info.pieceLength < 2 ^ 32

/-- Every piece of a version 2 torrent belongs to a file of its tree. -/
def CoveredByFiles (torrent : Torrent) : Prop :=
  torrent.info.metaVersion = some 2 → ∀ p < torrent.numPieces,
    ∃ root rest, torrent.calculateV2Mapping.pieceToRoots p = some (root :: rest)

variable {torrent : Torrent}

theorem WellFormed.pieceLen (wellFormed : torrent.WellFormed) :
    0 < torrent.pieceLen ∧ torrent.pieceLen < 2 ^ 32 ∧ asU32 torrent.info.pieceLength = torrent.pieceLen := by
  obtain ⟨positive, small⟩ := wellFormed
  simp only [Torrent.pieceLen, asU64, asU32]
  omega

theorem pieceToRoots_of_version1 (version : torrent.info.metaVersion ≠ some 2) (p : ℕ) :
    torrent.calculateV2Mapping.pieceToRoots p = none := by
  simp [calculateV2Mapping, version]

end Torrent

theorem u64_le (n : ℕ) : u64 n ≤ n := Nat.mod_le n _

namespace Scheduler

variable {c d : Core} {label : Label} {torrent : Torrent} {p : ℕ}

theorem SameGeometry.calculatePieceSize (same : SameGeometry bm bm') (p : ℕ) :
    bm'.calculatePieceSize p = bm.calculatePieceSize p := by
  simp only [BlockManager.calculatePieceSize, same.pieceLength, same.totalLength, same.pieceLengths]

/-- The moves that may change the geometry or the files of pieces. -/
def Label.Reshapes : Label → Prop
  | .load _ | .wipe | .assemble => True
  | _ => False

theorem Move.geometry (consistent : c.pm.Consistent) (move : Move label c d) (kept : ¬label.Reshapes) :
    SameGeometry c.pm.blockManager d.pm.blockManager ∧ d.roots = c.roots := by
  have requeued : ∀ {pm pm' : PieceManager} {p : ℕ}, Requeued pm p pm' →
      SameGeometry pm.blockManager pm'.blockManager := by
    intro pm pm' p requeued
    rw [requeued.blockManager]
    exact ⟨rfl, rfl, rfl⟩
  cases move with
  | drop _ _ run =>
    rcases releasePendingPeerOrRequeue_cases run with ⟨-, rfl⟩ | ⟨-, again⟩
    · exact ⟨⟨rfl, rfl, rfl⟩, rfl⟩
    · exact ⟨requeued again, rfl⟩
  | complete _ missing run =>
    have completed := missing.completed run
    rw [completed.blockManager]
    exact ⟨⟨rfl, rfl, rfl⟩, rfl⟩
  | requeue _ run => exact ⟨requeued (requeuePendingToNeed_eq_some run), rfl⟩
  | prioritize _ length run =>
    rw [(applyPriorities_eq_some consistent length run).blockManager]
    exact ⟨⟨rfl, rfl, rfl⟩, rfl⟩
  | adopt _ marked _ =>
    have geometry := (markAllComplete_eq_some marked).geometry
    exact ⟨{ geometry with }, rfl⟩
  | load | wipe | assemble => exact absurd trivial kept
  | _ => exact ⟨⟨rfl, rfl, rfl⟩, rfl⟩

/-- Pieces without a file are cut no larger than they are, and there are no files before there is a geometry. -/
structure Fits (torrent : Torrent) (c : Core) : Prop where
  bounded : ∀ p < c.pm.bitfield.length, (∃ root rest, c.roots p = some (root :: rest)) ∨
    c.pm.blockManager.calculatePieceSize p ≤ pieceSizeOf torrent c.roots p
  unknown : c.pm.blockManager.pieceLength = 0 → ∀ p, c.roots p = none

theorem Fits.of_sameGeometry (fits : Fits torrent c) (same : SameGeometry c.pm.blockManager d.pm.blockManager)
    (roots : d.roots = c.roots) (length : d.pm.bitfield.length = c.pm.bitfield.length) : Fits torrent d := by
  constructor
  · intro p inside
    rw [same.calculatePieceSize, roots]
    exact fits.bounded p (length ▸ inside)
  · rw [same.pieceLength, roots]
    exact fits.unknown

theorem pieceSizeOf_of_no_roots (none : roots p = none) :
    pieceSizeOf torrent roots p = min torrent.pieceLen (torrent.streamLength - u64 (p * torrent.pieceLen)) := by
  simp only [pieceSizeOf, none]

theorem pieceSizeOf_le (roots : ℕ → Option (List V2RootInfo)) : pieceSizeOf torrent roots p ≤ torrent.pieceLen := by
  unfold pieceSizeOf
  split <;> exact Nat.min_le_left _ _

/-- Priorities leave the geometry of new metadata alone. -/
theorem LoadsAs.blockManager (loads : LoadsAs torrent validated pm) (small : torrent.numPieces ≤ 2 ^ 32) :
    pm.blockManager = (loadedPieces torrent validated).blockManager := by
  rcases loads with rfl | ⟨new, cancelled, sized, run⟩
  · rfl
  · refine (applyPriorities_eq_some (consistent_loadedPieces small validated) ?_ run).blockManager
    simp [sized, loadedPieces, setInitialFields, setGeometry]

theorem fits_load (wellFormed : torrent.WellFormed) (covered : torrent.CoveredByFiles)
    (small : torrent.numPieces ≤ 2 ^ 32) (loads : LoadsAs torrent validated pm)
    (roots : d.roots = torrent.calculateV2Mapping.pieceToRoots) (pieces : d.pm = pm) : Fits torrent d := by
  have length := (loads.facts small).2.2.2
  have geometry := loads.blockManager small
  obtain ⟨positive, below, same⟩ := wellFormed.pieceLen
  subst pieces
  constructor
  · intro p inside
    rw [length] at inside
    by_cases version : torrent.info.metaVersion = some 2
    · rw [roots]
      exact .inl (covered version p inside)
    right
    rw [geometry, pieceSizeOf_of_no_roots (roots ▸ Torrent.pieceToRoots_of_version1 version p)]
    simp only [loadedPieces, setGeometry, BlockManager.setGeometry,
      BlockManager.calculatePieceSize, tailOverrides, if_neg version, Torrent.geometryLength, same]
    have narrowed := u64_le (p * torrent.pieceLen)
    omega
  · intro unset
    rw [geometry] at unset
    simp only [loadedPieces, setGeometry, BlockManager.setGeometry, same] at unset
    omega

theorem fits_estimate (wellFormed : torrent.WellFormed) (small : c.pm.bitfield.length ≤ 2 ^ 32) (fits : Fits torrent c)
    (loaded : c.torrent = some torrent) (inside : q < c.pm.bitfield.length) (unset : c.pm.blockManager.pieceLength = 0)
    (estimate : SameGeometry (c.pm.blockManager.setGeometry (u32 (c.pieceSize q))
      (u64 ((q + 1) * c.pieceSize q)) (fun _ => none) false) bm) :
    Fits torrent { c with pm := { c.pm with blockManager := bm } } := by
  have roots := fits.unknown unset
  obtain ⟨positive, below, -⟩ := wellFormed.pieceLen
  have size : c.pieceSize q = min torrent.pieceLen (torrent.streamLength - u64 (q * torrent.pieceLen)) := by
    rw [Core.pieceSize, loaded]
    exact pieceSizeOf_of_no_roots (roots q)
  have unwrapped : ∀ p ≤ q, u64 (p * torrent.pieceLen) = p * torrent.pieceLen := by
    intro p before
    refine Nat.mod_eq_of_lt ?_
    calc p * torrent.pieceLen < 2 ^ 32 * 2 ^ 32 := Nat.mul_lt_mul'' (by omega) below
      _ = 2 ^ 64 := by decide
  refine ⟨fun p _ => .inr ?_, fun _ => roots⟩
  rw [estimate.calculatePieceSize, pieceSizeOf_of_no_roots (roots p)]
  simp only [BlockManager.calculatePieceSize, BlockManager.setGeometry]
  have narrow : u32 (c.pieceSize q) = c.pieceSize q := u32_of_lt (by omega)
  rw [narrow]
  rcases le_or_gt p q with before | after
  · have order : p * torrent.pieceLen ≤ q * torrent.pieceLen := Nat.mul_le_mul_right _ before
    rw [unwrapped p before]
    rw [unwrapped q le_rfl] at size
    omega
  · have beyond : u64 ((q + 1) * c.pieceSize q) ≤ p * c.pieceSize q :=
      (u64_le _).trans (Nat.mul_le_mul_right _ after)
    omega

def Geometric (c : Core) : Prop :=
  ∀ torrent, c.torrent = some torrent → torrent.WellFormed → torrent.CoveredByFiles → Fits torrent c

theorem Geometric.move (geometric : Geometric c) (sound : Sound c) (addressable : label.Addressable)
    (move : Move label c d) : Geometric d := by
  intro torrent loaded wellFormed covered
  by_cases reshapes : label.Reshapes
  · cases move with
    | load _ loads =>
      cases loaded
      exact fits_load wellFormed covered addressable loads rfl rfl
    | wipe fresh =>
      subst fresh
      refine ⟨fun p _ => .inr ?_, fun _ _ => rfl⟩
      exact (Nat.min_le_left _ _).trans (Nat.zero_le _)
    | assemble assembles =>
      have fits := geometric torrent loaded wellFormed covered
      rcases assembles with same | ⟨q, inside, unset, estimate⟩
      · exact fits.of_sameGeometry same rfl rfl
      · exact fits_estimate wellFormed sound.consistent.addressable fits loaded inside unset estimate
    | _ => exact reshapes.elim
  · have notLoad : ∀ torrent, label ≠ .load torrent := by
      rintro torrent rfl
      exact reshapes trivial
    obtain ⟨same, roots⟩ := move.geometry sound.consistent reshapes
    rw [move.torrent notLoad] at loaded
    exact (geometric torrent loaded wellFormed covered).of_sameGeometry same roots
      (move.length_bitfield sound.consistent notLoad)

structure WellShaped (size : ℕ) (b : BlockRequest) : Prop where
  aligned : blockSize ∣ b.2.1
  nonempty : 0 < b.2.2
  short : b.2.2 ≤ blockSize
  inside : b.2.1 + b.2.2 ≤ size

theorem Fits.wellShaped (fits : Fits torrent c) (wellFormed : torrent.WellFormed) (loaded : c.torrent = some torrent)
    (existing : b.1 < c.pm.bitfield.length) (requestable : c.Requestable b) : WellShaped (c.pieceSize b.1) b := by
  obtain ⟨torrent', addr, known, offered, isRequest, nonempty⟩ := requestable
  obtain rfl := Option.mem_unique loaded known
  obtain ⟨i, rfl, -⟩ := BlockManager.mem_pieceBlockAddresses (mem_requestable offered)
  have size : c.pieceSize b.1 = pieceSizeOf torrent c.roots b.1 := by rw [Core.pieceSize, loaded]
  obtain ⟨-, below, -⟩ := wellFormed.pieceLen
  obtain ⟨p, start, len⟩ := b
  dsimp only at existing nonempty size
  simp only [requestFor, Prod.mk.injEq, BlockManager.blockAt] at isRequest
  obtain ⟨-, rfl, isLength⟩ := isRequest
  have bound : len ≤ blockSize ∧ i * blockSize + len ≤ pieceSizeOf torrent c.roots p := by
    rcases fits.bounded p existing with ⟨root, rest, file⟩ | smaller
    · have narrow : u32 (min torrent.pieceLen (remainingInFile torrent root p)) =
          min torrent.pieceLen (remainingInFile torrent root p) := u32_of_lt (by omega)
      simp only [calcV2Limit, file, narrow] at isLength
      simp only [pieceSizeOf, file]
      omega
    · cases limit : calcV2Limit torrent c.roots p with
      | none | some =>
        simp only [limit] at isLength
        omega
  exact ⟨⟨i, Nat.mul_comm i blockSize⟩, Nat.pos_of_ne_zero nonempty, bound.1, size ▸ bound.2⟩

end Scheduler

end Superseedr
