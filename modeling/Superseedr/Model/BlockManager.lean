import Superseedr.Model.Basic

/-! # The block engine

Pieces are transferred in blocks of 16 KiB. The engine knows the geometry of the torrent, assembles
arriving blocks into whole pieces, and remembers which blocks of the global grid are complete. The
tables of assemblers and of shortened pieces are only read by key and are functions here. The
peer-side bookkeeping of single blocks, which the reducer never fills, is left out.
-/

namespace Superseedr

def blockSize : ℕ := 16384

/-- A piece being put together. -/
structure LegacyAssembler where
  buffer : Bytes
  receivedBlocks : ℕ
  totalBlocks : ℕ
  mask : List Bool

structure BlockAddress where
  pieceIndex : ℕ
  blockIndex : ℕ
  byteOffset : ℕ
  globalOffset : ℕ
  length : ℕ
deriving DecidableEq, Repr

structure BlockManager where
  blockBitfield : List Bool
  pieceLengths : ℕ → Option ℕ
  legacyBuffers : ℕ → Option LegacyAssembler
  pieceLength : ℕ
  totalLength : ℕ
  totalBlocks : ℕ

namespace BlockManager

variable (bm : BlockManager) (pieceIndex : ℕ)

def new : BlockManager := ⟨[], fun _ => none, fun _ => none, 0, 0, 0⟩

/-- Fix the geometry. The source counts blocks in floating point; the quotient by a power of two
is exact below 2^53 and saturates at `u32::MAX` long before rounding could show. -/
def setGeometry (pieceLength totalLength : ℕ) (pieceOverrides : ℕ → Option ℕ) (validationComplete : Bool) :
    BlockManager :=
  let totalBlocks := min (divCeil totalLength blockSize) (2 ^ 32 - 1)
  { bm with
    pieceLength, totalLength, totalBlocks
    pieceLengths := pieceOverrides
    blockBitfield := List.replicate totalBlocks validationComplete }

/-- The size of a piece: an explicit override, or what remains of the stream. -/
def calculatePieceSize (pieceIdx : ℕ) : ℕ :=
  match bm.pieceLengths pieceIdx with
  | some len => len
  | none => min bm.pieceLength (bm.totalLength - pieceIdx * bm.pieceLength)

def blocksInPiece (pieceLen : ℕ) : ℕ := divCeil pieceLen blockSize

/-- The half-open range of a piece in the global block grid. -/
def getBlockRange (pieceIdx : ℕ) : ℕ × ℕ :=
  let startBlk := u32 (pieceIdx * bm.pieceLength / blockSize)
  let actualStart := min startBlk bm.totalBlocks
  (actualStart, min (u32 (actualStart + blocksInPiece (bm.calculatePieceSize pieceIdx))) bm.totalBlocks)

/-- Whether pieces end inside blocks, so that one global block belongs to two pieces. -/
def isNonAlignedPieceGrid : Bool :=
  bm.pieceLength ≠ 0 && bm.pieceLength % blockSize ≠ 0

def inflateAddressFromOverlay (pieceIndex byteOffset length : ℕ) : Option BlockAddress :=
  if satAdd32 byteOffset length > bm.calculatePieceSize pieceIndex then none
  else some
    { pieceIndex, byteOffset, length
      blockIndex := byteOffset / blockSize
      globalOffset := pieceIndex * bm.pieceLength + byteOffset }

def pieceBlockAddresses : List BlockAddress :=
  let pieceLen := bm.calculatePieceSize pieceIndex
  (List.range (blocksInPiece pieceLen)).filterMap fun blockIndex =>
    let byteOffset := blockIndex * blockSize
    let length := min blockSize (pieceLen - byteOffset)
    if length = 0 then none else bm.inflateAddressFromOverlay pieceIndex byteOffset length

/-- The position of a block in the global grid. -/
def flattenAddress (addr : BlockAddress) : ℕ := u32 (addr.globalOffset / blockSize)

private def setRange (bits : List Bool) (range : ℕ × ℕ) (value : Bool) : List Bool :=
  bits.mapIdx fun i bit => if range.1 ≤ i ∧ i < range.2 then value else bit

/-- Mark all blocks of a piece as complete and drop its assembler. -/
def commitV1Piece : BlockManager :=
  { bm with
    blockBitfield := setRange bm.blockBitfield (bm.getBlockRange pieceIndex) true
    legacyBuffers := fun p => if p = pieceIndex then none else bm.legacyBuffers p }

/-- Mark all blocks of a piece as missing and drop its assembler. -/
def revertV1PieceCompletion : BlockManager :=
  { bm with
    blockBitfield := setRange bm.blockBitfield (bm.getBlockRange pieceIndex) false
    legacyBuffers := fun p => if p = pieceIndex then none else bm.legacyBuffers p }

def resetV1Buffer : BlockManager :=
  { bm with legacyBuffers := fun p => if p = pieceIndex then none else bm.legacyBuffers p }

/-- The assembler of a piece, or a fresh one of the piece's current size. -/
def assemblerFor : LegacyAssembler :=
  (bm.legacyBuffers pieceIndex).getD
    { buffer := List.replicate (bm.calculatePieceSize pieceIndex) 0
      receivedBlocks := 0
      totalBlocks := blocksInPiece (bm.calculatePieceSize pieceIndex)
      mask := List.replicate (blocksInPiece (bm.calculatePieceSize pieceIndex)) false }

/-- Copy one block into an assembler. Blocks that do not fit or are already there are ignored; a
block that fits the buffer but has no slot in the mask panics. -/
def acceptBlock (assembler : LegacyAssembler) (addr : BlockAddress) (data : Bytes) : Option LegacyAssembler :=
  if addr.byteOffset + data.length ≤ assembler.buffer.length then
    match assembler.mask[addr.blockIndex]? with
    | none => none
    | some true => some assembler
    | some false => some
      { assembler with
        buffer := assembler.buffer.take addr.byteOffset ++ data ++
          assembler.buffer.drop (addr.byteOffset + data.length)
        mask := assembler.mask.set addr.blockIndex true
        receivedBlocks := assembler.receivedBlocks + 1 }
  else some assembler

/-- Buffer one block; the block that completes its piece removes the assembler and yields the
whole piece. -/
def handleV1BlockBuffering (addr : BlockAddress) (data : Bytes) : Option (BlockManager × Option Bytes) :=
  let assembler := bm.assemblerFor addr.pieceIndex
  let store (entry : Option LegacyAssembler) : BlockManager :=
    { bm with legacyBuffers := fun p => if p = addr.pieceIndex then entry else bm.legacyBuffers p }
  if assembler.receivedBlocks = assembler.totalBlocks then some (store (some assembler), none)
  else do
    let filled ← acceptBlock assembler addr data
    if filled.receivedBlocks = filled.totalBlocks then some (store none, some filled.buffer)
    else some (store (some filled), none)

end BlockManager

end Superseedr
