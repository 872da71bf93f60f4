import Superseedr.ToMathlib.AssocMap
import Superseedr.ToMathlib.ListQueue
import Superseedr.Model.BlockManager

/-! # The piece manager

Every missing piece waits in the need queue or is pending at one or more peers. The manager moves
pieces between the two, marks them as done, puts them back after a failure, and keeps pieces of
skipped files out of the need queue. Indexing past the end of a vector panics, and the operations
that index a vector return an `Option` for that reason.
-/

namespace Superseedr

/-- Peers are keyed by their address text. -/
abbrev PeerId := String

inductive PieceStatus where
  | need
  | done
deriving DecidableEq, Repr

inductive EffectivePiecePriority where
  | skip
  | normal
  | high
deriving DecidableEq, Repr

structure PieceManager where
  bitfield : List PieceStatus
  needQueue : List ℕ
  pendingQueue : AList fun _ : ℕ => List PeerId
  pieceRarity : ℕ → Option ℕ
  piecesRemaining : ℕ
  piecePriorities : List EffectivePiecePriority
  blockManager : BlockManager

namespace PieceManager

variable (pm : PieceManager) (pieceIndex : ℕ)

def new : PieceManager := ⟨[], [], ∅, fun _ => none, 0, [], .new⟩

def setGeometry (pieceLength totalLength : ℕ) (pieceOverrides : ℕ → Option ℕ) (validationComplete : Bool) :
    PieceManager :=
  { pm with
    blockManager := pm.blockManager.setGeometry pieceLength totalLength pieceOverrides validationComplete }

def setInitialFields (numPieces : ℕ) (validationComplete : Bool) : PieceManager :=
  let needQueue := if validationComplete then [] else (List.range numPieces).map u32
  { pm with
    bitfield := List.replicate numPieces (if validationComplete then .done else .need)
    needQueue
    piecePriorities := []
    piecesRemaining := needQueue.length }

/-- Give one piece its new priority and move it out of or into the need queue accordingly. The
second component collects the pieces that became unwanted while pending. -/
def applyPriority (acc : PieceManager × List ℕ) (entry : EffectivePiecePriority × ℕ) : Option (PieceManager × List ℕ) :=
  let (pm, cancelled) := acc
  let (newPrio, idx) := entry
  let piece := u32 idx
  pm.piecePriorities[idx]?.map fun oldPrio =>
    if newPrio = oldPrio then (pm, cancelled)
    else
      let changed := { pm with piecePriorities := pm.piecePriorities.set idx newPrio }
      if pm.bitfield[idx]? = some .done then (changed, cancelled)
      else if newPrio = .skip then
        ({ changed with needQueue := pm.needQueue.swapErase piece },
          if piece ∈ pm.pendingQueue then cancelled ++ [piece] else cancelled)
      else if oldPrio = .skip ∧ piece ∉ pm.needQueue ∧ piece ∉ pm.pendingQueue then
        ({ changed with needQueue := pm.needQueue ++ [piece] }, cancelled)
      else (changed, cancelled)

/-- Replace the priority of every piece. An empty vector stands for all pieces being normal. -/
def applyPriorities (newPriorities : List EffectivePiecePriority) : Option (PieceManager × List ℕ) :=
  if newPriorities.length ≠ pm.bitfield.length then some ({ pm with piecePriorities := [] }, [])
  else do
    let start :=
      if pm.piecePriorities = [] then
        { pm with piecePriorities := List.replicate pm.bitfield.length .normal }
      else pm
    let (applied, cancelled) ← newPriorities.zipIdx.foldlM applyPriority (start, [])
    if applied.piecePriorities.all (· = .normal) then
      some ({ applied with piecePriorities := [] }, cancelled)
    else some (applied, cancelled)

def handleBlock (pieceIndex blockOffset : ℕ) (blockData : Bytes) (pieceSize : ℕ) :
    Option (PieceManager × Option Bytes) :=
  let pm :=
    if pm.blockManager.pieceLength = 0 then
      pm.setGeometry (u32 pieceSize) (u64 ((pieceIndex + 1) * pieceSize)) (fun _ => none) false
    else pm
  match pm.blockManager.inflateAddressFromOverlay pieceIndex blockOffset (u32 blockData.length) with
  | none => some (pm, none)
  | some addr => do
    let (blockManager, complete) ← pm.blockManager.handleV1BlockBuffering addr blockData
    some ({ pm with blockManager }, complete)

/-- Record a verified and written piece; the result lists the peers that were asked for it. -/
def markAsComplete : Option (PieceManager × List PeerId) :=
  match pm.bitfield[pieceIndex]? with
  | some .done => some (pm, [])
  | some .need => some
    ({ pm with
        bitfield := pm.bitfield.set pieceIndex .done
        piecesRemaining := pm.piecesRemaining - 1
        needQueue := pm.needQueue.filter (· ≠ pieceIndex)
        pendingQueue := pm.pendingQueue.erase pieceIndex
        blockManager := pm.blockManager.commitV1Piece pieceIndex },
      (pm.pendingQueue.lookup pieceIndex).getD [])
  | none => none

def resetPieceAssembly : PieceManager :=
  { pm with blockManager := pm.blockManager.resetV1Buffer pieceIndex }

/-- Whether requeueing leaves a piece out of the need queue. -/
def isSkipped? : Option Bool :=
  if pm.piecePriorities = [] then some false
  else pm.piecePriorities[pieceIndex]?.map (· = .skip)

/-- Give up all requests for a piece and want it again. -/
def requeuePendingToNeed : Option PieceManager :=
  (pm.isSkipped? pieceIndex).map fun isSkipped =>
    { pm with
      pendingQueue := pm.pendingQueue.erase pieceIndex
      piecesRemaining :=
        if pm.bitfield[pieceIndex]? = some .done then pm.piecesRemaining + 1 else pm.piecesRemaining
      bitfield := pm.bitfield.set pieceIndex .need
      needQueue :=
        if isSkipped = false ∧ pieceIndex ∉ pm.needQueue then pm.needQueue ++ [pieceIndex] else pm.needQueue
      blockManager := pm.blockManager.revertV1PieceCompletion pieceIndex }

/-- Take one peer off a pending piece; without another owner the piece is wanted again. -/
def releasePendingPeerOrRequeue (peerId : PeerId) : Option PieceManager :=
  match pm.pendingQueue.lookup pieceIndex with
  | none => pm.requeuePendingToNeed pieceIndex
  | some peers =>
    let left := peers.filter (· ≠ peerId)
    let pm := { pm with pendingQueue := pm.pendingQueue.modify pieceIndex fun _ => left }
    if left ≠ [] then some pm else pm.requeuePendingToNeed pieceIndex

/-- Recount how many peers have each piece that is not done yet. -/
def updateRarity (peerBitfields : List (List Bool)) : PieceManager :=
  let count (p : ℕ) : ℕ :=
    (peerBitfields.map fun bits => bits.zipIdx.countP fun (bit, i) => bit && u32 i = p).sum
  { pm with
    pieceRarity := fun p =>
      if count p = 0 ∨ pm.bitfield[p]? = some .done then none else some (count p) }

def markAsPending (peerId : PeerId) : PieceManager :=
  { pm with
    needQueue := pm.needQueue.filter (· ≠ pieceIndex)
    pendingQueue :=
      pm.pendingQueue.insert pieceIndex ((pm.pendingQueue.lookup pieceIndex).getD [] ++ [peerId]) }

def clearAssemblyBuffers : PieceManager :=
  { pm with blockManager := { pm.blockManager with legacyBuffers := fun _ => none } }

def requestableBlockAddressesForPiece : List BlockAddress :=
  let useGlobalHave := !pm.blockManager.isNonAlignedPieceGrid
  let assemblerMask := (pm.blockManager.legacyBuffers pieceIndex).map (·.mask)
  (pm.blockManager.pieceBlockAddresses pieceIndex).filter fun addr =>
    !(assemblerMask.any fun mask => mask[addr.blockIndex]? = some true) &&
      !(useGlobalHave && pm.blockManager.blockBitfield[BlockManager.flattenAddress addr]? = some true)

def cancelTuplesForPiece : List (ℕ × ℕ × ℕ) :=
  (pm.blockManager.pieceBlockAddresses pieceIndex).map fun addr =>
    (addr.pieceIndex, addr.byteOffset, addr.length)

def effectivePriority : EffectivePiecePriority :=
  pm.piecePriorities[pieceIndex]?.getD .normal

end PieceManager

end Superseedr
