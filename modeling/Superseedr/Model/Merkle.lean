import Mathlib.Data.Nat.Log
import Superseedr.ToMathlib.MerkleTree
import Superseedr.Model.BlockManager

/-! # Verification against Merkle roots

A piece of version 2 is hashed as a tree over its blocks of 16 KiB. Without siblings its root has to be
the target itself; with siblings the climb from it has to end in the target. The worker clears the bytes
behind the end of the file first. SHA-256 is a parameter: what matters is the width of its digests.
-/

namespace Superseedr

/-- A hash function with digests of 32 bytes. -/
structure Sha256 where
  digest : Bytes → Bytes
  width : ∀ input, (digest input).length = 32

/-- `slice::chunks`. -/
def chunks (size : ℕ) (bytes : Bytes) : List Bytes :=
  (List.range (divCeil bytes.length size)).map fun i => (bytes.drop (i * size)).take size

/-- The height of the smallest perfect tree with room for some leaves. -/
def treeHeight (leaves : ℕ) : ℕ := Nat.clog 2 leaves

/-- `usize::next_power_of_two`. -/
def nextPowerOfTwo (x : ℕ) : ℕ := 2 ^ treeHeight x

/-- The digest that stands for a block behind the end of the data. -/
def emptyHash : Bytes := List.replicate 32 0

namespace Sha256

variable (sha : Sha256)

/-- The digest of two nodes side by side. -/
def combine (left right : Bytes) : Bytes := sha.digest (left ++ right)

/-- Hash a layer in pairs; a last node without partner is hashed alone. -/
def pairUp : List Bytes → List Bytes
  | first :: second :: rest => sha.combine first second :: pairUp rest
  | [last] => [sha.digest last]
  | [] => []

/-- Hash layer after layer until one node is left; every round shortens the layer. -/
def reduceLayer : ℕ → List Bytes → List Bytes
  | 0, layer => layer
  | fuel + 1, layer => if 1 < layer.length then reduceLayer fuel (sha.pairUp layer) else layer

/-- `compute_v2_piece_root`: there always is a first leaf, so the last layer is never empty. -/
def computeV2PieceRoot (data : Bytes) (expectedLen : ℕ) : Bytes :=
  let leafCount := nextPowerOfTwo (divCeil expectedLen blockSize)
  let layer := (chunks blockSize data).map sha.digest
  let padded := layer ++ List.replicate (leafCount - layer.length) emptyHash
  (sha.reduceLayer padded.length padded).headD []

def verifyMerkleProof (targetHash pieceData : Bytes) (relativeIndex : ℕ) (proof : Bytes) (hashingContextLen : ℕ) :
    Bool :=
  let calculated := sha.computeV2PieceRoot pieceData hashingContextLen
  if proof = [] then calculated = targetHash
  else MerkleTree.climb sha.combine calculated relativeIndex (chunks 32 proof) = targetHash

/-- The worker behind `Effect::VerifyPieceV2`: the accepted data, or `none` for a rejected piece. -/
def verifyPieceV2 (proof data rootHash : Bytes) (validLength relativeIndex hashingContextLen : ℕ) : Option Bytes :=
  let padded :=
    if validLength < data.length then data.take validLength ++ List.replicate (data.length - validLength) 0
    else data
  if sha.verifyMerkleProof rootHash padded relativeIndex proof hashingContextLen then some padded else none

end Sha256

end Superseedr
