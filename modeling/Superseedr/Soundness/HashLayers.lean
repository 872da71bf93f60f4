import Superseedr.Model.Merkle
import Superseedr.Soundness.PieceSpace

/-! # The hashes the metadata fixes

The content of a file fixes one hash a piece, its piece layer, and the root in the metadata is the root of
the tree over that layer. A climb as high as this tree that ends in the root starts from the hash of its
piece: a climb of another height says nothing, and so does a single hash that is not climbed at all.
-/

namespace Superseedr

open MerkleTree List

variable {i pieceLen fuel height expectedLen q : ℕ} {fallback data x y proof : Bytes} {siblings others : List Bytes}
  {roots : List V2RootInfo} {known : Option Bytes}

theorem le_two_pow_treeHeight (leaves : ℕ) : leaves ≤ 2 ^ treeHeight leaves := Nat.le_pow_clog Nat.one_lt_two leaves

section Chunks

theorem divCeil_mul (size count : ℕ) (positive : 0 < size) : divCeil (size * count) size = count := by
  unfold divCeil
  rw [show size * count + size - 1 = size - 1 + size * count by omega, Nat.add_mul_div_left _ _ positive,
    Nat.div_eq_of_lt (by omega), Nat.zero_add]

variable {size count : ℕ} {bytes : Bytes}

theorem length_chunks (positive : 0 < size) (whole : bytes.length = size * count) :
    (chunks size bytes).length = count := by
  rw [chunks, length_map, length_range, whole, divCeil_mul size count positive]

variable {pieces : List Bytes} (wide : ∀ piece ∈ pieces, piece.length = size)
include wide

theorem slice_flatten (inside : i < pieces.length) :
    pieces[i]? = some ((pieces.flatten.drop (i * size)).take size) := by
  induction pieces generalizing i with
  | nil => cases inside
  | cons piece rest ih =>
    have width := wide piece (.head _)
    cases i with
    | zero => simp [← width]
    | succ i =>
      rw [getElem?_cons_succ, ih (fun later member => wide later (.tail piece member)) (by simpa using inside)]
      have later : (i + 1) * size = piece.length + i * size := by rw [Nat.succ_mul, width, Nat.add_comm]
      rw [flatten_cons, later, drop_append, Nat.add_sub_cancel_left,
        drop_eq_nil_of_le (Nat.le_add_right _ _), nil_append]

theorem length_flatten_of_wide : pieces.flatten.length = pieces.length * size := by
  induction pieces with
  | nil => simp
  | cons piece rest ih =>
    rw [flatten_cons, length_append, wide piece (.head _),
      ih fun later member => wide later (.tail piece member), length_cons, Nat.succ_mul,
      Nat.add_comm]

/-- Pieces of equal size put end to end fall apart into these pieces. -/
theorem chunks_flatten (positive : 0 < size) : chunks size pieces.flatten = pieces := by
  have length := length_chunks positive ((length_flatten_of_wide wide).trans (Nat.mul_comm _ _))
  refine ext_getElem? fun i => ?_
  rcases lt_or_ge i pieces.length with inside | outside
  · rw [slice_flatten wide inside, chunks, getElem?_map, getElem?_range]
    · rfl
    · rwa [← length, chunks, length_map, length_range] at inside
  · rw [getElem?_eq_none outside, getElem?_eq_none (length ▸ outside)]

end Chunks

namespace Sha256

variable (sha : Sha256)

/-- The hash that stands for a piece behind the end of a file. -/
def padHash (pieceLen : ℕ) : Bytes :=
  node sha.combine (fun _ => emptyHash) (treeHeight (divCeil pieceLen blockSize)) 0

/-- A piece layer as the leaves of a tree. -/
def leafOf (pieceLen : ℕ) (layer : List Bytes) (i : ℕ) : Bytes := layer[i]?.getD (sha.padHash pieceLen)

def layerRoot (pieceLen : ℕ) (layer : List Bytes) : Bytes :=
  node sha.combine (sha.leafOf pieceLen layer) (treeHeight layer.length) 0

def CollisionFree (inputs : List Bytes) : Prop :=
  ∀ x ∈ inputs, ∀ y ∈ inputs, sha.digest x = sha.digest y → x = y

/-- What is hashed to build the tree above a piece. -/
def layerInputs (pieceLen : ℕ) (layer : List Bytes) (i : ℕ) : List Bytes :=
  (above sha.combine (sha.leafOf pieceLen layer) (treeHeight layer.length) i).map fun pair => pair.1 ++ pair.2

/-- What is hashed on the climb along a proof. -/
def climbInputs (x : Bytes) (i : ℕ) (proof : Bytes) : List Bytes :=
  (climbed sha.combine x i (chunks 32 proof)).map fun pair => pair.1 ++ pair.2

variable {sha} {layer : List Bytes}

theorem length_combine (left right : Bytes) : (sha.combine left right).length = 32 := sha.width _

theorem length_padHash (pieceLen : ℕ) : (sha.padHash pieceLen).length = 32 :=
  forall_node (P := fun hash : Bytes => hash.length = 32) length_combine (fun _ => rfl) _ _

theorem length_getD (wide : ∀ hash ∈ layer, hash.length = 32) (width : fallback.length = 32) (i : ℕ) :
    (layer[i]?.getD fallback).length = 32 := by
  cases found : layer[i]? with
  | none => exact width
  | some hash => exact wide hash (mem_of_getElem? found)

theorem length_leafOf (wide : ∀ hash ∈ layer, hash.length = 32) (i : ℕ) : (sha.leafOf pieceLen layer i).length = 32 :=
  length_getD wide (length_padHash pieceLen) i

theorem pairUp_wide : ∀ hash ∈ sha.pairUp layer, hash.length = 32 := by
  fun_induction pairUp sha layer with
  | case1 first second rest ih => simpa using ⟨length_combine first second, ih⟩
  | case2 last => simpa using sha.width last
  | case3 => simp

theorem pairUp_ne_nil (nonempty : layer ≠ []) : sha.pairUp layer ≠ [] := by
  fun_cases pairUp sha layer with
  | case1 => simp
  | case2 => simp
  | case3 => exact absurd rfl nonempty

theorem reduceLayer_wide (nonempty : layer ≠ []) (wide : ∀ hash ∈ layer, hash.length = 32) :
    ((sha.reduceLayer fuel layer).headD []).length = 32 := by
  induction fuel generalizing layer with
  | zero =>
    obtain ⟨first, rest, rfl⟩ := exists_cons_of_ne_nil nonempty
    exact wide first (.head _)
  | succ fuel ih =>
    unfold reduceLayer
    split_ifs
    · exact ih (pairUp_ne_nil nonempty) pairUp_wide
    · obtain ⟨first, rest, rfl⟩ := exists_cons_of_ne_nil nonempty
      exact wide first (.head _)

/-- The root of a piece is a digest or padding, so it is as wide as one. -/
theorem length_computeV2PieceRoot (data : Bytes) (expectedLen : ℕ) :
    (sha.computeV2PieceRoot data expectedLen).length = 32 := by
  refine reduceLayer_wide (fun empty => ?_) fun hash member => ?_
  · have leaves : 0 < nextPowerOfTwo (divCeil expectedLen blockSize) := Nat.two_pow_pos _
    have length := congrArg length empty
    simp only [length_append, length_replicate, length_nil] at length
    omega
  · rcases mem_append.mp member with hashed | padding
    · obtain ⟨chunk, -, rfl⟩ := mem_map.mp hashed
      exact sha.width chunk
    · rw [eq_of_mem_replicate padding]
      rfl

/-- Hashing a layer of an even number of nodes in pairs. -/
theorem pairUp_range (leaf : ℕ → Bytes) (count : ℕ) :
    sha.pairUp ((range (2 * count)).map leaf) = (range count).map (node sha.combine leaf 1) := by
  induction count generalizing leaf with
  | zero => rfl
  | succ count ih =>
    have later := ih fun j => leaf (j + 2)
    rw [Nat.mul_succ, range_succ_eq_map, range_succ_eq_map, range_succ_eq_map]
    simp only [map_cons, map_map, pairUp, Function.comp_def] at later ⊢
    rw [later]
    rfl

/-- Hashing a full layer leads to the root of the tree over it. -/
theorem reduceLayer_range (leaf : ℕ → Bytes) (enough : height ≤ fuel) :
    sha.reduceLayer fuel ((range (2 ^ height)).map leaf) = [node sha.combine leaf height 0] := by
  induction height generalizing leaf fuel with
  | zero => cases fuel <;> rfl
  | succ height ih =>
    obtain ⟨less, rfl⟩ : ∃ less, fuel = less + 1 := ⟨fuel - 1, by omega⟩
    have leaves : 0 < 2 ^ height := Nat.two_pow_pos height
    rw [reduceLayer, if_pos (by rw [length_map, length_range]; omega), Nat.pow_succ', pairUp_range,
      ih _ (by omega), node_node]

theorem computeV2PieceRoot_eq (short : data.length ≤ expectedLen) :
    sha.computeV2PieceRoot data expectedLen =
      node sha.combine (fun i => ((chunks blockSize data).map sha.digest)[i]?.getD emptyHash)
        (treeHeight (divCeil expectedLen blockSize)) 0 := by
  have fits : ((chunks blockSize data).map sha.digest).length ≤ 2 ^ treeHeight (divCeil expectedLen blockSize) := by
    rw [length_map, chunks, length_map, length_range]
    exact le_trans (Nat.div_le_div_right (by omega)) (le_two_pow_treeHeight _)
  rw [computeV2PieceRoot, nextPowerOfTwo]
  generalize (chunks blockSize data).map sha.digest = layer at fits ⊢
  generalize treeHeight (divCeil expectedLen blockSize) = height at fits ⊢
  have padded : layer ++ replicate (2 ^ height - layer.length) emptyHash =
      (range (2 ^ height)).map fun i => layer[i]?.getD emptyHash := by
    refine ext_getElem (by simp; omega) fun i inside _ => ?_
    rw [getElem_map, getElem_range, getElem_append]
    split_ifs with hashed
    · rw [getElem?_eq_getElem hashed]
      rfl
    · rw [getElem_replicate, getElem?_eq_none (not_lt.mp hashed)]
      rfl
  rw [padded, length_map, length_range, reduceLayer_range _ (Nat.le_of_lt Nat.lt_two_pow_self)]
  rfl

/-- Two climbs of the same height from different digests to the same one hash different inputs to the same digest. -/
theorem collision_of_climb (width : x.length = 32) (width' : y.length = 32) (different : x ≠ y)
    (even : siblings.length = others.length) (meet : climb sha.combine x i siblings = climb sha.combine y i others) :
    ∃ a ∈ (climbed sha.combine x i siblings).map fun pair => pair.1 ++ pair.2,
      ∃ b ∈ (climbed sha.combine y i others).map fun pair => pair.1 ++ pair.2, a ≠ b ∧ sha.digest a = sha.digest b := by
  obtain ⟨j, u, v, sibling, other, isU, isV, apart, climbs, climbs', same⟩ :=
    exists_meeting (P := fun hash : Bytes => hash.length = 32) length_combine width width' different even meet
  refine ⟨_, mem_map_of_mem climbs, _, mem_map_of_mem climbs', fun joined => apart ?_, same⟩
  -- The nodes on the two ways up are as wide as digests, whatever the siblings are.
  unfold ordered at joined
  split_ifs at joined
  · exact (append_inj joined (isU.trans isV.symm)).1
  · exact (append_inj' joined (isU.trans isV.symm)).2

theorem getElem?_of_climb (wide : ∀ hash ∈ layer, hash.length = 32) (width : x.length = 32) (inside : i < layer.length)
    (full : proof.length = 32 * treeHeight layer.length)
    (free : sha.CollisionFree (sha.layerInputs pieceLen layer i ++ sha.climbInputs x i proof))
    (reached : climb sha.combine x i (chunks 32 proof) = sha.layerRoot pieceLen layer) : layer[i]? = some x := by
  have height := length_chunks (by decide) full
  have top := Nat.div_eq_of_lt (lt_of_lt_of_le inside (le_two_pow_treeHeight _))
  have ends := @climb_siblingsOf _ sha.combine (sha.leafOf pieceLen layer) (treeHeight layer.length) i
  rw [top] at ends
  have start : x = sha.leafOf pieceLen layer i := by
    by_contra different
    obtain ⟨a, climbs, b, builds, apart, same⟩ := collision_of_climb width (length_leafOf wide i) different
      (height.trans (length_siblingsOf ..).symm) (reached.trans ends.symm)
    rw [climbed_siblingsOf] at builds
    exact apart (free a (mem_append_right _ climbs) b (mem_append_left _ builds) same)
  rw [getElem?_eq_getElem inside, start, leafOf, getElem?_eq_getElem inside]
  rfl

section Verdicts

variable {rootHash accepted : Bytes} {validLength contextLen : ℕ}

/-- Data is accepted if the climb from its root ends in the target; without siblings there is nothing to climb. -/
theorem verifyMerkleProof_iff : sha.verifyMerkleProof rootHash data i proof contextLen = true ↔
    climb sha.combine (sha.computeV2PieceRoot data contextLen) i (chunks 32 proof) = rootHash := by
  unfold verifyMerkleProof
  split_ifs with direct
  · rw [direct, decide_eq_true_eq]
    rfl
  · rw [decide_eq_true_eq]

theorem verifyPieceV2_climbs
    (accepts : sha.verifyPieceV2 proof data rootHash validLength i contextLen = some accepted) :
    climb sha.combine (sha.computeV2PieceRoot accepted contextLen) i (chunks 32 proof) = rootHash := by
  simp only [verifyPieceV2, verifyMerkleProof_iff, Option.ite_none_right_eq_some, Option.some.injEq] at accepts
  obtain ⟨same, rfl⟩ := accepts
  exact same

theorem verifyPieceV2_direct (accepts : sha.verifyPieceV2 [] data rootHash validLength i contextLen = some accepted) :
    sha.computeV2PieceRoot accepted contextLen = rootHash :=
  verifyPieceV2_climbs accepts

/-- The leaf of a perfect tree is accepted with its siblings; data with different roots that are accepted at the same
position with proofs of the same length yield a collision; the root of a piece is that of the perfect tree over the
digests of its blocks, padded with zeros to the next power of two of the expected number of blocks. -/
theorem merkle_verification (sha : Sha256) :
    (∀ (leaves : List Bytes) (height i : ℕ) (data : Bytes) (contextLen : ℕ), leaves.length = 2 ^ height →
      (∀ hash ∈ leaves, hash.length = 32) → leaves[i]? = some (sha.computeV2PieceRoot data contextLen) →
      sha.verifyMerkleProof (node sha.combine (fun j => leaves[j]?.getD emptyHash) height 0) data i
        (siblingsOf sha.combine (fun j => leaves[j]?.getD emptyHash) height i).flatten contextLen = true) ∧
    (∀ (target data other proof otherProof : Bytes) (i contextLen otherLen : ℕ), proof.length = otherProof.length →
      sha.computeV2PieceRoot data contextLen ≠ sha.computeV2PieceRoot other otherLen →
      sha.verifyMerkleProof target data i proof contextLen = true →
      sha.verifyMerkleProof target other i otherProof otherLen = true →
      ∃ a ∈ sha.climbInputs (sha.computeV2PieceRoot data contextLen) i proof,
        ∃ b ∈ sha.climbInputs (sha.computeV2PieceRoot other otherLen) i otherProof,
          a ≠ b ∧ sha.digest a = sha.digest b) ∧
    ∀ (data : Bytes) (expectedLen : ℕ), data.length ≤ expectedLen →
      sha.computeV2PieceRoot data expectedLen =
        node sha.combine (fun i => ((chunks blockSize data).map sha.digest)[i]?.getD emptyHash)
          (treeHeight (divCeil expectedLen blockSize)) 0 := by
  refine ⟨fun leaves height i data contextLen full wide isLeaf => ?_,
    fun target data other proof otherProof i contextLen otherLen even different accepts accepts' => ?_,
    fun data expectedLen => computeV2PieceRoot_eq⟩
  · obtain ⟨inside, -⟩ := List.getElem?_eq_some_iff.mp isLeaf
    have climbs := @climb_siblingsOf _ sha.combine (fun j => leaves[j]?.getD emptyHash) height i
    simp only [isLeaf, Option.getD_some, Nat.div_eq_of_lt (full ▸ inside)] at climbs
    rw [verifyMerkleProof_iff, chunks_flatten (fun sibling beside => forall_siblingsOf
      (P := fun hash : Bytes => hash.length = 32) length_combine (length_getD wide rfl) beside) (by decide), climbs]
  · rw [verifyMerkleProof_iff] at accepts accepts'
    have chunked : (chunks 32 proof).length = (chunks 32 otherProof).length := by simp [chunks, even]
    exact collision_of_climb (length_computeV2PieceRoot ..) (length_computeV2PieceRoot ..) different chunked
      (accepts.trans accepts'.symm)

end Verdicts

end Sha256

namespace Torrent

/-- The piece layer of a file: the root itself for a file of one piece. -/
def fixedLayer (layers : Bytes → List Bytes) (pieceLen : ℕ) (root : V2RootInfo) : List Bytes :=
  if root.length ≤ pieceLen then [root.rootHash] else layers root.rootHash

structure AuthoredFile (sha : Sha256) (layers : Bytes → List Bytes) (torrent : Torrent) (root : V2RootInfo) : Prop where
  complete : (fixedLayer layers torrent.pieceLen root).length = divCeil root.length torrent.pieceLen
  wide : ∀ hash ∈ fixedLayer layers torrent.pieceLen root, hash.length = 32
  top : sha.layerRoot torrent.pieceLen (fixedLayer layers torrent.pieceLen root) = root.rootHash
  stored : ∀ layer, torrent.getLayerHashes root.rootHash = some layer →
    layer = (fixedLayer layers torrent.pieceLen root).flatten

/-- Version 2 metadata made from content with the given piece layers, with offsets of 32 bits. -/
structure Authored (sha : Sha256) (layers : Bytes → List Bytes) (torrent : Torrent) : Prop where
  space : torrent.Space
  small : filePieces torrent.pieceLen torrent.sortedV2Roots * torrent.pieceLen < 2 ^ 32
  files : ∀ p root, torrent.calculateV2Mapping.pieceToRoots p = some [root] → AuthoredFile sha layers torrent root

variable {sha : Sha256} {layers : Bytes → List Bytes} {torrent : Torrent} {p : ℕ} {root : V2RootInfo}

/-- A piece with files belongs to one file, whose offsets fit into 32 bits. -/
theorem Authored.single (authored : torrent.Authored sha layers)
    (mapped : torrent.calculateV2Mapping.pieceToRoots p = some roots) :
    ∃ root, roots = [root] ∧ root.Covers torrent.pieceLen p ∧ p * torrent.pieceLen + torrent.pieceLen < 2 ^ 32 ∧
      divCeil root.length torrent.pieceLen * torrent.pieceLen < 2 ^ 32 := by
  obtain ⟨inside, root, single, placed⟩ := authored.space.single mapped
  refine ⟨root, single, placed.covers, ?_, ?_⟩
  · rw [← Nat.succ_mul]
    exact lt_of_le_of_lt (Nat.mul_le_mul_right _ inside) authored.small
  · have whole := (Nat.le_add_left _ _).trans placed.last_le
    exact lt_of_le_of_lt (Nat.mul_le_mul_right _ whole) authored.small

theorem Authored.getV2HashLayer (authored : torrent.Authored sha layers)
    (mapped : torrent.calculateV2Mapping.pieceToRoots p = some [root])
    (lookup : torrent.getV2HashLayer p root.fileOffset root.length 1 root.rootHash = some known) :
    (∃ target, known = some target ∧
      (fixedLayer layers torrent.pieceLen root)[p - root.fileOffset / torrent.pieceLen]? = some target) ∨
    (known = none ∧ torrent.getLayerHashes root.rootHash = none ∧ torrent.pieceLen < root.length) := by
  have file := authored.files p root mapped
  obtain ⟨found, single, covers, position, -⟩ := authored.single mapped
  obtain rfl : root = found := by simpa using single
  have positive := authored.space.positive
  have inside : p - root.fileOffset / torrent.pieceLen < (fixedLayer layers torrent.pieceLen root).length := by
    have first := covers.first
    have last := covers.last
    rw [file.complete]
    omega
  have offset := covers.fileOffset_le
  rw [Torrent.getV2HashLayer, if_neg (by omega), u32_of_lt (by omega), if_neg (by omega), u32_of_lt (by omega),
    if_neg (not_lt.mpr covers.first)] at lookup
  dsimp only at lookup
  cases stored : torrent.getLayerHashes root.rootHash with
  | some layer =>
    left
    have whole := file.stored layer stored
    have room : layer.length / 32 = (fixedLayer layers torrent.pieceLen root).length := by
      rw [whole, length_flatten_of_wide file.wide, Nat.mul_div_cancel _ (by decide)]
    rw [stored] at lookup
    dsimp only at lookup
    rw [if_pos (by omega)] at lookup
    cases lookup
    refine ⟨_, rfl, ?_⟩
    rw [whole, Nat.one_mul]
    exact slice_flatten file.wide inside
  | none =>
    rw [stored] at lookup
    by_cases short : root.length ≤ torrent.pieceLen
    · left
      have only : (fixedLayer layers torrent.pieceLen root) = [root.rootHash] := if_pos short
      rw [only, length_singleton] at inside
      have first : p - root.fileOffset / torrent.pieceLen = 0 := by omega
      rw [if_pos ⟨short, first, rfl⟩] at lookup
      exact ⟨root.rootHash, (Option.some.inj lookup).symm, by rw [only, first]; rfl⟩
    · right
      rw [if_neg fun holds => short holds.1] at lookup
      exact ⟨(Option.some.inj lookup).symm, rfl, not_le.mp short⟩

theorem getV2HashLayer_of_unknown (unknown : torrent.getLayerHashes root.rootHash = none)
    (long : torrent.pieceLen < root.length)
    (lookup : torrent.getV2HashLayer q root.fileOffset root.length 1 root.rootHash = some known) : known = none := by
  simp only [Torrent.getV2HashLayer, unknown, not_le.mpr long, false_and, if_false] at lookup
  split_ifs at lookup <;> exact (Option.some.inj lookup).symm

end Torrent

end Superseedr
