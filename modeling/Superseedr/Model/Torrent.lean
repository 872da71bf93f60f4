import Mathlib.Data.List.Sort
import Superseedr.Model.Basic

/-! # Torrent metadata and its version 2 piece space

A torrent of version 2 describes its files in a bencoded tree. Walking the tree gives one path,
length and Merkle root a file; sorting by path fixes the order in which the files take up whole
pieces. The mapping from torrent-wide piece indices to files and the lookup of a piece's hash in
the piece layers are computed here exactly as the client computes them, including the places where
offsets and indices are narrowed to 32 bits.
-/

namespace Superseedr

/-- A bencoded value. A dictionary lists its entries in the order its hash table yields them. -/
inductive Value where
  | int (value : ℤ)
  | bytes (value : Bytes)
  | list (items : List Value)
  | dict (entries : List (Bytes × Value))

def dictGet (entries : List (Bytes × Value)) (key : Bytes) : Option Value :=
  (entries.find? fun entry => entry.1 == key).map Prod.snd

structure InfoFile where
  length : ℤ
  path : List String
  attr : Option String := none

structure Info where
  pieceLength : ℤ
  pieces : Bytes
  files : List InfoFile
  name : String
  length : ℤ
  metaVersion : Option ℤ
  fileTree : Option Value

structure Torrent where
  info : Info
  announce : Option String := none
  announceList : Option (List (List String)) := none
  urlList : Option (List String) := none
  pieceLayers : Option Value := none

/-- One file as seen from a piece that belongs to it. -/
structure V2RootInfo where
  fileOffset : ℕ
  length : ℕ
  rootHash : Bytes
  fileIndex : ℕ
deriving DecidableEq, Repr

/-- The piece space of a version 2 torrent. The hash table is only ever read by key. -/
structure V2Mapping where
  pieceToRoots : ℕ → Option (List V2RootInfo)
  pieceCount : ℕ

private def isContinuation (b : UInt8) : Bool := 0x80 ≤ b && b ≤ 0xBF

private def secondOfThree (first second : UInt8) : Bool :=
  if first = 0xE0 then 0xA0 ≤ second && second ≤ 0xBF
  else if first = 0xED then 0x80 ≤ second && second ≤ 0x9F
  else isContinuation second

private def secondOfFour (first second : UInt8) : Bool :=
  if first = 0xF0 then 0x90 ≤ second && second ≤ 0xBF
  else if first = 0xF4 then 0x80 ≤ second && second ≤ 0x8F
  else isContinuation second

/-- Whether the bytes start with a scalar value, and how many of them that scalar (or, failing
that, the longest beginning of one) takes up. -/
private def scanScalar : Bytes → Bool × ℕ
  | [] => (true, 0)
  | first :: rest =>
    if first < 0x80 then (true, 1)
    else if 0xC2 ≤ first && first ≤ 0xDF then
      match rest with
      | second :: _ => if isContinuation second then (true, 2) else (false, 1)
      | [] => (false, 1)
    else if 0xE0 ≤ first && first ≤ 0xEF then
      match rest with
      | second :: third :: _ =>
        if !secondOfThree first second then (false, 1)
        else if isContinuation third then (true, 3) else (false, 2)
      | [second] => if secondOfThree first second then (false, 2) else (false, 1)
      | [] => (false, 1)
    else if 0xF0 ≤ first && first ≤ 0xF4 then
      match rest with
      | second :: third :: fourth :: _ =>
        if !secondOfFour first second then (false, 1)
        else if !isContinuation third then (false, 2)
        else if isContinuation fourth then (true, 4) else (false, 3)
      | [second, third] =>
        if !secondOfFour first second then (false, 1)
        else if isContinuation third then (false, 3) else (false, 2)
      | [second] => if secondOfFour first second then (false, 2) else (false, 1)
      | [] => (false, 1)
    else (false, 1)

private def fromUtf8LossyAux : ℕ → Bytes → Bytes
  | 0, _ => []
  | _ + 1, [] => []
  | fuel + 1, bytes =>
    let (valid, width) := scanScalar bytes
    (if valid then bytes.take width else [0xEF, 0xBF, 0xBD]) ++ fromUtf8LossyAux fuel (bytes.drop width)

/-- `String::from_utf8_lossy`, as the UTF-8 encoding of its result. -/
def fromUtf8Lossy (bytes : Bytes) : Bytes := fromUtf8LossyAux bytes.length bytes

def asciiBytes (text : String) : Bytes := text.toList.map fun c => UInt8.ofNat c.toNat

def leafRoot (path : Bytes) : Value → List (Bytes × ℕ × Bytes)
  | .dict metadata =>
    match dictGet metadata (asciiBytes "pieces root") with
    | some (.bytes root) =>
      let length :=
        match dictGet metadata (asciiBytes "length") with
        | some (.int l) => asU64 l
        | _ => 0
      [(path, length, root)]
    | _ => []
  | _ => []

mutual

/-- The files below a node, as path, length and root. -/
def traverseFileTree : Value → Bytes → List (Bytes × ℕ × Bytes)
  | .dict entries, path => traverseEntries entries path
  | .int _, _ => []
  | .bytes _, _ => []
  | .list _, _ => []

/-- The loop over the entries of a directory node; an empty name marks a leaf. -/
def traverseEntries : List (Bytes × Value) → Bytes → List (Bytes × ℕ × Bytes)
  | [], _ => []
  | (key, value) :: rest, path =>
    let name := fromUtf8Lossy key
    (if name = [] then leafRoot path value
      else traverseFileTree value (if path = [] then name else path ++ asciiBytes "/" ++ name)) ++
      traverseEntries rest path

end

namespace Torrent

variable (torrent : Torrent)

def pieceLen : ℕ := asU64 torrent.info.pieceLength

def getV2Roots : List (Bytes × ℕ × Bytes) :=
  match torrent.info.fileTree with
  | some tree => traverseFileTree tree []
  | none => []

/-- The files in the order in which they are laid out: a stable sort by path. -/
def sortedV2Roots : List (Bytes × ℕ × Bytes) :=
  torrent.getV2Roots.insertionSort fun a b => a.1 ≤ b.1

def getLayerHashes (rootHash : Bytes) : Option Bytes :=
  match torrent.pieceLayers with
  | some (.dict layers) =>
    match dictGet layers rootHash with
    | some (.bytes layer) => some layer
    | _ => none
  | _ => none

/-- Give the next pieces to one file; empty files take none. -/
def mapFile (pieceLen : ℕ) (mapping : V2Mapping) (file : (Bytes × ℕ × Bytes) × ℕ) : V2Mapping :=
  let ((_, length, rootHash), fileIndex) := file
  if length > 0 then
    let filePieces := divCeil length pieceLen
    let root : V2RootInfo :=
      { fileOffset := u64 (mapping.pieceCount * pieceLen), length, rootHash, fileIndex := u32 fileIndex }
    let startPiece := u32 mapping.pieceCount
    let endPiece := u32 (u64 (mapping.pieceCount + filePieces))
    { pieceToRoots := fun p =>
        if startPiece ≤ p ∧ p < endPiece then some ((mapping.pieceToRoots p).getD [] ++ [root])
        else mapping.pieceToRoots p
      pieceCount := u64 (mapping.pieceCount + filePieces) }
  else mapping

def calculateV2Mapping : V2Mapping :=
  if torrent.info.metaVersion = some 2 ∧ torrent.pieceLen > 0 then
    torrent.sortedV2Roots.zipIdx.foldl (mapFile torrent.pieceLen) ⟨fun _ => none, 0⟩
  else ⟨fun _ => none, 0⟩

/-- The hashes of `requestedLength` pieces from a piece on, in the layer of a file. The quotient
of the narrowed offsets panics when the narrowed piece length is zero. -/
def getV2HashLayer (pieceIndex fileStartOffset fileLength requestedLength : ℕ) (resolvedRoot : Bytes) :
    Option (Option Bytes) :=
  if torrent.pieceLen = 0 then some none
  else if u32 torrent.pieceLen = 0 then none
  else
    let fileStartPiece := u32 fileStartOffset / u32 torrent.pieceLen
    if pieceIndex < fileStartPiece then some none
    else
      let relativeStart := pieceIndex - fileStartPiece
      let relativeEnd := relativeStart + requestedLength
      match torrent.getLayerHashes resolvedRoot with
      | some layer =>
        if relativeEnd ≤ layer.length / 32 then
          some (some ((layer.drop (relativeStart * 32)).take (requestedLength * 32)))
        else some none
      | none =>
        if fileLength ≤ torrent.pieceLen ∧ relativeStart = 0 ∧ requestedLength = 1 then
          some (some resolvedRoot)
        else some none

/-- The number of pieces: one for each SHA-1 hash, or the size of the version 2 piece space. -/
def numPieces : ℕ :=
  if torrent.info.pieces ≠ [] then torrent.info.pieces.length / 20
  else u32 torrent.calculateV2Mapping.pieceCount

/-- The length of the contiguous payload of version 1. -/
def streamLength : ℕ :=
  if torrent.info.files = [] then asU64 torrent.info.length
  else u64 (torrent.info.files.map fun file => asU64 file.length).sum

/-- The length the block geometry is laid out over. -/
def geometryLength : ℕ :=
  if torrent.info.metaVersion = some 2 then u64 (torrent.numPieces * torrent.pieceLen)
  else torrent.streamLength

end Torrent

end Superseedr
