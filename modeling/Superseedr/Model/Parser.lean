import Superseedr.Model.Torrent

/-! # Completing parsed metadata

Metadata of version 2 lists its files only in the tree. The parser turns the tree into the list that version 1
uses: the files in the order of the piece space, each followed by a padding file up to the end of its last piece.
A missing total length is filled in from the files or from the tree.
-/

namespace Superseedr

/-- `x as i64`, and the wrapping result of signed 64-bit arithmetic. -/
def i64 (x : ℤ) : ℤ := (x + 2 ^ 63) % 2 ^ 64 - 2 ^ 63

theorem asU64_i64 {n : ℕ} (small : n < 2 ^ 64) : asU64 (i64 n) = n := by
  unfold asU64 i64
  omega

private def continuationBits (b : UInt8) : ℕ := b.toNat % 64

/-- The first scalar value of valid UTF-8 and the bytes behind it. -/
private def decodeScalar : Bytes → ℕ × Bytes
  | [] => (0, [])
  | first :: rest =>
    if first < 0x80 then (first.toNat, rest)
    else if first < 0xE0 then
      ((first.toNat % 32) * 64 + continuationBits (rest.getD 0 0), rest.drop 1)
    else if first < 0xF0 then
      (((first.toNat % 16) * 64 + continuationBits (rest.getD 0 0)) * 64 + continuationBits (rest.getD 1 0),
        rest.drop 2)
    else
      ((((first.toNat % 8) * 64 + continuationBits (rest.getD 0 0)) * 64 + continuationBits (rest.getD 1 0)) * 64 +
        continuationBits (rest.getD 2 0), rest.drop 3)

private def decodeAux : ℕ → Bytes → List Char
  | 0, _ => []
  | _ + 1, [] => []
  | fuel + 1, bytes => Char.ofNat (decodeScalar bytes).1 :: decodeAux fuel (decodeScalar bytes).2

/-- The text of valid UTF-8. -/
def decodeUtf8 (bytes : Bytes) : String := String.ofList (decodeAux bytes.length bytes)

def pathComponents (path : Bytes) : List String := (path.splitOn 0x2F).map decodeUtf8

/-- A file of the tree and the padding behind it. -/
def polyfillFile (pieceLen : ℕ) (file : Bytes × ℕ × Bytes) : List InfoFile :=
  let (path, length, _) := file
  let remainder := length % pieceLen
  { length := i64 length, path := pathComponents path } ::
    if pieceLen > 0 ∧ remainder > 0 then
      [{ length := i64 (pieceLen - remainder : ℕ)
         path := [".pad", toString (pieceLen - remainder)]
         attr := some "p" }]
    else []

def polyfillV2Files (torrent : Torrent) : Torrent :=
  if torrent.info.files = [] ∧ torrent.info.fileTree.isSome then
    { torrent with
      info := { torrent.info with files := torrent.sortedV2Roots.flatMap (polyfillFile torrent.pieceLen) } }
  else torrent

private def leafLength : Value → ℤ
  | .dict metadata =>
    match dictGet metadata (asciiBytes "length") with
    | some (.int length) => length
    | _ => 0
  | _ => 0

mutual

/-- The sizes below a node of the tree, whether or not the files have roots. -/
def calculateTreeSize : Value → ℤ
  | .dict entries => calculateEntriesSize entries
  | .int _ => 0
  | .bytes _ => 0
  | .list _ => 0

def calculateEntriesSize : List (Bytes × Value) → ℤ
  | [] => 0
  | (key, value) :: rest =>
    i64 ((if fromUtf8Lossy key = [] then leafLength value else calculateTreeSize value) + calculateEntriesSize rest)

end

/-- The total length of the payload, as far as it is known. -/
def Info.totalLength (info : Info) : ℤ :=
  if info.length > 0 then info.length
  else if info.files ≠ [] then i64 (info.files.map InfoFile.length).sum
  else
    match info.fileTree with
    | some tree => calculateTreeSize tree
    | none => 0

/-- What the parser does after decoding, for torrent files and for metadata from peers alike. -/
def completeMetadata (torrent : Torrent) : Torrent :=
  let torrent := polyfillV2Files torrent
  if torrent.info.length = 0 then { torrent with info := { torrent.info with length := torrent.info.totalLength } }
  else torrent

end Superseedr
