import Mathlib.Data.List.Dedup
import Superseedr.ToMathlib.Arrangement
import Superseedr.ToMathlib.AssocMap
import Superseedr.Model.Disk
import Superseedr.Model.Merkle

/-! # Validation of the files on disk

Before a torrent starts, its pieces are checked against the files that are already there. With the
persisted flag the hashes are not computed: a complete layout counts for all pieces and an incomplete
one for none. Without the flag the files are allocated and read back piece by piece, file by file in
version 2. The validation tells the manager how far it is and ends with the list of the pieces it
accepted, or without one when it fails, panics or retries a read for ever.
-/

namespace Superseedr

/-- The progress a validation has reported, and the pieces it has accepted unless it failed. -/
structure ValidationRun where
  progress : List ℕ
  outcome : Option (List ℕ)
deriving DecidableEq, Repr

/-- One round of the loop over pieces; every tenth piece is reported. -/
def ValidationRun.check (run : ValidationRun) (piece : ℕ) (verdict : Option Bool) : ValidationRun :=
  match run.outcome, verdict with
  | none, _ => run
  | some _, none => { run with outcome := none }
  | some completed, some valid =>
    { progress := run.progress ++ if piece % 10 = 0 then [piece] else []
      outcome := some (if valid then completed ++ [piece] else completed) }

def hasCompleteStorageLayout (disk : Disk) : List FileInfo → Option Bool
  | [] => some true
  | file :: rest =>
    if file.isPadding then hasCompleteStorageLayout disk rest
    else
      match disk file.path with
      | .missing => some false
      | .file content => if content.length = file.length then hasCompleteStorageLayout disk rest else some false
      | .directory _ => some false
      | .broken => none

/-- How many pieces a complete layout counts for. -/
def trustedPieceCount (torrent : Torrent) (layout : MultiFileInfo) : ℕ :=
  if torrent.pieceLen > 0 then
    if torrent.info.metaVersion = some 2 then u32 torrent.calculateV2Mapping.pieceCount
    else u32 (divCeil layout.totalSize torrent.pieceLen)
  else 0

/-- The validation that relies on the persisted flag. -/
def trustLayout (disk : Disk) (layout : MultiFileInfo) (torrent : Torrent) : ValidationRun :=
  match hasCompleteStorageLayout disk layout.files with
  | none => ⟨[], none⟩
  | some true => ⟨[trustedPieceCount torrent layout], some (List.range (trustedPieceCount torrent layout))⟩
  | some false => ⟨[0], some []⟩

def utf8Bytes (text : String) : Bytes := text.toList.flatMap String.utf8EncodeChar

/-- A path with slashes for backslashes. -/
def physicalPath (path : String) : Bytes := (utf8Bytes path).map fun b => if b = 0x5C then 0x2F else b

section Pieces

variable (disk : Disk) (layout : MultiFileInfo) (torrent : Torrent)

def streamPieceLength (pieceIndex : ℕ) : ℕ :=
  min torrent.pieceLen (layout.totalSize - u64 (pieceIndex * torrent.pieceLen))

/-- The verdict on a piece of version 1. A failing read is repeated for ever. -/
def verdictV1 (sha1 : Bytes → Bytes) (pieceIndex : ℕ) : Option Bool :=
  (readDataFromDisk disk layout (u64 (pieceIndex * torrent.pieceLen))
    (streamPieceLength layout torrent pieceIndex)).map fun data =>
      decide (data ≠ []) && decide (pieceIndex * 20 + 20 ≤ torrent.info.pieces.length) &&
        decide (sha1 data = (torrent.info.pieces.drop (pieceIndex * 20)).take 20)

def validateV1 (sha1 : Bytes → Bytes) : ValidationRun :=
  let numPieces := if torrent.pieceLen > 0 then u32 (divCeil layout.totalSize torrent.pieceLen) else 0
  let run := (List.range numPieces).foldl
    (fun (run : ValidationRun) p =>
      if streamPieceLength layout torrent p = 0 then run
      else run.check p (verdictV1 disk layout torrent sha1 p))
    ⟨[], some []⟩
  match run.outcome with
  | none => run
  | some completed => ⟨run.progress ++ [numPieces], some completed⟩

/-- The root of the first listed file whose path the physical path ends with. The roots are walked in the
order of a hash table, which is the same for all files. -/
def rootOfFile (order : Arrangement) (file : FileInfo) : Option Bytes :=
  let pathToRoot := torrent.getV2Roots.foldl
    (fun (table : AList fun _ : Bytes => Bytes) entry => table.insert entry.1 entry.2.2) ∅
  ((order.arrange 0 pathToRoot.entries).find? fun entry => entry.1.isSuffixOf (physicalPath file.path)).map (·.2)

/-- The number of pieces a file takes up. -/
def filePieceCount (file : FileInfo) : ℕ := if file.length > 0 then divCeil file.length torrent.pieceLen else 0

def expectedHashV2 (file : FileInfo) (rootHash : Bytes) (i : ℕ) : Option Bytes :=
  match torrent.getLayerHashes rootHash with
  | some layer => if i * 32 + 32 ≤ layer.length then some ((layer.drop (i * 32)).take 32) else none
  | none => if filePieceCount torrent file = 1 then some rootHash else none

def verdictV2 (sha : Sha256) (file : FileInfo) (rootHash : Bytes) (i : ℕ) : Option Bool :=
  let offsetInFile := u64 (i * torrent.pieceLen)
  (readDataFromDisk disk layout (u64 (file.globalStartOffset + offsetInFile))
    (min torrent.pieceLen (file.length - offsetInFile))).map fun data =>
      decide (data ≠ []) && (expectedHashV2 torrent file rootHash i).any fun want =>
        sha.verifyMerkleProof want data 0 [] torrent.pieceLen

def validateFileV2 (sha : Sha256) (order : Arrangement) (run : ValidationRun) (file : FileInfo) : ValidationRun :=
  if file.isPadding then run
  else
    match rootOfFile torrent order file with
    | none => run
    | some rootHash =>
      if torrent.pieceLen = 0 then { run with outcome := none }
      else
        (List.range (filePieceCount torrent file)).foldl
          (fun run i => run.check (u32 (u32 (file.globalStartOffset / torrent.pieceLen) + u32 i))
            (verdictV2 disk layout torrent sha file rootHash i))
          run

/-- The validation of a torrent of version 2; the accepted pieces are sorted and listed once. -/
def validateV2 (sha : Sha256) (order : Arrangement) : ValidationRun :=
  let run := layout.files.foldl (validateFileV2 disk layout torrent sha order) ⟨[], some []⟩
  match run.outcome with
  | none => run
  | some completed =>
    let completed := (completed.insertionSort (· ≤ ·)).dedup
    ⟨run.progress ++ [u32 completed.length], some completed⟩

end Pieces

def performValidation (sha1 : Bytes → Bytes) (sha : Sha256) (order : Arrangement) (disk : Disk) (layout : MultiFileInfo)
    (torrent : Torrent) (skipHashing : Bool) : ValidationRun :=
  if skipHashing then trustLayout disk layout torrent
  else
    match createAndAllocateFiles disk layout with
    | none => ⟨[], none⟩
    | some (_, true) => ⟨[0], some []⟩
    | some (disk, false) =>
      if torrent.info.metaVersion = some 2 then validateV2 disk layout torrent sha order
      else validateV1 disk layout torrent sha1

end Superseedr
