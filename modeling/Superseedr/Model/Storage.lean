import Superseedr.Model.Torrent

/-! # The file layout of a torrent

A torrent's payload is one stream of bytes that is cut into files. The layout gives every file its
path below the download directory and its place in the stream, and marks padding files and files
the user does not want. Paths are texts; pushing a component follows the rules of the Unix targets.
-/

namespace Superseedr

/-- Extend a path by one component; an absolute component replaces the path. -/
def pathPush (path component : String) : String :=
  if component.startsWith "/" then component
  else if path = "" ∨ path.endsWith "/" then path ++ component
  else path ++ "/" ++ component

inductive FilePriority where
  | normal
  | high
  | skip
  | mixed
deriving DecidableEq, Repr

structure FileInfo where
  path : String
  length : ℕ
  globalStartOffset : ℕ
  isPadding : Bool
  isSkipped : Bool
deriving DecidableEq, Repr

structure MultiFileInfo where
  files : List FileInfo
  totalSize : ℕ
deriving DecidableEq, Repr

/-- Lay out the next file of a torrent with several files behind the ones before it. -/
def MultiFileInfo.addFile (rootDir : String) (filePriorities : ℕ → Option FilePriority) (layout : MultiFileInfo)
    (entry : InfoFile × ℕ) : MultiFileInfo :=
  let (file, idx) := entry
  { files := layout.files ++
      [{ path := file.path.foldl pathPush rootDir
         length := asU64 file.length
         globalStartOffset := layout.totalSize
         isPadding := file.attr.any fun attr => attr.toList.contains 'p'
         isSkipped := filePriorities idx = some .skip }]
    totalSize := u64 (layout.totalSize + asU64 file.length) }

def MultiFileInfo.new (rootDir torrentName : String) (files : List InfoFile) (length : ℕ)
    (filePriorities : ℕ → Option FilePriority) : MultiFileInfo :=
  if files ≠ [] then files.zipIdx.foldl (addFile rootDir filePriorities) ⟨[], 0⟩
  else
    { files :=
        [{ path := pathPush rootDir torrentName
           length
           globalStartOffset := 0
           isPadding := false
           isSkipped := filePriorities 0 = some .skip }]
      totalSize := length }

private def hexDigit (n : ℕ) : Char := "0123456789abcdef".toList.getD n '0'

def hexEncode (bytes : Bytes) : String :=
  String.ofList (bytes.flatMap fun b => [hexDigit (b.toNat / 16), hexDigit (b.toNat % 16)])

end Superseedr
