import Superseedr.Model.Storage

/-! # Files on disk

A disk gives every path an entry. Allocation creates missing files and, when some payload is already
there, brings every file to its length. A read walks the layout, takes zeros for padding files and for
skipped files that do not exist, and reads zeros behind the end of a short file. A write walks the layout
in the same way and leaves padding files out. An operation that fails returns `none`; what a failed write
leaves on the disk is not modelled.
-/

namespace Superseedr

/-- What is found at a path. Any access to a broken entry fails, other than by the entry not being found. -/
inductive Entry where
  | missing
  | file (content : Bytes)
  | directory (len : ℕ)
  | broken
deriving DecidableEq, Repr

abbrev Disk := String → Entry

/-- `File::set_len`: cut off or extend by zeros. -/
def setLen (len : ℕ) (content : Bytes) : Bytes := content.take len ++ List.replicate (len - content.length) 0

/-- The entry is a file with something in it; `none` when it cannot be looked at. -/
def Entry.hasData : Entry → Option Bool
  | .missing => some false
  | .file content => some (decide (content.length > 0))
  | .directory _ => some false
  | .broken => none

/-- The entry after a file of some length is created or resized. Files of a fresh download are left empty. -/
def Entry.allocate (isFresh : Bool) (len : ℕ) : Entry → Option Entry
  | .missing => some (.file (if len ≠ 0 ∧ !isFresh then setLen len [] else []))
  | .file content =>
    some (.file (if content.length ≠ len ∧ (!isFresh ∨ content.length > 0) then setLen len content else content))
  | .directory size => some (.directory size)
  | .broken => none

/-- Create the files of a layout; the second result tells whether there was no payload before. -/
def createAndAllocateFiles (disk : Disk) (layout : MultiFileInfo) : Option (Disk × Bool) := do
  let present ← (layout.files.filter fun file => !file.isPadding).mapM fun file => (disk file.path).hasData
  let isFresh := !present.any id
  let disk ← (layout.files.filter fun file => !file.isPadding && !file.isSkipped).foldlM
    (fun (disk : Disk) file =>
      ((disk file.path).allocate isFresh file.length).map (Function.update disk file.path))
    disk
  some (disk, isFresh)

/-- The span lies within the payload; the addition is checked. -/
def validateIoSpan (layout : MultiFileInfo) (globalOffset byteCount : ℕ) : Bool :=
  decide (globalOffset + byteCount < 2 ^ 64) && decide (globalOffset + byteCount ≤ layout.totalSize)

/-- Read from one entry; a directory can be opened but not read. -/
def Entry.read (localOffset count : ℕ) : Entry → Option Bytes
  | .missing => none
  | .file content =>
    let readable := (content.drop localOffset).take count
    some (readable ++ List.replicate (count - readable.length) 0)
  | .directory len => if localOffset < len then none else some (List.replicate count 0)
  | .broken => none

def FileInfo.read (file : FileInfo) (disk : Disk) (localOffset count : ℕ) : Option Bytes :=
  if file.isPadding then some (List.replicate count 0)
  else if file.isSkipped ∧ disk file.path = .missing then some (List.replicate count 0)
  else (disk file.path).read localOffset count

/-- The loop of a read over the files of the layout. -/
def readFiles (disk : Disk) (globalOffset bytesToRead : ℕ) : List FileInfo → Bytes → Option Bytes
  | [], _ => none
  | file :: rest, buffer =>
    let fileEnd := u64 (file.globalStartOffset + file.length)
    let readStart := u64 (globalOffset + buffer.length)
    if readStart < fileEnd ∧ globalOffset < fileEnd then
      let localOffset := readStart - file.globalStartOffset
      let count := min (bytesToRead - buffer.length) (file.length - localOffset)
      (if count > 0 then file.read disk localOffset count else some []).bind fun chunk =>
        if (buffer ++ chunk).length = bytesToRead then some (buffer ++ chunk)
        else readFiles disk globalOffset bytesToRead rest (buffer ++ chunk)
    else readFiles disk globalOffset bytesToRead rest buffer

def readDataFromDisk (disk : Disk) (layout : MultiFileInfo) (globalOffset bytesToRead : ℕ) : Option Bytes :=
  if validateIoSpan layout globalOffset bytesToRead then
    readFiles disk globalOffset bytesToRead layout.files []
  else none

/-- Bytes put at a position of a file; a gap before them is filled by zeros. -/
def writeAt (content : Bytes) (localOffset : ℕ) (slice : Bytes) : Bytes :=
  content.take localOffset ++ List.replicate (localOffset - content.length) 0 ++ slice ++
    content.drop (localOffset + slice.length)

def Entry.write (localOffset : ℕ) (slice : Bytes) : Entry → Option Entry
  | .missing => some (.file (writeAt [] localOffset slice))
  | .file content => some (.file (writeAt content localOffset slice))
  | .directory _ => none
  | .broken => none

def FileInfo.write (file : FileInfo) (disk : Disk) (localOffset : ℕ) (slice : Bytes) : Option Disk :=
  if file.isPadding then some disk
  else ((disk file.path).write localOffset slice).map (Function.update disk file.path)

/-- The loop of a write over the files of the layout. -/
def writeFiles (globalOffset : ℕ) (dataToWrite : Bytes) : List FileInfo → Disk → ℕ → Option Disk
  | [], _, _ => none
  | file :: rest, disk, bytesWritten =>
    let fileEnd := u64 (file.globalStartOffset + file.length)
    let writeStart := u64 (globalOffset + bytesWritten)
    if writeStart < fileEnd ∧ globalOffset < fileEnd then
      let localOffset := writeStart - file.globalStartOffset
      let count := min (dataToWrite.length - bytesWritten) (file.length - localOffset)
      (if count > 0 then file.write disk localOffset ((dataToWrite.drop bytesWritten).take count) else some disk).bind
        fun disk =>
          if bytesWritten + count = dataToWrite.length then some disk
          else writeFiles globalOffset dataToWrite rest disk (bytesWritten + count)
    else writeFiles globalOffset dataToWrite rest disk bytesWritten

def writeDataToDisk (disk : Disk) (layout : MultiFileInfo) (globalOffset : ℕ) (dataToWrite : Bytes) : Option Disk :=
  if validateIoSpan layout globalOffset dataToWrite.length then
    writeFiles globalOffset dataToWrite layout.files disk 0
  else none

end Superseedr
