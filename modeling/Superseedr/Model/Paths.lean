import Mathlib.Data.List.DropRight
import Superseedr.ToMathlib.Arrangement
import Superseedr.Model.Storage

/-! # Paths and what a deletion removes

A path is a text, and the functions here follow the rules of the Unix targets. Two paths are compared by
their components: separators and single dots between the components do not count, double dots do.

Deleting a torrent removes the files of its layout and then every directory between a file and the
download directory, the longest path first. The download directory itself is removed only if it carries
the recorded name of the torrent's own directory.
-/

namespace Superseedr

inductive Component where
  | rootDir
  | curDir
  | parentDir
  | normal (name : String)
deriving DecidableEq, Repr

/-- The text between the separators, empty pieces included. -/
def segments (path : String) : List String := (path.toList.splitOn '/').map String.ofList

/-- A segment that is no component, except at the start of a path. -/
def isFiller (segment : String) : Bool := segment = "" || segment = "."

def bodyComponent (segment : String) : Option Component :=
  if isFiller segment then none
  else if segment = ".." then some .parentDir
  else some (.normal segment)

def components (path : String) : List Component :=
  match segments path with
  | [] => []
  | first :: body =>
    (if first = "" then (if path = "" then [] else [.rootDir])
      else if first = "." then [.curDir]
      else (bodyComponent first).toList) ++
      body.filterMap bodyComponent

/-- `Path::parent`: cut off the last component, and the fillers around it. -/
def pathParent (path : String) : Option String :=
  match segments path with
  | [] => none
  | first :: body =>
    let kept := body.rdropWhile isFiller
    if kept ≠ [] then
      let above := kept.dropLast.rdropWhile isFiller
      some (if first = "" ∧ above = [] then "/" else "/".intercalate (first :: above))
    else if first = "" then none
    else some ""

def pathStartsWith (path base : String) : Bool := (components base).isPrefixOf (components path)

def samePath (left right : String) : Bool := components left = components right

def pathFileName (path : String) : Option String :=
  match (components path).getLast? with
  | some (.normal name) => some name
  | _ => none

/-- The loop from a file up to the base directory. -/
def dirsAbove (basePath : String) : ℕ → Option String → List String
  | 0, _ => []
  | _ + 1, none => []
  | fuel + 1, some dir =>
    if samePath dir basePath then []
    else if pathStartsWith dir basePath then dir :: dirsAbove basePath fuel (pathParent dir)
    else []

def insertPath (paths : List String) (path : String) : List String :=
  if paths.any (samePath path) then paths else paths ++ [path]

/-- The files and directories a deletion removes. -/
def calculateDeletionLists (a : Arrangement) (mfi : MultiFileInfo) (basePath : String)
    (knownContainerName : Option String) : List String × List String :=
  let files := mfi.files.map FileInfo.path
  let above := files.flatMap fun path => dirsAbove basePath (segments path).length (pathParent path)
  let base :=
    match knownContainerName with
    | some recordedName => if pathFileName basePath = some recordedName then [basePath] else []
    | none => []
  let dirsToDelete := (above ++ base).foldl insertPath []
  (files, (a.arrange 0 dirsToDelete).insertionSort fun d e => e.utf8ByteSize ≤ d.utf8ByteSize)

end Superseedr
