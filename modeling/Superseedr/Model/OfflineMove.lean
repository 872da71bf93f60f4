import Superseedr.ToMathlib.Script
import Superseedr.Model.OfflinePlans

/-! # Moving a torrent offline

A torrent's files are moved in three phases. Staging links or copies every file to its destination and
undoes this when something goes wrong; then the settings are saved with the new download path; then the
sources are removed.

The commands are scripts of file operations. A file system gives every location at most one node, and
several names may denote one location (`locate`). Files are inodes, so that a hard link shares its
content. How an operation turns out is chosen by the world: any operation may fail, a copy may stop
half-way, a failed save may or may not have reached the disk. Other processes create files.
-/

namespace Superseedr

inductive Node where
  | file (inode : ℕ)
  | directory
deriving DecidableEq, Repr

/-- The nodes of a file system; inodes from `nextInode` on are unused. -/
structure FileStore (L : Type) where
  entry : L → Option Node
  data : ℕ → Bytes
  nextInode : ℕ
  bounded : ∀ loc inode, entry loc = some (.file inode) → inode < nextInode

namespace FileStore

variable {L : Type}

def content (store : FileStore L) (loc : L) : Option Bytes :=
  match store.entry loc with
  | some (.file inode) => some (store.data inode)
  | _ => none

variable [DecidableEq L] (store : FileStore L) (loc : L)

/-- A further name for an inode in use. -/
def link (inode : ℕ) (used : inode < store.nextInode) : FileStore L where
  entry := Function.update store.entry loc (some (.file inode))
  data := store.data
  nextInode := store.nextInode
  bounded other known := by
    intro named
    by_cases same : other = loc
    · rw [same, Function.update_self] at named
      cases named
      exact used
    · rw [Function.update_of_ne same] at named
      exact store.bounded other known named

/-- A new file. -/
def create (bytes : Bytes) : FileStore L where
  entry := Function.update store.entry loc (some (.file store.nextInode))
  data := Function.update store.data store.nextInode bytes
  nextInode := store.nextInode + 1
  bounded other known := by
    intro named
    by_cases same : other = loc
    · rw [same, Function.update_self] at named
      cases named
      exact Nat.lt_succ_self _
    · rw [Function.update_of_ne same] at named
      exact Nat.lt_succ_of_lt (store.bounded other known named)

/-- Put a directory, or nothing, at a location. -/
def clear (node : Option Node) (noFile : ∀ inode, node ≠ some (.file inode)) : FileStore L where
  entry := Function.update store.entry loc node
  data := store.data
  nextInode := store.nextInode
  bounded other known := by
    intro named
    by_cases same : other = loc
    · rw [same, Function.update_self] at named
      exact absurd named (noFile known)
    · rw [Function.update_of_ne same] at named
      exact store.bounded other known named

def mkdir : FileStore L := store.clear loc (some .directory) nofun

def remove : FileStore L := store.clear loc none nofun

/-- Replace the content of an inode. -/
def write (inode : ℕ) (bytes : Bytes) : FileStore L where
  entry := store.entry
  data := Function.update store.data inode bytes
  nextInode := store.nextInode
  bounded := store.bounded

/-- Create the missing directories of a list, the outermost first; a file in the way ends it. -/
def mkdirs : List L → FileStore L → FileStore L × Bool
  | [], store => (store, true)
  | loc :: rest, store =>
    match store.entry loc with
    | some (.file _) => (store, false)
    | some .directory => mkdirs rest store
    | none => mkdirs rest (store.mkdir loc)

end FileStore

inductive RemoveError where
  | notFound
  | failed (message : String)
deriving DecidableEq, Repr

inductive FileOp where
  | pathExists (path : String)
  | isFile (path : String)
  | sameExistingFile (left right : String)
  | metadata (path : String)
  | sharesDiskMount (left right : String)
  | availableSpace (path : String)
  | createDirAll (path : String)
  | hardLink (source destination : String)
  | copyOpen (source destination : String)
  | copyPart (source destination : String)
  | copyRest (source destination : String)
  | removeFile (path : String)
  | removeDir (path : String)
  | saveSettings (settings : Settings)

/-- What an operation answers. -/
@[reducible] def FileOp.Res : FileOp → Type
  | .pathExists _ => Bool
  | .isFile _ => Bool
  | .sameExistingFile _ _ => Bool
  | .metadata _ => Except String (Bool × ℕ)
  | .sharesDiskMount _ _ => Bool
  | .availableSpace _ => Option ℕ
  | .createDirAll _ => Except String Unit
  | .hardLink _ _ => Except String Unit
  | .copyOpen _ _ => Except String Unit
  | .copyPart _ _ => Except String Unit
  | .copyRest _ _ => Except String ℕ
  | .removeFile _ => Except RemoveError Unit
  | .removeDir _ => Except RemoveError Unit
  | .saveSettings _ => Except String Unit

/-- How the world lets an operation turn out. -/
structure FileChoice where
  fails : Bool := false
  /-- The text of the failure. -/
  message : String := ""
  /-- How far an interrupted operation gets, or a number it reports. -/
  count : ℕ := 0
  /-- Whether a failed operation took effect, or a yes or no it reports. -/
  flag : Bool := false

/-- The file system and the settings on disk, with a record of what happened: the files that are there
apart from this command's own, the names this command has made, and the locations it has looked up in vain. -/
structure MoveWorld (L : Type) where
  store : FileStore L
  persisted : Settings
  others : L → Option Bytes
  own : L → Bool
  awaited : L → Bool

/-- A path and its ancestors, the outermost first. -/
def pathAncestors (path : String) : List String :=
  let rec above : ℕ → Option String → List String
    | 0, _ => []
    | _ + 1, none => []
    | fuel + 1, some dir => above fuel (pathParent dir) ++ [dir]
  (above ((segments path).length + 1) (some path)).filter (· ≠ "")

namespace MoveWorld

variable {L : Type} [DecidableEq L]

def claim (w : MoveWorld L) (loc : L) (store : FileStore L) : MoveWorld L :=
  { w with
    store
    own := Function.update w.own loc true
    awaited := Function.update w.awaited loc false }

/-- A new or emptied file at the destination of a copy. -/
def openForCopy (w : MoveWorld L) (loc : L) : MoveWorld L :=
  match w.store.entry loc with
  | some (.file inode) => { w with store := w.store.write inode [] }
  | some .directory => w
  | none => w.claim loc (w.store.create loc [])

/-- Write the beginning of one file to another. -/
def copyPrefix (w : MoveWorld L) (source destination : L) (count : Option ℕ) : MoveWorld L :=
  match w.store.entry source, w.store.entry destination with
  | some (.file i), some (.file j) =>
    { w with
      store := w.store.write j (match count with
        | some n => (w.store.data i).take n
        | none => w.store.data i) }
  | _, _ => w

/-- The effect and the answer of an operation. -/
def operate (locate : String → L) : (op : FileOp) → FileChoice → MoveWorld L → op.Res × MoveWorld L
  | .pathExists path, choice, w =>
    if (w.store.entry (locate path)).isSome ∧ choice.fails = false then (true, w)
    else (false, { w with awaited := Function.update w.awaited (locate path) true })
  | .isFile path, choice, w => ((w.store.content (locate path)).isSome && !choice.fails, w)
  | .sameExistingFile left right, choice, w =>
    ((w.store.entry (locate left)).isSome && decide (locate left = locate right) && !choice.fails, w)
  | .metadata path, choice, w =>
    if choice.fails then (.error choice.message, w)
    else
      match w.store.entry (locate path) with
      | some (.file inode) => (.ok (true, (w.store.data inode).length), w)
      | some .directory => (.ok (false, choice.count), w)
      | none => (.error choice.message, w)
  | .sharesDiskMount _ _, choice, w => (choice.flag, w)
  | .availableSpace _, choice, w => (if choice.fails then none else some choice.count, w)
  | .createDirAll path, choice, w =>
    let dirs := (pathAncestors path).map locate
    let (store, free) := w.store.mkdirs (if choice.fails then dirs.take choice.count else dirs)
    (if free ∧ choice.fails = false then .ok () else .error choice.message, { w with store })
  | .hardLink source destination, choice, w =>
    match entryOf : w.store.entry (locate source) with
    | some (.file inode) =>
      if w.store.entry (locate destination) = none ∧ choice.fails = false then
        (.ok (), w.claim (locate destination)
          (w.store.link (locate destination) inode (w.store.bounded _ _ entryOf)))
      else (.error choice.message, w)
    | _ => (.error choice.message, w)
  | .copyOpen source destination, choice, w =>
    match w.store.content (locate source), w.store.entry (locate destination) with
    | none, _ => (.error choice.message, w)
    | _, some .directory => (.error choice.message, w)
    | _, _ =>
      if choice.fails then
        (.error choice.message, if choice.flag then w.openForCopy (locate destination) else w)
      else (.ok (), w.openForCopy (locate destination))
  | .copyPart source destination, choice, w =>
    (if choice.fails then .error choice.message else .ok (),
      w.copyPrefix (locate source) (locate destination) (some choice.count))
  | .copyRest source destination, choice, w =>
    if choice.fails then
      (.error choice.message, w.copyPrefix (locate source) (locate destination) (some choice.count))
    else
      (.ok ((w.store.content (locate source)).getD []).length, w.copyPrefix (locate source) (locate destination) none)
  | .removeFile path, choice, w =>
    match w.store.entry (locate path) with
    | some (.file _) =>
      if choice.fails then (.error (.failed choice.message), w)
      else (.ok (), { w with
        store := w.store.remove (locate path)
        own := Function.update w.own (locate path) false })
    | some .directory => (.error (.failed choice.message), w)
    | none => (.error (if choice.fails then .failed choice.message else .notFound), w)
  | .removeDir path, choice, w =>
    match w.store.entry (locate path) with
    | some .directory =>
      if choice.fails then (.error (.failed choice.message), w)
      else (.ok (), { w with store := w.store.remove (locate path) })
    | some (.file _) => (.error (.failed choice.message), w)
    | none => (.error (if choice.fails then .failed choice.message else .notFound), w)
  | .saveSettings settings, choice, w =>
    if choice.fails then (.error choice.message, if choice.flag then { w with persisted := settings } else w)
    else (.ok (), { w with persisted := settings })

/-- Another process creates a file where there is nothing. -/
def intrude (locate : String → L) (intrusion : String × Bytes) (w : MoveWorld L) : MoveWorld L :=
  let loc := locate intrusion.1
  if w.store.entry loc = none then
    { w with
      store := w.store.create loc intrusion.2
      others := Function.update w.others loc (some intrusion.2) }
  else w

/-- The file system seen through the names that denote its locations. -/
def world (locate : String → L) : ScriptWorld FileOp FileOp.Res where
  World := MoveWorld L
  Choice := FileChoice
  Intrusion := String × Bytes
  operate := operate locate
  intrude := intrude locate

end MoveWorld

/-! ## The commands -/

abbrev FileScript := Script FileOp FileOp.Res

/-- A script that may end with a message for the user. -/
abbrev MoveM := ExceptT String FileScript

def attempt (op : FileOp) : FileScript op.Res := Script.call op

def perform (op : FileOp) : MoveM op.Res := ExceptT.lift (attempt op)

def metadataLen (path : String) : MoveM ℕ := do
  match ← perform (.metadata path) with
  | .ok (_, len) => pure len
  | .error error => throw ("Failed to read metadata for '" ++ path ++ "': " ++ error)

def requiredDestinationSpaceForMove : List (String × String) → ℕ → MoveM ℕ
  | [], required => pure required
  | (source, destination) :: files, required => do
    if !(← perform (.pathExists source)) then requiredDestinationSpaceForMove files required
    else if ← perform (.sharesDiskMount source destination) then requiredDestinationSpaceForMove files required
    else
      let len ← metadataLen source
      requiredDestinationSpaceForMove files (min (required + len) (2 ^ 64 - 1))

def ensureDestinationSpaceWithAvailable (root : String) (required available : ℕ) : MoveM Unit :=
  if available < required then
    throw ("Not enough free space at '" ++ root ++ "' for move: available=" ++ toString available ++
      " required=" ++ toString required)
  else pure ()

def ensureDestinationSpaceForMove (plan : MovePayloadPlan) : MoveM Unit := do
  let required ← requiredDestinationSpaceForMove plan.files 0
  if required = 0 then pure ()
  else
    match ← perform (.availableSpace plan.destinationRoot) with
    | none => throw ("Could not determine available space at '" ++ plan.destinationRoot ++ "' for move")
    | some available => ensureDestinationSpaceWithAvailable plan.destinationRoot required available

/-- The first loop of the preflight: sources are files, destinations are free. -/
def checkMoveFiles : List (String × String) → List String → MoveM Unit
  | [], _ => pure ()
  | (source, destination) :: files, destinations => do
    if !(← perform (.pathExists source)) then checkMoveFiles files destinations
    else if ← perform (.sameExistingFile source destination) then checkMoveFiles files destinations
    else if !(← perform (.isFile source)) then throw ("Move source is not a file: " ++ source)
    else if destinations.any (samePath destination) then
      throw ("Move plan contains duplicate destination: " ++ destination)
    else if ← perform (.pathExists destination) then
      throw ("Move destination already exists: " ++ destination)
    else checkMoveFiles files (destinations ++ [destination])

/-- The second loop of the preflight. -/
def createMoveDirectories : List (String × String) → MoveM Unit
  | [] => pure ()
  | (_, destination) :: files => do
    match pathParent destination with
    | none => createMoveDirectories files
    | some parent =>
      match ← perform (.createDirAll parent) with
      | .ok () => createMoveDirectories files
      | .error error => throw ("Failed to create '" ++ parent ++ "': " ++ error)

def preflightMovePayloadFiles (plan : MovePayloadPlan) : MoveM Unit := do
  checkMoveFiles plan.files []
  createMoveDirectories plan.files

def verifyMovedDestination (source destination : String) (sourceLen : ℕ) : MoveM Unit := do
  match ← perform (.metadata destination) with
  | .error error =>
    throw ("Failed to read moved destination metadata '" ++ destination ++ "': " ++ error)
  | .ok (isFile, len) =>
    if !isFile || len ≠ sourceLen then
      throw ("Move metadata check failed for '" ++ source ++ "' -> '" ++ destination ++ "'")
    else pure ()

/-- `fs::copy`: open both files, then write one to the other. -/
def copyFile (source destination : String) : MoveM (Except String ℕ) := do
  match ← perform (.copyOpen source destination) with
  | .error error => pure (.error error)
  | .ok () =>
    match ← perform (.copyPart source destination) with
    | .error error => pure (.error error)
    | .ok () => perform (.copyRest source destination)

def copyForCrossDeviceMove (source destination : String) (sourceLen : ℕ) : MoveM Unit := do
  match ← copyFile source destination with
  | .error error =>
    throw ("Failed to copy '" ++ source ++ "' to '" ++ destination ++ "' after cross-volume move fallback: " ++ error)
  | .ok copiedLen =>
    if copiedLen ≠ sourceLen then
      throw ("Cross-volume move copied " ++ toString copiedLen ++ " bytes but expected " ++ toString sourceLen ++
        " bytes for '" ++ source ++ "' -> '" ++ destination ++ "'")
    else verifyMovedDestination source destination sourceLen

def ensureCopySpace (destination : String) (required : ℕ) : MoveM Unit := do
  let checkPath := (pathParent destination).getD destination
  match ← perform (.availableSpace checkPath) with
  | none => throw ("Could not determine available space at '" ++ checkPath ++ "' for move")
  | some available => ensureDestinationSpaceWithAvailable checkPath required available

def stageMoveFile (source destination : String) (sourceLen : ℕ) : MoveM Unit := do
  if ← perform (.sharesDiskMount source destination) then
    match ← perform (.hardLink source destination) with
    | .ok () => verifyMovedDestination source destination sourceLen
    | .error error =>
      if ← perform (.pathExists destination) then
        throw ("Move destination appeared while staging '" ++ destination ++ "': " ++ error)
      else
        ensureCopySpace destination sourceLen
        copyForCrossDeviceMove source destination sourceLen
  else copyForCrossDeviceMove source destination sourceLen

/-- Remove staged files again, the last one first; the problems on the way are collected. -/
def rollbackLoop : List (String × String) → List String → FileScript (List String)
  | [], errors => pure errors
  | (source, destination) :: files, errors => do
    if !(← attempt (.pathExists source)) then
      rollbackLoop files (errors ++ ["Cannot remove staged destination '" ++ destination ++
        "' because source is missing: " ++ source])
    else
      match ← attempt (.removeFile destination) with
      | .error (.failed error) =>
        rollbackLoop files (errors ++ ["Failed to remove staged destination '" ++ destination ++ "': " ++ error])
      | _ => rollbackLoop files errors

def rollbackStagedMoveFiles (files : List (String × String)) : FileScript (Except String Unit) := do
  let errors ← rollbackLoop files.reverse []
  pure (if errors = [] then .ok () else .error ("; ".intercalate errors))

/-- Undo the staging and report the error that ended it. -/
def abandonStaging (staged : List (String × String)) (error : String) : MoveM (List (String × String)) := do
  match ← ExceptT.lift (rollbackStagedMoveFiles staged) with
  | .error rollbackError => throw (error ++ ". Rollback failed: " ++ rollbackError)
  | .ok () => throw error

/-- After a failed staging, remove what it may have left at the destination. -/
def discardDestination (source destination : String) : MoveM Unit := do
  if ← perform (.pathExists source) then
    if ← perform (.pathExists destination) then
      let _ ← perform (.removeFile destination)

def stageLoop : List (String × String) → List (String × String) → MoveM (List (String × String))
  | [], staged => pure staged
  | (source, destination) :: files, staged => do
    if !(← perform (.pathExists source)) then stageLoop files staged
    else if ← perform (.sameExistingFile source destination) then stageLoop files staged
    else
      let sourceLen ← metadataLen source
      match ← ExceptT.lift (stageMoveFile source destination sourceLen).run with
      | .error error =>
        discardDestination source destination
        abandonStaging staged error
      | .ok () =>
        if !(← perform (.pathExists source)) then
          let _ ← perform (.removeFile destination)
          abandonStaging staged ("Move staging unexpectedly removed source: " ++ source)
        else stageLoop files (staged ++ [(source, destination)])

def stageMovePayloadFiles (plan : MovePayloadPlan) : MoveM (List (String × String)) := do
  preflightMovePayloadFiles plan
  stageLoop plan.files []

structure OfflineMoveTransaction where
  nextSettings : Settings
  successMessage : String
  stagedFiles : List (String × String)
  sourceDirectories : List String

def Settings.withDownloadPath (settings : Settings) (index : ℕ) (downloadPath : String) : Settings :=
  { settings with
    torrents := settings.torrents.modify index fun torrent => { torrent with downloadPath := some downloadPath } }

def prepareOfflineMoveTransaction (host : ControlHost) (a : Arrangement) (settings : Settings)
    (infoHashHex downloadPath : String) : MoveM OfflineMoveTransaction := do
  let infoHash ← liftExcept (host.decodeInfoHash infoHashHex)
  match host.findTorrentSettingsIndexByInfoHash settings infoHash with
  | none => throw ("Torrent '" ++ infoHashHex ++ "' was not found")
  | some index =>
    let canonicalDownloadPath ← liftExcept (host.validateMoveDownloadPath downloadPath)
    let movePlan ← liftExcept (host.buildMovePayloadPlan a settings infoHashHex canonicalDownloadPath)
    ensureDestinationSpaceForMove movePlan
    let stagedFiles ← stageMovePayloadFiles movePlan
    pure
      { nextSettings := settings.withDownloadPath index canonicalDownloadPath
        successMessage := "Moved " ++ toString stagedFiles.length ++
          " file(s) and updated download path for torrent '" ++ infoHashHex ++ "' to '" ++
          canonicalDownloadPath ++ "'"
        stagedFiles
        sourceDirectories := movePlan.sourceDirectories }
where
  liftExcept {α : Type} : Except String α → MoveM α
    | .ok value => pure value
    | .error error => throw error

def finalizeStagedMoveFiles : List (String × String) → List String → FileScript (List String)
  | [], errors => pure errors
  | (source, _) :: files, errors => do
    match ← attempt (.removeFile source) with
    | .error (.failed error) =>
      finalizeStagedMoveFiles files
        (errors ++ ["Move committed but source could not be removed '" ++ source ++ "': " ++ error])
    | _ => finalizeStagedMoveFiles files errors

/-- The loop over the source directories; what cannot be removed stays. -/
def removeSourceDirectories : List String → FileScript Unit
  | [] => pure ()
  | dir :: dirs => do
    let _ ← attempt (.removeDir dir)
    removeSourceDirectories dirs

def OfflineMoveTransaction.commit (transaction : OfflineMoveTransaction) : FileScript String := do
  let cleanupErrors ← finalizeStagedMoveFiles transaction.stagedFiles []
  removeSourceDirectories transaction.sourceDirectories
  pure (if cleanupErrors = [] then transaction.successMessage
    else transaction.successMessage ++ ". The destination is active, but " ++ toString cleanupErrors.length ++
      " source file(s) could not be removed.")

/-- The move request of `apply_offline_control_request_mut_with_save`: the outcome, and the settings the
command goes on with. -/
def applyOfflineMove (host : ControlHost) (a : Arrangement) (settings : Settings) (infoHashHex downloadPath : String) :
    FileScript (Except String String × Settings) := do
  match ← (prepareOfflineMoveTransaction host a settings infoHashHex downloadPath).run with
  | .error error => pure (.error error, settings)
  | .ok transaction =>
    match ← attempt (.saveSettings transaction.nextSettings) with
    | .error error =>
      pure (.error ("Failed to save updated settings: " ++ error ++ ". Both source and staged destination " ++
        "files were retained because the catalog commit status is ambiguous; verify the persisted download " ++
        "path before retrying."), settings)
    | .ok () =>
      let message ← transaction.commit
      pure (.ok message, transaction.nextSettings)

end Superseedr
