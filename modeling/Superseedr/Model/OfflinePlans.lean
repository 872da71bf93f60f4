import Superseedr.Model.Parser
import Superseedr.Model.Paths
import Superseedr.Model.Settings

/-! # Plans of the offline commands

Without a running client a torrent can be purged or moved from the command line. The files are then not
known from a layout but from a manifest: the remembered metadata of the torrent or, failing that, its
torrent file. A plan lists the files below the torrent's directory and the directories to clear.

What a command finds outside of the settings is collected in a `ControlHost`; failures are the texts
reported to the user.
-/

namespace Superseedr

/-- Everything the commands read besides the settings. -/
structure ControlHost where
  decodeInfoHash : String → Except String Bytes
  infoHashFromTorrentSource : String → Option Bytes
  /-- `load_torrent_metadata_snapshot`. -/
  torrentMetadata : Except String (List TorrentMetadataEntry)
  /-- Read and parse a torrent file. -/
  readTorrent : String → Except String Torrent
  validateMoveDownloadPath : String → Except String String

structure TorrentFileListEntry where
  fileIndex : ℕ
  relativePath : String
  length : ℕ
deriving DecidableEq, Repr

structure OfflinePurgePlan where
  infoHashHex : String
  files : List String
  directories : List String
deriving DecidableEq, Repr

structure MovePayloadPlan where
  infoHashHex : String
  destinationRoot : String
  files : List (String × String)
  sourceDirectories : List String
deriving DecidableEq, Repr

namespace Torrent

def fileList (torrent : Torrent) : List (List String × ℕ) :=
  if torrent.info.files ≠ [] then torrent.info.files.map fun f => (f.path, asU64 f.length)
  else [([torrent.info.name], asU64 torrent.info.length)]

/-- The files as they are recorded and listed. -/
def relativePaths (torrent : Torrent) : List TorrentMetadataFileEntry :=
  torrent.fileList.map fun (parts, length) => { relativePath := "/".intercalate parts, length }

end Torrent

/-- `"{name} [{hash}]"`, the directory of a torrent with several files. -/
def uniqueName (torrentName infoHashHex : String) : String := torrentName ++ " [" ++ infoHashHex ++ "]"

def manifestFiles (files : List TorrentMetadataFileEntry) : List TorrentFileListEntry :=
  files.zipIdx.map fun (file, fileIndex) => { fileIndex, relativePath := file.relativePath, length := file.length }

def torrentNameForManifest (torrentSettings : TorrentSettings) (entry : TorrentMetadataEntry) : String :=
  if entry.torrentName ≠ "" then entry.torrentName
  else if torrentSettings.name ≠ "" then torrentSettings.name
  else "Unnamed Torrent"

/-- The torrent's directory for a recorded container name. -/
def effectiveRoot (downloadRoot : String) (containerName : Option String) (isMultiFile : Bool) (unique : String) :
    String :=
  match containerName with
  | some name => if name ≠ "" then pathPush downloadRoot name else downloadRoot
  | none => if isMultiFile then pathPush downloadRoot unique else downloadRoot

def resolveTorrentRoots (settings : Settings) (torrentSettings : TorrentSettings) (infoHashHex : String)
    (isMultiFile : Bool) (torrentName : String) : Except String (String × String) :=
  match torrentSettings.downloadPath <|> settings.defaultDownloadFolder with
  | none => .error ("Torrent '" ++ infoHashHex ++ "' does not have a resolved download path for purge")
  | some downloadRoot =>
    .ok (downloadRoot,
      effectiveRoot downloadRoot torrentSettings.containerName isMultiFile (uniqueName torrentName infoHashHex))

/-- The path of a recorded file. -/
def pushSegments (root relativePath : String) : String :=
  ((segments relativePath).filter (· ≠ "")).foldl pathPush root

/-- Lay out the next file of a manifest. -/
def MultiFileInfo.addManifestFile (root : String) (torrentSettings : TorrentSettings) (layout : MultiFileInfo)
    (file : TorrentFileListEntry) : MultiFileInfo where
  files := layout.files ++
    [{ path := pushSegments root file.relativePath
       length := file.length
       globalStartOffset := layout.totalSize
       isPadding := false
       isSkipped := torrentSettings.filePriorities.lookup file.fileIndex = some .skip }]
  totalSize := u64 (layout.totalSize + file.length)

/-- The layout a plan builds from the manifest. -/
def manifestLayout (root : String) (torrentSettings : TorrentSettings) (files : List TorrentFileListEntry) :
    MultiFileInfo :=
  files.foldl (MultiFileInfo.addManifestFile root torrentSettings) ⟨[], 0⟩

namespace ControlHost

variable (host : ControlHost)

def findTorrentSettingsIndexByInfoHash (settings : Settings) (infoHash : Bytes) : Option ℕ :=
  settings.torrents.findIdx? fun torrent =>
    host.infoHashFromTorrentSource torrent.torrentOrMagnet = some infoHash

def torrentSettingsByInfoHashHex (settings : Settings) (infoHashHex : String) :
    Except String (ℕ × TorrentSettings × Bytes) := do
  let infoHash ← host.decodeInfoHash infoHashHex
  match host.findTorrentSettingsIndexByInfoHash settings infoHash with
  | none => .error ("Torrent '" ++ infoHashHex ++ "' was not found")
  | some index =>
    match settings.torrents[index]? with
    | none => .error ("Torrent '" ++ infoHashHex ++ "' was not found")
    | some torrent => .ok (index, torrent, infoHash)

/-- The remembered metadata of a torrent; of several entries the last one counts. -/
def torrentMetadataEntryForSettings (entries : List TorrentMetadataEntry) (torrentSettings : TorrentSettings) :
    Option TorrentMetadataEntry :=
  (host.infoHashFromTorrentSource torrentSettings.torrentOrMagnet).bind fun infoHash =>
    entries.reverse.find? fun entry => entry.infoHashHex = hexEncode infoHash

def manifestEntriesFromFile (torrentSettings : TorrentSettings) :
    Except String (String × Bool × List TorrentFileListEntry) :=
  if torrentSettings.torrentOrMagnet.startsWith "magnet:" then
    .error ("This torrent does not have persisted file metadata yet. Start the torrent once or use " ++
      "INFO_HASH_HEX without a file path.")
  else do
    let torrent ← host.readTorrent torrentSettings.torrentOrMagnet
    .ok (torrent.info.name, torrent.info.files ≠ [], manifestFiles torrent.relativePaths)

def manifestEntriesForTorrentSettings (entries : List TorrentMetadataEntry) (torrentSettings : TorrentSettings) :
    Except String (String × Bool × List TorrentFileListEntry) :=
  match host.torrentMetadataEntryForSettings entries torrentSettings with
  | some entry =>
    if entry.files ≠ [] then
      .ok (torrentNameForManifest torrentSettings entry, entry.isMultiFile, manifestFiles entry.files)
    else host.manifestEntriesFromFile torrentSettings
  | none => host.manifestEntriesFromFile torrentSettings

def buildOfflinePurgePlan (a : Arrangement) (settings : Settings) (infoHashHex : String) :
    Except String OfflinePurgePlan := do
  let entries ← host.torrentMetadata
  let (_, torrentSettings, _) ← host.torrentSettingsByInfoHashHex settings infoHashHex
  let (torrentName, isMultiFile, files) ← host.manifestEntriesForTorrentSettings entries torrentSettings
  if files = [] then
    .error ("Torrent '" ++ infoHashHex ++ "' does not have persisted file paths available for offline purge")
  else
    let (downloadRoot, effectiveRoot) ←
      resolveTorrentRoots settings torrentSettings infoHashHex isMultiFile torrentName
    let (files, directories) := calculateDeletionLists a (manifestLayout effectiveRoot torrentSettings files)
      downloadRoot torrentSettings.containerName
    .ok { infoHashHex, files, directories }

def buildMovePayloadPlan (a : Arrangement) (settings : Settings) (infoHashHex : String) (destinationRoot : String) :
    Except String MovePayloadPlan := do
  let destinationRoot ← host.validateMoveDownloadPath destinationRoot
  let entries ← host.torrentMetadata
  let (_, torrentSettings, _) ← host.torrentSettingsByInfoHashHex settings infoHashHex
  let (torrentName, isMultiFile, files) ← host.manifestEntriesForTorrentSettings entries torrentSettings
  let (sourceDownloadRoot, sourceEffectiveRoot) ←
    resolveTorrentRoots settings torrentSettings infoHashHex isMultiFile torrentName
  let (_, destinationEffectiveRoot) ← resolveTorrentRoots settings
    { torrentSettings with downloadPath := some destinationRoot } infoHashHex isMultiFile torrentName
  let moveFiles := files.map fun file =>
    (pushSegments sourceEffectiveRoot file.relativePath, pushSegments destinationEffectiveRoot file.relativePath)
  let (_, sourceDirectories) := calculateDeletionLists a
    (manifestLayout sourceEffectiveRoot torrentSettings files) sourceDownloadRoot torrentSettings.containerName
  .ok { infoHashHex, destinationRoot := destinationEffectiveRoot, files := moveFiles, sourceDirectories }

end ControlHost

end Superseedr
