import Superseedr.Model.Paths
import Superseedr.Model.Settings

/-! # The configuration of a cluster

Hosts that share a mounted directory share their configuration. It is stored in layers: the shared settings,
the catalog of torrents, what is remembered of their metadata, and one file for each host. Paths below the
mount and torrent files below the configuration directory are stored relative to them, so that every host
may mount the directory where it likes.

Loading resolves the layers to the settings of one host. Saving computes the layers of given settings, reads
the files once more and writes every layer that differs; when a shared layer was written, a new cluster
revision announces it. One host, the leader, is meant to write shared layers. The others reload when the
revision changes, and may edit what belongs to the host.
-/

namespace Superseedr

/-! ## Layers -/

structure CatalogTorrentSettings where
  torrentOrMagnet : String := ""
  name : String := ""
  addedAtUnixSecs : Option ℕ := none
  validationStatus : Bool := false
  downloadPath : Option String := none
  containerName : Option String := none
  torrentControlState : TorrentControlState := .running
  deleteFiles : Bool := false
  filePriorities : Finmap (fun _ : ℕ => FilePriority) := ∅
deriving DecidableEq

structure SharedSettingsConfig extends SharedPreferences where
  clientId : String := ""
  defaultDownloadFolder : Option String := none
deriving DecidableEq

structure HostConfig where
  clientId : Option String := none
  clientPort : ℕ := 6681
  watchFolder : Option String := none
  alwaysShowAddLocationPrompt : Bool := false
deriving DecidableEq

structure LayeredConfig where
  settings : SharedSettingsConfig
  catalog : List CatalogTorrentSettings
  host : HostConfig

/-! ## Equality of records with paths

Paths are compared by their components, all other fields as they are. -/

def TorrentSettings.key (t : TorrentSettings) : TorrentSettings × Option (List Component) :=
  ({ t with downloadPath := none }, t.downloadPath.map components)

def CatalogTorrentSettings.key (t : CatalogTorrentSettings) : CatalogTorrentSettings × Option (List Component) :=
  ({ t with downloadPath := none }, t.downloadPath.map components)

def SharedSettingsConfig.key (s : SharedSettingsConfig) : SharedSettingsConfig × Option (List Component) :=
  ({ s with defaultDownloadFolder := none }, s.defaultDownloadFolder.map components)

def HostConfig.key (h : HostConfig) : HostConfig × Option (List Component) :=
  ({ h with watchFolder := none }, h.watchFolder.map components)

structure SettingsKey where
  plain : Settings
  torrents : List (TorrentSettings × Option (List Component))
  watchFolder : Option (List Component)
  defaultDownloadFolder : Option (List Component)
deriving DecidableEq

def Settings.key (s : Settings) : SettingsKey where
  plain := { s with torrents := [], watchFolder := none, defaultDownloadFolder := none }
  torrents := s.torrents.map TorrentSettings.key
  watchFolder := s.watchFolder.map components
  defaultDownloadFolder := s.defaultDownloadFolder.map components

/-! ## Paths -/

/-- Where a host finds the shared directory. -/
structure SharedConfigPaths where
  mountDir : String
  rootDir : String

def stripPrefix (path base : String) : Option (List Component) :=
  if pathStartsWith path base then some ((components path).drop (components base).length) else none

def Component.text : Component → String
  | .rootDir => "/"
  | .curDir => "."
  | .parentDir => ".."
  | .normal name => name

def portableRelativePathString (path : List Component) : String := "/".intercalate (path.map Component.text)

def normalSegments : List Component → Option (List String)
  | [] => some []
  | .normal segment :: rest => (normalSegments rest).map (segment :: ·)
  | .curDir :: rest => normalSegments rest
  | .parentDir :: _ => none
  | .rootDir :: _ => none

/-- Only names may remain; what is given back is the path of these names. -/
def normalizeSharedRelativePath (path : List Component) (shown context : String) : Except String String :=
  match normalSegments path with
  | some segments => .ok ("/".intercalate segments)
  | none => .error (context ++ " must be a relative path inside the shared root, got \"" ++ shown ++ "\"")

def encodeSharedDataPath (path sharedMountRoot context : String) : Except String String :=
  if !path.startsWith "/" then normalizeSharedRelativePath (components path) path context
  else
    match stripPrefix path sharedMountRoot with
    | none =>
      .error (context ++ " must live under the shared root \"" ++ sharedMountRoot ++ "\", got \"" ++ path ++ "\"")
    | some relative => normalizeSharedRelativePath relative path context

def resolveSharedDataPath (path sharedMountRoot context : String) : Except String String := do
  let relative ← normalizeSharedRelativePath (components path) path context
  if relative = "" then .ok sharedMountRoot else .ok (pathPush sharedMountRoot relative)

def sharedTorrentSourcePrefix : String := "shared:"

def encodeCatalogTorrentSource (source sharedRoot : String) : String :=
  if source.startsWith "magnet:" then source
  else
    match stripPrefix source sharedRoot with
    | some relative => sharedTorrentSourcePrefix ++ portableRelativePathString relative
    | none => source

/-- Both kinds of separators count. -/
def sharedRelativePathToPathbuf (relative : String) : String :=
  let pieces := (relative.toList.splitOnP fun c => c = '/' || c = '\\').map String.ofList
  (pieces.filter (· ≠ "")).foldl pathPush ""

def decodeCatalogTorrentSource (source sharedRoot : String) : String :=
  if source.startsWith sharedTorrentSourcePrefix then
    pathPush sharedRoot
      (sharedRelativePathToPathbuf (String.ofList (source.toList.drop sharedTorrentSourcePrefix.length)))
  else source

/-! ## From settings to layers and back -/

namespace CatalogTorrentSettings

def fromSettings (settings : TorrentSettings) (paths : SharedConfigPaths) : Except String CatalogTorrentSettings := do
  let downloadPath ← settings.downloadPath.mapM fun path =>
    encodeSharedDataPath path paths.mountDir ("torrent '" ++ settings.name ++ "'")
  .ok
    { torrentOrMagnet := encodeCatalogTorrentSource settings.torrentOrMagnet paths.rootDir
      name := settings.name
      addedAtUnixSecs := settings.addedAtUnixSecs
      validationStatus := settings.validationStatus
      downloadPath
      containerName := settings.containerName
      torrentControlState := settings.torrentControlState
      deleteFiles := settings.deleteFiles
      filePriorities := settings.filePriorities }

def toSettings (entry : CatalogTorrentSettings) (paths : SharedConfigPaths) : Except String TorrentSettings := do
  let downloadPath ← entry.downloadPath.mapM fun path =>
    resolveSharedDataPath path paths.mountDir ("torrent '" ++ entry.name ++ "'")
  .ok
    { torrentOrMagnet := decodeCatalogTorrentSource entry.torrentOrMagnet paths.rootDir
      name := entry.name
      addedAtUnixSecs := entry.addedAtUnixSecs
      validationStatus := entry.validationStatus
      downloadPath
      containerName := entry.containerName
      torrentControlState := entry.torrentControlState
      deleteFiles := entry.deleteFiles
      filePriorities := entry.filePriorities }

end CatalogTorrentSettings

namespace SharedSettingsConfig

def fromSettings (settings : Settings) (paths : SharedConfigPaths) : Except String SharedSettingsConfig := do
  let defaultDownloadFolder ← settings.defaultDownloadFolder.mapM fun path =>
    encodeSharedDataPath path paths.mountDir "default_download_folder"
  .ok { toSharedPreferences := settings.toSharedPreferences, clientId := settings.clientId, defaultDownloadFolder }

def applyToSettings (config : SharedSettingsConfig) (settings : Settings) (paths : SharedConfigPaths) :
    Except String Settings := do
  let folder ← config.defaultDownloadFolder.mapM fun path =>
    resolveSharedDataPath path paths.mountDir "default_download_folder"
  .ok
    { settings with
      toSharedPreferences := config.toSharedPreferences
      clientId := config.clientId
      defaultDownloadFolder := some (folder.getD paths.mountDir) }

end SharedSettingsConfig

def catalogFromSettings (settings : Settings) (paths : SharedConfigPaths) :
    Except String (List CatalogTorrentSettings) :=
  settings.torrents.mapM (CatalogTorrentSettings.fromSettings · paths)

def configuredClientPort (settings : Settings) : ℕ :=
  if settings.randomizeClientPort then 0 else settings.clientPort

namespace HostConfig

def fromFlatSettings (settings : Settings) : HostConfig where
  clientId := none
  clientPort := configuredClientPort settings
  watchFolder := settings.watchFolder
  alwaysShowAddLocationPrompt := settings.alwaysShowAddLocationPrompt

def fromSettings (settings : Settings) (sharedClientId : String) : HostConfig where
  clientId := if settings.clientId ≠ sharedClientId then some settings.clientId else none
  clientPort := configuredClientPort settings
  watchFolder := settings.watchFolder
  alwaysShowAddLocationPrompt := settings.alwaysShowAddLocationPrompt

def applyToSettings (config : HostConfig) (settings : Settings) : Settings :=
  { settings with
    clientId := config.clientId.getD settings.clientId
    clientPort := config.clientPort
    randomizeClientPort := config.clientPort = 0
    watchFolder := config.watchFolder
    alwaysShowAddLocationPrompt := config.alwaysShowAddLocationPrompt }

end HostConfig

namespace LayeredConfig

def fromSharedSettings (settings : Settings) (paths : SharedConfigPaths) (preservedSharedClientId : Option String) :
    Except String LayeredConfig := do
  let settingsConfig ← SharedSettingsConfig.fromSettings settings paths
  let host := HostConfig.fromSettings settings (preservedSharedClientId.getD settingsConfig.clientId)
  let clientId :=
    match preservedSharedClientId with
    | some sharedClientId => if host.clientId.isSome then sharedClientId else settingsConfig.clientId
    | none => settingsConfig.clientId
  let catalog ← catalogFromSettings settings paths
  .ok { settings := { settingsConfig with clientId }, catalog, host }

def resolveSharedSettings (layered : LayeredConfig) (paths : SharedConfigPaths) : Except String Settings := do
  let settings ← layered.settings.applyToSettings {} paths
  let torrents ← layered.catalog.mapM (CatalogTorrentSettings.toSettings · paths)
  .ok (layered.host.applyToSettings { settings with torrents })

end LayeredConfig

/-! ## Metadata -/

/-- How torrents are identified and magnet links are read. -/
structure TorrentIdentity where
  infoHashFromTorrentSource : String → Option Bytes
  extractMagnetQueryValue : String → String → Option String
  parseU64 : String → Option ℕ
  /-- The hash that a magnet link is added under: the link is valid and has a v1 or a v2 hash. -/
  magnetInfoHash : String → Option Bytes
  extractMagnetExactLength : String → Option ℕ
  extractMagnetDisplayName : String → Option String
  hexDecode : String → Option Bytes

def isWhitespace (c : Char) : Bool :=
  c.toNat ∈ [0x20, 0x85, 0xA0, 0x1680, 0x2028, 0x2029, 0x202F, 0x205F, 0x3000] || 9 ≤ c.toNat && c.toNat ≤ 13 ||
    0x2000 ≤ c.toNat && c.toNat ≤ 0x200A

def trim (text : String) : String :=
  String.ofList ((text.toList.dropWhile isWhitespace).rdropWhile isWhitespace)

def normalizeMagnetFileName (name : String) : String :=
  let pieces := (name.toList.map fun c => if c = '\\' then '/' else c).splitOn '/' |>.map String.ofList
  "/".intercalate (pieces.filter fun segment => trim segment ∉ ["", ".", ".."])

namespace TorrentIdentity

variable (identity : TorrentIdentity)

def magnetMetadataPlaceholderFromSettings (settings : TorrentSettings) (infoHash : Bytes) : TorrentMetadataEntry :=
  let displayName :=
    ((identity.extractMagnetQueryValue settings.torrentOrMagnet "dn").filter (· ≠ "")).getD settings.name
  let length := ((identity.extractMagnetQueryValue settings.torrentOrMagnet "xl").bind identity.parseU64).getD 0
  { infoHashHex := hexEncode infoHash
    torrentName := displayName
    totalSize := length
    isMultiFile := false
    files :=
      if displayName ≠ "" ∧ 0 < length then [{ relativePath := normalizeMagnetFileName displayName, length }] else []
    filePriorities := settings.filePriorities }

def placeholderFromSettings (settings : TorrentSettings) : Option TorrentMetadataEntry :=
  (identity.infoHashFromTorrentSource settings.torrentOrMagnet).map fun infoHash =>
    if settings.torrentOrMagnet.startsWith "magnet:" then
      identity.magnetMetadataPlaceholderFromSettings settings infoHash
    else
      { infoHashHex := hexEncode infoHash
        torrentName := settings.name
        filePriorities := settings.filePriorities }

end TorrentIdentity

def TorrentMetadataEntry.applySettingsOverrides (entry : TorrentMetadataEntry) (settings : TorrentSettings) :
    TorrentMetadataEntry :=
  { entry with
    torrentName := if settings.name ≠ "" then settings.name else entry.torrentName
    filePriorities := settings.filePriorities }

def resolveMagnetTorrentName (requestedName : String) (displayName : Option String) (infoHash : Bytes) : String :=
  if trim requestedName ≠ "" ∧ requestedName ≠ "Fetching name..." then requestedName
  else displayName.getD ("Magnet " ++ hexEncode infoHash)

/-- What `persist_magnet_metadata_snapshot` stores for a magnet link that tells its length and its name. -/
def TorrentIdentity.magnetMetadataSnapshot (identity : TorrentIdentity) (settings : TorrentSettings)
    (infoHash : Bytes) : Option TorrentMetadataEntry := do
  let length ← identity.extractMagnetExactLength settings.torrentOrMagnet
  let fileName ← identity.extractMagnetDisplayName settings.torrentOrMagnet
  some
    { infoHashHex := hexEncode infoHash
      torrentName := resolveMagnetTorrentName settings.name (some fileName) infoHash
      totalSize := length
      isMultiFile := false
      -- `normalize_magnet_metadata_path` does the same
      files := [{ relativePath := normalizeMagnetFileName fileName, length }]
      filePriorities := settings.filePriorities }

def upsertTorrentMetadataEntry (entry : TorrentMetadataEntry) : List TorrentMetadataEntry → List TorrentMetadataEntry
  | [] => [entry]
  | existing :: rest =>
    if existing.infoHashHex = entry.infoHashHex then entry :: rest
    else existing :: upsertTorrentMetadataEntry entry rest

/-- The entry of an info hash; of several the last one counts. -/
def metadataByHash (metadata : List TorrentMetadataEntry) (infoHashHex : String) : Option TorrentMetadataEntry :=
  metadata.reverse.find? fun entry => entry.infoHashHex = infoHashHex

namespace TorrentIdentity

variable (identity : TorrentIdentity)

def syncLoop : List TorrentMetadataEntry → List TorrentSettings → List TorrentMetadataEntry
  | _, [] => []
  | existing, torrent :: torrents =>
    match identity.placeholderFromSettings torrent with
    | none => syncLoop existing torrents
    | some placeholder =>
      let entry := (metadataByHash existing placeholder.infoHashHex).getD placeholder
      entry.applySettingsOverrides torrent ::
        syncLoop (existing.filter fun other => other.infoHashHex ≠ placeholder.infoHashHex) torrents

def syncTorrentMetadataWithSettings (existing : List TorrentMetadataEntry) (settings : Settings) :
    List TorrentMetadataEntry :=
  identity.syncLoop existing settings.torrents

def applyMetadataToTorrent (metadata : List TorrentMetadataEntry) (torrent : TorrentSettings) : TorrentSettings :=
  match (identity.infoHashFromTorrentSource torrent.torrentOrMagnet).bind fun infoHash =>
    metadataByHash metadata (hexEncode infoHash) with
  | none => torrent
  | some entry =>
    { torrent with
      filePriorities := entry.filePriorities
      name := if torrent.name = "" ∧ entry.torrentName ≠ "" then entry.torrentName else torrent.name }

def applyMetadataToSettings (metadata : List TorrentMetadataEntry) (settings : Settings) : Settings :=
  { settings with torrents := settings.torrents.map (identity.applyMetadataToTorrent metadata) }

end TorrentIdentity

/-! ## Loading and saving -/

/-- What the environment of a host overrides. -/
structure EnvOverrides where
  /-- A port, or a random one. -/
  clientPort : Option (Option ℕ) := none
  defaultDownloadFolder : Option String := none
  outputStatusInterval : Option ℕ := none

def EnvOverrides.apply (env : EnvOverrides) (settings : Settings) : Settings :=
  { settings with
    clientPort :=
      match env.clientPort with
      | some (some port) => port
      | _ => settings.clientPort
    randomizeClientPort :=
      match env.clientPort with
      | some (some _) => false
      | some none => true
      | none => settings.clientPort = 0 || settings.randomizeClientPort
    defaultDownloadFolder := env.defaultDownloadFolder <|> settings.defaultDownloadFolder
    outputStatusInterval := env.outputStatusInterval.getD settings.outputStatusInterval }

/-- The files of the cluster. A file that is missing reads as its default; the file of a host is created when
the host first loads. -/
structure SharedFiles where
  settings : SharedSettingsConfig := {}
  catalog : List CatalogTorrentSettings := []
  metadata : List TorrentMetadataEntry := []
  hosts : String → Option HostConfig := fun _ => none
  revision : ℕ := 0

structure ClusterHost where
  hostId : String
  paths : SharedConfigPaths
  env : EnvOverrides

def validateSharedRuntimeSettings (settings : Settings) (paths : SharedConfigPaths) : Except String Unit := do
  let _ ← settings.defaultDownloadFolder.mapM fun path =>
    encodeSharedDataPath path paths.mountDir "default_download_folder"
  let _ ← settings.torrents.mapM fun torrent => torrent.downloadPath.mapM fun path =>
    encodeSharedDataPath path paths.mountDir ("torrent '" ++ torrent.name ++ "'")
  .ok ()

namespace ClusterHost

variable (identity : TorrentIdentity) (host : ClusterHost)

def currentHostConfig (files : SharedFiles) : HostConfig := (files.hosts host.hostId).getD {}

/-- `load_current_shared_layered`: a missing host file is created. -/
def bootstrapHost (files : SharedFiles) : SharedFiles :=
  { files with hosts := Function.update files.hosts host.hostId (some (host.currentHostConfig files)) }

def loadCurrentSharedLayered (files : SharedFiles) : LayeredConfig where
  settings := files.settings
  catalog := files.catalog
  host := host.currentHostConfig files

def loadSettings (files : SharedFiles) : Except String Settings := do
  let resolved ← (host.loadCurrentSharedLayered files).resolveSharedSettings host.paths
  let resolved := host.env.apply (identity.applyMetadataToSettings files.metadata resolved)
  validateSharedRuntimeSettings resolved host.paths
  .ok resolved

/-- Write the layers that differ. The `writes` first writes succeed, the next one fails. -/
def writeLayers (next : LayeredConfig) (metadata : List TorrentMetadataEntry) (stamp writes : ℕ) (files : SharedFiles) :
    Except String Unit × SharedFiles :=
  let settingsChanged := next.settings.key ≠ files.settings.key
  let catalogChanged := next.catalog.map CatalogTorrentSettings.key ≠ files.catalog.map CatalogTorrentSettings.key
  let metadataChanged := metadata ≠ files.metadata
  let hostChanged := next.host.key ≠ (host.currentHostConfig files).key
  let steps : List (Bool × (SharedFiles → SharedFiles)) :=
    [(settingsChanged, fun f => { f with settings := next.settings }),
      (catalogChanged, fun f => { f with catalog := next.catalog }),
      (metadataChanged, fun f => { f with metadata }),
      (hostChanged, fun f => { f with hosts := Function.update f.hosts host.hostId (some next.host) }),
      (settingsChanged || catalogChanged || metadataChanged, fun f => { f with revision := stamp })]
  let due := (steps.filter (·.1)).map (·.2)
  (if due.length ≤ writes then .ok () else .error "write failed",
    (due.take writes).foldl (fun f write => write f) files)

def saveSettings (settings : Settings) (stamp writes : ℕ) (files : SharedFiles) : Except String Unit × SharedFiles :=
  match validateSharedRuntimeSettings settings host.paths with
  | .error error => (.error error, files)
  | .ok () =>
    let files := host.bootstrapHost files
    let current := host.loadCurrentSharedLayered files
    match LayeredConfig.fromSharedSettings settings host.paths
      (current.host.clientId.map fun _ => current.settings.clientId) with
    | .error error => (.error error, files)
    | .ok next =>
      host.writeLayers next (identity.syncTorrentMetadataWithSettings files.metadata settings) stamp writes files

end ClusterHost

/-! ## The application -/

inductive SettingsChangeScope where
  | noChange
  | hostOnly
  | sharedOrMixed
deriving DecidableEq, Repr

def Settings.withoutHost (settings : Settings) : Settings := HostConfig.applyToSettings {} settings

def classifySharedModeSettingsChange (current new : Settings) : SettingsChangeScope :=
  if new.key = current.key then .noChange
  else if current.withoutHost.key = new.withoutHost.key ∧
      (HostConfig.fromFlatSettings current).key ≠ (HostConfig.fromFlatSettings new).key then .hostOnly
  else .sharedOrMixed

def preserveBoundRandomClientPort (old new : Settings) : Settings :=
  if old.randomizeClientPort && new.randomizeClientPort then { new with clientPort := old.clientPort } else new

/-- What `apply_settings_update` makes of the settings in memory; a port that cannot be bound is given up. -/
def applySettingsUpdate (old new : Settings) (portLost : Bool) : Settings :=
  let new := preserveBoundRandomClientPort old new
  if portLost then
    { new with clientPort := old.clientPort, randomizeClientPort := old.randomizeClientPort }
  else new

/-- The torrents of the new settings whose info hash the old ones lack; of several with one hash the last one. -/
def TorrentIdentity.addedTorrents (identity : TorrentIdentity) (old new : Settings) : List TorrentSettings :=
  let infoHash (torrent : TorrentSettings) := identity.infoHashFromTorrentSource torrent.torrentOrMagnet
  (new.torrents.filter fun torrent =>
    (infoHash torrent).isSome && old.torrents.all fun known => infoHash known ≠ infoHash torrent).pwFilter
      fun torrent later => infoHash torrent ≠ infoHash later

def chosen (torrents : List TorrentSettings) (order : List ℕ) : List TorrentSettings :=
  order.filterMap fun position => torrents[position]?

structure Cluster where
  files : SharedFiles
  memory : String → Settings
  /-- `persisted_torrent_metadata_cache`. -/
  snapshots : String → Bytes → Option TorrentMetadataEntry := fun _ _ => none
  leader : Option String

/-- Where a host loads torrents, `order` gives their positions. Torrents that are put off and torrents whose
snapshot cannot be written are left out of it. -/
inductive ClusterEvent where
  /-- A host starts; a follower may refresh its client id in memory only. -/
  | start (host : ClusterHost) (clientId : Option String) (order : List ℕ)
  /-- `load_next_startup_batch`: torrents that a start has put off. -/
  | loadNextStartupBatch (host : ClusterHost) (order : List ℕ)
  /-- The leader changes. -/
  | elect (hostId : Option String)
  /-- The leader saves. -/
  | leaderSave (host : ClusterHost) (settings : Settings) (stamp writes : ℕ)
  /-- `persist_torrent_metadata_snapshot`, for a torrent whose info dictionary is known. -/
  | persistTorrentMetadata (host : ClusterHost) (infoHash : Bytes) (entry : TorrentMetadataEntry)
  /-- `AppCommand::ReloadClusterState`. -/
  | reload (host : ClusterHost) (portLost : Bool) (order : List ℕ)
  /-- `AppCommand::UpdateConfig`. -/
  | updateConfig (host : ClusterHost) (settings : Settings) (stamp writes : ℕ) (portLost : Bool) (order : List ℕ)
  /-- A listener is bound to a port. -/
  | bound (host : ClusterHost) (port : ℕ) (pinned : Bool)

namespace Cluster

variable (identity : TorrentIdentity)

def setMemory (cluster : Cluster) (host : ClusterHost) (settings : Settings) : Cluster :=
  { cluster with memory := Function.update cluster.memory host.hostId settings }

def isFollower (cluster : Cluster) (host : ClusterHost) : Bool := cluster.leader ≠ some host.hostId

/-- The end of both snapshot functions. The shared backend writes whoever leads. -/
def upsertTorrentMetadata (cluster : Cluster) (host : ClusterHost) (infoHash : Bytes) (entry : TorrentMetadataEntry) :
    Cluster :=
  if cluster.snapshots host.hostId infoHash = some entry then cluster
  else
    { cluster with
      files := { cluster.files with metadata := upsertTorrentMetadataEntry entry cluster.files.metadata }
      snapshots := Function.update cluster.snapshots host.hostId
        (Function.update (cluster.snapshots host.hostId) infoHash (some entry)) }

def persistMagnetMetadataSnapshot (cluster : Cluster) (host : ClusterHost) (torrent : TorrentSettings)
    (infoHash : Bytes) : Cluster :=
  match identity.magnetMetadataSnapshot torrent infoHash with
  | none => cluster
  | some entry => cluster.upsertTorrentMetadata host infoHash entry

/-- What `load_runtime_torrent_from_settings` does to the files. A follower only displays a torrent that is not
validated, and the snapshot of a torrent file is left to the leader. -/
def loadRuntimeTorrent (host : ClusterHost) (cluster : Cluster) (torrent : TorrentSettings) : Cluster :=
  if torrent.torrentControlState = .deleting ∨ cluster.isFollower host ∧ torrent.validationStatus = false then cluster
  else if torrent.torrentOrMagnet.startsWith "magnet:" then
    match identity.magnetInfoHash torrent.torrentOrMagnet with
    | none => cluster
    | some infoHash => cluster.persistMagnetMetadataSnapshot identity host torrent infoHash
  else cluster

def loadRuntimeTorrents (cluster : Cluster) (host : ClusterHost) (torrents : List TorrentSettings) : Cluster :=
  torrents.foldl (loadRuntimeTorrent identity host) cluster

def applyUpdate (cluster : Cluster) (host : ClusterHost) (settings : Settings) (portLost : Bool) (order : List ℕ) :
    Cluster :=
  let old := cluster.memory host.hostId
  (cluster.setMemory host (applySettingsUpdate old settings portLost)).loadRuntimeTorrents identity host
    (chosen (identity.addedTorrents old settings) order)

def step (cluster : Cluster) : ClusterEvent → Cluster
  | .start host clientId order =>
    match host.loadSettings identity cluster.files with
    | .error _ => cluster
    | .ok settings =>
      let started := { cluster with files := host.bootstrapHost cluster.files }.setMemory host
        { settings with clientId := clientId.getD settings.clientId }
      let known (infoHash : Bytes) : Option TorrentMetadataEntry :=
        cluster.files.metadata.reverse.find? fun entry => identity.hexDecode entry.infoHashHex = some infoHash
      { started with snapshots := Function.update started.snapshots host.hostId known }.loadRuntimeTorrents identity
        host (chosen settings.torrents order)
  | .loadNextStartupBatch host order =>
    cluster.loadRuntimeTorrents identity host (chosen (cluster.memory host.hostId).torrents order)
  | .elect hostId => { cluster with leader := hostId }
  | .leaderSave host settings stamp writes =>
    if cluster.isFollower host then cluster
    else { cluster with files := (host.saveSettings identity settings stamp writes cluster.files).2 }
  | .persistTorrentMetadata host infoHash entry =>
    if cluster.isFollower host then cluster else cluster.upsertTorrentMetadata host infoHash entry
  | .reload host portLost order =>
    if !cluster.isFollower host then cluster
    else
      match host.loadSettings identity cluster.files with
      | .error _ => cluster
      | .ok settings =>
        let cluster := { cluster with files := host.bootstrapHost cluster.files }
        if settings.key = (cluster.memory host.hostId).key then cluster
        else cluster.applyUpdate identity host settings portLost order
  | .updateConfig host settings stamp writes portLost order =>
    if cluster.isFollower host then
      match classifySharedModeSettingsChange (cluster.memory host.hostId) settings with
      | .noChange => cluster
      | .sharedOrMixed => cluster
      | .hostOnly =>
        match host.saveSettings identity settings stamp writes cluster.files with
        | (.ok (), files) => { cluster with files }.applyUpdate identity host settings portLost order
        | (.error _, files) => { cluster with files }
    else cluster.applyUpdate identity host settings portLost order
  | .bound host port pinned =>
    let memory := cluster.memory host.hostId
    cluster.setMemory host
      { memory with clientPort := port, randomizeClientPort := if pinned then false else memory.randomizeClientPort }

def run (cluster : Cluster) (events : List ClusterEvent) : Cluster := events.foldl (step identity) cluster

end Cluster

end Superseedr
