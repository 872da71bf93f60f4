import Superseedr.ToMathlib.AssocMap
import Superseedr.Model.SharedConfig

/-! # The application

The application keeps a display state and a manager for every running torrent, and the settings it last
applied or saved. At startup most running torrents wait in a queue and are loaded one by one. What is saved
is put together from the display states and that queue, not from the settings.

What a torrent file holds, whether copies can be written and whether a manager can be made are answers of
the outside world; an event carries the answers for every source it may load. Commands to managers are not
modelled: a manager that ends is an event of its own, and so are the metrics it reports.
-/

namespace Superseedr

/-! ## Display states -/

/-- The fields of `TorrentMetrics` that settings are saved from. -/
structure TorrentMetrics where
  torrentControlState : TorrentControlState := .running
  deleteFiles : Bool := false
  torrentOrMagnet : String := ""
  torrentName : String := ""
  downloadPath : Option String := none
  containerName : Option String := none
  numberOfPiecesTotal : ℕ := 0
  numberOfPiecesCompleted : ℕ := 0
  isComplete : Bool := false
  activityMessage : String := ""
  filePriorities : Finmap (fun _ : ℕ => FilePriority) := ∅
  sessionTotalDownloaded : ℕ := 0
  sessionTotalUploaded : ℕ := 0
deriving DecidableEq

structure TorrentDisplayState where
  latestState : TorrentMetrics := {}
  addedAtUnixSecs : Option ℕ := none
  lastSeenSessionTotalDownloaded : ℕ := 0
  lastSeenSessionTotalUploaded : ℕ := 0
deriving DecidableEq

def activityMarksTorrentComplete (activityMessage : String) : Bool :=
  "Seeding".toList <:+: activityMessage.toList || "Finished".toList <:+: activityMessage.toList

def torrentHasSkippedFiles (metrics : TorrentMetrics) : Bool :=
  metrics.filePriorities.any fun _ priority => priority = .skip

def torrentIsEffectivelyIncomplete (metrics : TorrentMetrics) : Bool :=
  if activityMarksTorrentComplete metrics.activityMessage then false
  else if torrentHasSkippedFiles metrics then false
  else if metrics.numberOfPiecesTotal = 0 then !metrics.isComplete
  else 0 < metrics.numberOfPiecesTotal && metrics.numberOfPiecesCompleted < metrics.numberOfPiecesTotal

/-- Before metadata is known the earlier status is kept. -/
def persistedValidationStatusFromMetrics (metrics : TorrentMetrics) (previousValidationStatus : Bool) : Bool :=
  if metrics.numberOfPiecesTotal = 0 && metrics.numberOfPiecesCompleted = 0 && !metrics.isComplete &&
      !activityMarksTorrentComplete metrics.activityMessage && !torrentHasSkippedFiles metrics then
    previousValidationStatus
  else metrics.isComplete || !torrentIsEffectivelyIncomplete metrics

/-- `UiTelemetry::on_metrics` on the display state of the torrent. Priorities, control state and source are
kept as the display has them. -/
def TorrentDisplayState.onMetrics (display : TorrentDisplayState) (message : TorrentMetrics) : TorrentDisplayState :=
  { display with
    lastSeenSessionTotalDownloaded := message.sessionTotalDownloaded
    lastSeenSessionTotalUploaded := message.sessionTotalUploaded
    latestState :=
      { display.latestState with
        numberOfPiecesTotal := message.numberOfPiecesTotal
        numberOfPiecesCompleted := message.numberOfPiecesCompleted
        sessionTotalDownloaded := message.sessionTotalDownloaded
        sessionTotalUploaded := message.sessionTotalUploaded
        downloadPath := message.downloadPath <|> display.latestState.downloadPath
        torrentName := if message.torrentName ≠ "" then message.torrentName else display.latestState.torrentName
        containerName := message.containerName
        isComplete := message.isComplete
        activityMessage := message.activityMessage } }

/-! ## The outside world -/

structure TorrentSources where
  /-- The v1 and the v2 hash of a magnet link. -/
  parseHybridHashes : String → Option Bytes × Option Bytes
  /-- The hash that the magnet parser finds. -/
  magnetHash : String → Option Bytes
  extractMagnetDisplayName : String → Option String
  /-- The hash that the stem of a file name spells. -/
  fileStemHash : String → Option Bytes
  torrentFilePath : Bytes → String
  torrentFilePath_isFile : ∀ infoHash, (torrentFilePath infoHash).startsWith "magnet:" = false
  fileStemHash_torrentFilePath : ∀ infoHash, fileStemHash (torrentFilePath infoHash) = some infoHash

namespace TorrentSources

variable (sources : TorrentSources)

def canonicalInfoHashFromMagnetLink (magnetLink : String) : Option Bytes :=
  let (v1Hash, v2Hash) := sources.parseHybridHashes magnetLink
  v1Hash <|> v2Hash <|> sources.magnetHash magnetLink

def infoHashFromTorrentSource (source : String) : Option Bytes :=
  if source.startsWith "magnet:" then sources.canonicalInfoHashFromMagnetLink source
  else sources.fileStemHash source

def infoHash (torrent : TorrentSettings) : Option Bytes := sources.infoHashFromTorrentSource torrent.torrentOrMagnet

end TorrentSources

structure TorrentFileSummary where
  infoHash : Bytes
  name : String
  pieceCount : ℕ

inductive CommandIngestResult where
  | added (infoHash : Option Bytes) (torrentName : Option String)
  | duplicate (infoHash : Option Bytes) (torrentName : Option String)
  | invalid (infoHash : Option Bytes) (torrentName : Option String) (message : String)
  | failed (infoHash : Option Bytes) (torrentName : Option String) (message : String)
deriving DecidableEq

def CommandIngestResult.restored : CommandIngestResult → Bool
  | .added _ _ => true
  | .duplicate _ _ => true
  | .invalid _ _ _ => false
  | .failed _ _ _ => false

/-- Why a torrent file is not taken; a build that finds peers by itself refuses private torrents. -/
inductive TorrentFileError where
  | unreadable (message : String)
  | malformed (message : String)
  | privateTorrent (name : String)

def TorrentFileError.result : TorrentFileError → CommandIngestResult
  | .unreadable message => .failed none none message
  | .malformed message => .invalid none none message
  | .privateTorrent name => .failed none (some name) ("Rejected private torrent '" ++ name ++ "' in normal build.")

/-- The answers of the world when a source is loaded; the messages tell the system's errors. -/
structure LoadOutcome where
  torrentFile : Except TorrentFileError TorrentFileSummary
  /-- Whether the magnet link parses. -/
  magnet : Except String Unit
  /-- Whether the copies of the torrent file are written. -/
  prepared : Except String Unit
  /-- Whether a manager is made. -/
  created : Except String Unit
  now : ℕ

/-- The answers for every source. -/
abbrev Outcomes := String → LoadOutcome

/-! ## State -/

structure UiPreferences where
  torrentSort : TorrentSortColumn × SortDirection
  torrentSortPinned : Bool
  peerSort : PeerSortColumn × SortDirection
  peerSortPinned : Bool
  dataRate : DataRate

def TorrentSortColumn.defaultDirection : TorrentSortColumn → SortDirection
  | .name => .ascending
  | .up => .descending
  | .down => .descending
  | .progress => .ascending

def PeerSortColumn.defaultDirection : PeerSortColumn → SortDirection
  | .address => .ascending
  | .client => .ascending
  | .action => .ascending
  | .flags => .descending
  | .completed => .descending
  | .ul => .descending
  | .dl => .descending

def UiPreferences.ofSettings (settings : Settings) : UiPreferences where
  torrentSort := (settings.torrentSortColumn, if settings.torrentSortPinned then settings.torrentSortDirection
    else settings.torrentSortColumn.defaultDirection)
  torrentSortPinned := settings.torrentSortPinned
  peerSort := (settings.peerSortColumn, if settings.peerSortPinned then settings.peerSortDirection
    else settings.peerSortColumn.defaultDirection)
  peerSortPinned := settings.peerSortPinned
  dataRate := settings.uiRefreshRate

structure App where
  clientConfigs : Settings
  ui : UiPreferences
  lifetimeDownloadedFromConfig : ℕ
  lifetimeUploadedFromConfig : ℕ
  sessionTotalDownloaded : ℕ := 0
  sessionTotalUploaded : ℕ := 0
  torrents : AList (fun _ : Bytes => TorrentDisplayState) := ∅
  /-- The torrents with a manager to send commands to. -/
  managers : Finset Bytes := ∅
  /-- The torrents whose metrics are watched. -/
  watches : Finset Bytes := ∅
  startupDeferredLoadQueue : List Bytes := []
  pendingMagnetPreviewInfoHash : Option Bytes := none
  isFollower : Bool

def startupRollingLoadsPerInterval : ℕ := 1

def shouldLoadPersistedTorrent (torrent : TorrentSettings) : Bool := torrent.torrentControlState ≠ .deleting

namespace App

variable (sources : TorrentSources) (app : App)

def shouldSuppressFollowerRuntimeForTorrent (torrent : TorrentSettings) : Bool :=
  app.isFollower && !torrent.validationStatus

/-! ## Adding torrents -/

def clearDisplayOnlyTorrent (infoHash : Bytes) : App :=
  if infoHash ∈ app.managers then app else { app with torrents := app.torrents.erase infoHash }

def configureDuplicate (infoHash : Bytes) (path : String) (containerName : Option String)
    (filePriorities : Finmap (fun _ : ℕ => FilePriority)) : App :=
  { app with
    torrents := app.torrents.modify infoHash fun display =>
      { display with
        latestState := { display.latestState with downloadPath := some path, containerName, filePriorities } } }

/-- The end of both ways to add a torrent: the placeholder is shown, channels are made, and then the manager.
When there is no manager, the display and the metrics go away again; the command channel stays. -/
def startRuntime (infoHash : Bytes) (placeholder : TorrentDisplayState) (name failure : String)
    (created : Except String Unit) : App × CommandIngestResult :=
  let started :=
    { app with
      torrents := app.torrents.insert infoHash placeholder
      managers := insert infoHash app.managers
      watches := insert infoHash app.watches }
  match created with
  | .ok () => (started, .added (some infoHash) (some name))
  | .error error =>
    ({ started with torrents := started.torrents.erase infoHash, watches := started.watches.erase infoHash },
      .failed (some infoHash) (some name) (failure ++ error))

def addTorrentFromFile (outcome : LoadOutcome) (downloadPath : Option String) (isValidated : Bool)
    (torrentControlState : TorrentControlState) (filePriorities : Finmap (fun _ : ℕ => FilePriority))
    (containerName : Option String) (app : App) : App × CommandIngestResult :=
  match outcome.torrentFile with
  | .error error => (app, error.result)
  | .ok torrent =>
    let infoHash := torrent.infoHash
    if infoHash ∈ app.torrents ∧ infoHash ∈ app.managers then
      let configured :=
        if app.pendingMagnetPreviewInfoHash = some infoHash then
          match downloadPath with
          | some path => app.configureDuplicate infoHash path containerName filePriorities
          | none => app
        else app
      (configured, .duplicate (some infoHash) (some torrent.name))
    else
      let app := if infoHash ∈ app.torrents then app.clearDisplayOnlyTorrent infoHash else app
      match outcome.prepared with
      | .error error => (app, .failed (some infoHash) (some torrent.name) error)
      | .ok () =>
        app.startRuntime infoHash
          { latestState :=
              { torrentControlState, torrentOrMagnet := sources.torrentFilePath infoHash, torrentName := torrent.name,
                downloadPath, containerName, isComplete := isValidated, numberOfPiecesTotal := torrent.pieceCount,
                filePriorities }
            addedAtUnixSecs := some outcome.now }
          torrent.name "Failed to create torrent manager from file: " outcome.created

def addMagnetTorrent (outcome : LoadOutcome) (torrentName magnetLink : String) (downloadPath : Option String)
    (isValidated : Bool) (torrentControlState : TorrentControlState)
    (filePriorities : Finmap (fun _ : ℕ => FilePriority)) (containerName : Option String) (app : App) :
    App × CommandIngestResult :=
  match outcome.magnet with
  | .error error => (app, .invalid none none ("Could not parse invalid magnet: " ++ error))
  | .ok () =>
    match (sources.parseHybridHashes magnetLink).1 <|> (sources.parseHybridHashes magnetLink).2 with
    | none => (app, .invalid none none "Magnet link is missing both btih and btmh hashes")
    | some infoHash =>
      let resolvedName := resolveMagnetTorrentName torrentName (sources.extractMagnetDisplayName magnetLink) infoHash
      if infoHash ∈ app.torrents ∧ infoHash ∈ app.managers then
        let configured :=
          match downloadPath with
          | some path => app.configureDuplicate infoHash path containerName filePriorities
          | none => app
        (configured, .duplicate (some infoHash) (some resolvedName))
      else
        let app := if infoHash ∈ app.torrents then app.clearDisplayOnlyTorrent infoHash else app
        -- The placeholder of a magnet link does not take over the priorities.
        app.startRuntime infoHash
          { latestState :=
              { torrentControlState, torrentOrMagnet := magnetLink, torrentName := resolvedName, downloadPath,
                containerName, isComplete := isValidated }
            addedAtUnixSecs := some outcome.now }
          resolvedName "Failed to create new torrent manager from magnet: " outcome.created

/-! ## Loading configured torrents -/

def displayStateFromTorrentSettings (torrent : TorrentSettings) : TorrentDisplayState where
  latestState :=
    { torrentControlState := torrent.torrentControlState
      deleteFiles := torrent.deleteFiles
      torrentOrMagnet := torrent.torrentOrMagnet
      torrentName := torrent.name
      downloadPath := torrent.downloadPath <|> app.clientConfigs.defaultDownloadFolder
      containerName := torrent.containerName
      filePriorities := torrent.filePriorities
      isComplete := torrent.validationStatus
      activityMessage := "Reader mode waiting for leader status" }
  addedAtUnixSecs := torrent.addedAtUnixSecs

def ensureDisplayOnlyTorrentFromSettings (torrent : TorrentSettings) : App :=
  match sources.infoHash torrent with
  | none => app
  | some infoHash =>
    if infoHash ∈ app.torrents then app
    else { app with torrents := app.torrents.insert infoHash (app.displayStateFromTorrentSettings torrent) }

def preserveRestoredAddedAt (torrent : TorrentSettings) : App :=
  match torrent.addedAtUnixSecs, sources.infoHash torrent with
  | some addedAt, some infoHash =>
    { app with
      torrents := app.torrents.modify infoHash fun display => { display with addedAtUnixSecs := some addedAt } }
  | _, _ => app

def addConfigured (outcome : LoadOutcome) (torrent : TorrentSettings) (app : App) : App × CommandIngestResult :=
  if torrent.torrentOrMagnet.startsWith "magnet:" then
    app.addMagnetTorrent sources outcome torrent.name torrent.torrentOrMagnet torrent.downloadPath
      torrent.validationStatus torrent.torrentControlState torrent.filePriorities torrent.containerName
  else
    app.addTorrentFromFile sources outcome torrent.downloadPath torrent.validationStatus torrent.torrentControlState
      torrent.filePriorities torrent.containerName

def loadRuntimeTorrentFromSettings (outcomes : Outcomes) (torrent : TorrentSettings) (app : App) : App × Bool :=
  if !shouldLoadPersistedTorrent torrent then (app, false)
  else if app.shouldSuppressFollowerRuntimeForTorrent torrent then
    (app.ensureDisplayOnlyTorrentFromSettings sources torrent, true)
  else
    let (app, result) := app.addConfigured sources (outcomes torrent.torrentOrMagnet) torrent
    if result.restored then (app.preserveRestoredAddedAt sources torrent, true) else (app, false)

/-! ## The read model of a follower -/

/-- What a leader's status file tells of its torrents. -/
abbrev LeaderSnapshot := Bytes → Option TorrentMetrics

def applyLeaderMetrics (snapshot : LeaderSnapshot) (app : App) (torrent : TorrentSettings) : App :=
  match sources.infoHash torrent with
  | none => app
  | some infoHash =>
    let app := app.ensureDisplayOnlyTorrentFromSettings sources torrent
    let live : Bool := infoHash ∈ app.managers
    match snapshot infoHash with
    | none =>
      if live then app
      else
        { app with
          torrents := app.torrents.modify infoHash fun display =>
            { display with
              latestState := { display.latestState with activityMessage := "Leader runtime unavailable" } } }
    | some leaderMetrics =>
      { app with
        torrents := app.torrents.modify infoHash fun display =>
          if live && display.latestState.isComplete then display else { display with latestState := leaderMetrics } }

def refreshFollowerReadModel (snapshot : Option LeaderSnapshot) (app : App) : App :=
  if !app.isFollower then app
  else
    let app := app.clientConfigs.torrents.foldl (fun app torrent =>
      if app.shouldSuppressFollowerRuntimeForTorrent torrent then
        app.ensureDisplayOnlyTorrentFromSettings sources torrent
      else app) app
    match snapshot with
    | none => app
    | some snapshot => app.clientConfigs.torrents.foldl (applyLeaderMetrics sources snapshot) app

/-! ## Startup -/

/-- The loop of `App::new`; only so many running torrents are started at once, the others are queued. -/
def startupLoop (outcomes : Outcomes) : ℕ → List TorrentSettings → App → App
  | _, [], app => app
  | started, torrent :: rest, app =>
    let shouldRoll := torrent.torrentControlState = .running && !app.shouldSuppressFollowerRuntimeForTorrent torrent
    if shouldRoll && startupRollingLoadsPerInterval ≤ started then
      match sources.infoHash torrent with
      | some infoHash =>
        startupLoop outcomes started rest
          { app with startupDeferredLoadQueue := app.startupDeferredLoadQueue ++ [infoHash] }
      | none => startupLoop outcomes started rest (app.loadRuntimeTorrentFromSettings sources outcomes torrent).1
    else
      let (app, loaded) := app.loadRuntimeTorrentFromSettings sources outcomes torrent
      startupLoop outcomes (if loaded && shouldRoll then started + 1 else started) rest app

/-- Validated torrents come first. -/
def startupOrder (torrents : List TorrentSettings) : List TorrentSettings :=
  torrents.filter (·.validationStatus) ++ torrents.filter (!·.validationStatus)

/-- Before anything is loaded. -/
def initial (settings : Settings) (isFollower : Bool) : App where
  clientConfigs := settings
  ui := .ofSettings settings
  lifetimeDownloadedFromConfig := settings.lifetimeDownloaded
  lifetimeUploadedFromConfig := settings.lifetimeUploaded
  isFollower := isFollower

def new (settings : Settings) (isFollower : Bool) (outcomes : Outcomes) (snapshot : Option LeaderSnapshot) : App :=
  let app := startupLoop sources outcomes 0 (startupOrder settings.torrents) (initial settings isFollower)
  app.refreshFollowerReadModel sources snapshot

/-! ## Saving -/

/-- The record of a torrent that is saved. -/
def persistedTorrent (previous : List TorrentSettings) (torrent : TorrentDisplayState) : TorrentSettings :=
  let state := torrent.latestState
  let old := previous.reverse.find? fun config => config.torrentOrMagnet = state.torrentOrMagnet
  { torrentOrMagnet := state.torrentOrMagnet
    name := state.torrentName
    addedAtUnixSecs := torrent.addedAtUnixSecs <|> old.bind TorrentSettings.addedAtUnixSecs
    validationStatus :=
      persistedValidationStatusFromMetrics state ((old.map TorrentSettings.validationStatus).getD false)
    downloadPath := state.downloadPath
    containerName := state.containerName
    torrentControlState := state.torrentControlState
    deleteFiles := state.deleteFiles
    filePriorities := state.filePriorities }

/-- Of the earlier torrents those that are queued and not yet in the list. -/
def deferredTorrents (deferred : List Bytes) : List Bytes → List TorrentSettings → List TorrentSettings
  | _, [] => []
  | persisted, torrent :: rest =>
    match sources.infoHash torrent with
    | none => deferredTorrents deferred persisted rest
    | some infoHash =>
      if infoHash ∈ deferred ∧ infoHash ∉ persisted then
        torrent :: deferredTorrents deferred (infoHash :: persisted) rest
      else deferredTorrents deferred persisted rest

/-- The running torrents apart from the preview. -/
def shownTorrents : AList (fun _ : Bytes => TorrentDisplayState) :=
  app.torrents.retain fun infoHash _ => app.pendingMagnetPreviewInfoHash ≠ some infoHash

def persistedTorrents : List TorrentSettings :=
  app.shownTorrents.entries.map (fun entry => persistedTorrent app.clientConfigs.torrents entry.2) ++
    deferredTorrents sources app.startupDeferredLoadQueue app.shownTorrents.keys app.clientConfigs.torrents

/-- The settings that are handed to persistence are also the settings in memory from then on. -/
def buildPersistPayload : Settings :=
  { app.clientConfigs with
    lifetimeDownloaded := app.lifetimeDownloadedFromConfig + app.sessionTotalDownloaded
    lifetimeUploaded := app.lifetimeUploadedFromConfig + app.sessionTotalUploaded
    torrentSortColumn := app.ui.torrentSort.1
    torrentSortDirection := app.ui.torrentSort.2
    torrentSortPinned := app.ui.torrentSortPinned
    peerSortColumn := app.ui.peerSort.1
    peerSortDirection := app.ui.peerSort.2
    peerSortPinned := app.ui.peerSortPinned
    uiRefreshRate := app.ui.dataRate
    torrents := app.persistedTorrents sources }

def saveStateToDisk : App × Option Settings :=
  if app.isFollower then (app, none)
  else
    let payload := app.buildPersistPayload sources
    ({ app with clientConfigs := payload }, some payload)

/-! ## Applying settings -/

/-- The settings by info hash; of several the last one counts. -/
def byHash (torrents : List TorrentSettings) : AList (fun _ : Bytes => TorrentSettings) :=
  torrents.foldl (fun known torrent =>
    match sources.infoHash torrent with
    | some infoHash => known.insert infoHash torrent
    | none => known) ∅

def removeTorrentRuntime (infoHash : Bytes) : App :=
  { app with
    torrents := app.torrents.erase infoHash
    managers := app.managers.erase infoHash
    watches := app.watches.erase infoHash }

def configureRuntime (torrent : TorrentSettings) (defaultFolder : Option String) (runtime : TorrentDisplayState) :
    TorrentDisplayState :=
  { runtime with
    addedAtUnixSecs := torrent.addedAtUnixSecs
    latestState :=
      { runtime.latestState with
        torrentName := torrent.name
        downloadPath := torrent.downloadPath <|> defaultFolder
        containerName := torrent.containerName
        filePriorities := torrent.filePriorities
        torrentControlState := torrent.torrentControlState
        deleteFiles := torrent.deleteFiles } }

def syncConfigured (defaultFolder : Option String) (app : App) (entry : Sigma fun _ : Bytes => TorrentSettings) : App :=
  let app := { app with torrents := app.torrents.modify entry.1 (configureRuntime entry.2 defaultFolder) }
  if app.shouldSuppressFollowerRuntimeForTorrent entry.2 then app.ensureDisplayOnlyTorrentFromSettings sources entry.2
  else app

/-- A torrent that is no longer configured is shut down, or forgotten when it has no manager. -/
def syncRemoved (infoHash : Bytes) : App :=
  if infoHash ∈ app.managers then
    { app with
      torrents := app.torrents.modify infoHash fun runtime =>
        { runtime with
          latestState := { runtime.latestState with torrentControlState := .deleting, deleteFiles := false } } }
  else app.removeTorrentRuntime infoHash

def syncRuntimeTorrentsFromSettings (old new : Settings) (outcomes : Outcomes) (snapshot : Option LeaderSnapshot)
    (app : App) : App :=
  let oldByHash := byHash sources old.torrents
  let newByHash := byHash sources new.torrents
  let added := newByHash.entries.filter fun entry => entry.1 ∉ oldByHash
  let app := newByHash.entries.foldl (syncConfigured sources new.defaultDownloadFolder) app
  let app := (oldByHash.keys.filter fun infoHash => infoHash ∉ newByHash).foldl syncRemoved app
  let app := added.foldl (fun app entry => (app.loadRuntimeTorrentFromSettings sources outcomes entry.2).1) app
  app.refreshFollowerReadModel sources snapshot

/-- The settings in memory and what is shown by them. -/
def takeSettings (new : Settings) (portLost : Bool) (app : App) : App :=
  let old := app.clientConfigs
  { app with
    clientConfigs := Superseedr.applySettingsUpdate old new portLost
    ui := if new.uiRefreshRate ≠ old.uiRefreshRate then { app.ui with dataRate := new.uiRefreshRate } else app.ui }

def applySettingsUpdate (new : Settings) (portLost : Bool) (outcomes : Outcomes) (snapshot : Option LeaderSnapshot)
    (app : App) : App :=
  (app.takeSettings new portLost).syncRuntimeTorrentsFromSettings sources app.clientConfigs new outcomes snapshot

/-! ## Deferred loading -/

/-- One round of `load_next_startup_batch`: the state, and whether a torrent was loaded. -/
def loadNextDeferred (outcomes : Outcomes) (app : App) : App × Bool :=
  match app.startupDeferredLoadQueue with
  | [] => (app, false)
  | infoHash :: rest =>
    let popped := { app with startupDeferredLoadQueue := rest }
    if infoHash ∈ app.managers then (popped, false)
    else
      match app.clientConfigs.torrents.find? fun torrent => sources.infoHash torrent = some infoHash with
      | none => (popped, false)
      | some torrent =>
        if !shouldLoadPersistedTorrent torrent then (popped, false)
        else
          let (app, loaded) := app.loadRuntimeTorrentFromSettings sources outcomes torrent
          if loaded then ({ app with startupDeferredLoadQueue := rest }, true)
          else ({ app with startupDeferredLoadQueue := rest ++ [infoHash] }, false)

/-- The rounds of a batch; a round that finds an empty queue ends it. -/
def loadRounds (outcomes : Outcomes) : ℕ → App → App × Bool
  | 0, app => (app, false)
  | rounds + 1, app =>
    let (app, loaded) := app.loadNextDeferred sources outcomes
    let (app, more) := loadRounds outcomes rounds app
    (app, loaded || more)

def loadNextStartupBatch (outcomes : Outcomes) (app : App) : App × Option Settings :=
  let (app, loaded) := loadRounds sources outcomes startupRollingLoadsPerInterval app
  if loaded then app.saveStateToDisk sources else (app, none)

def startMissingLoop (outcomes : Outcomes) : ℕ → List TorrentSettings → App → App
  | _, [], app => app
  | started, torrent :: rest, app =>
    match sources.infoHash torrent with
    | none => startMissingLoop outcomes started rest app
    | some infoHash =>
      if infoHash ∈ app.managers ∨ infoHash ∈ app.startupDeferredLoadQueue then
        startMissingLoop outcomes started rest app
      else if app.shouldSuppressFollowerRuntimeForTorrent torrent then
        startMissingLoop outcomes started rest (app.ensureDisplayOnlyTorrentFromSettings sources torrent)
      else if torrent.torrentControlState = .running ∧
          (startupRollingLoadsPerInterval ≤ started ∨ app.startupDeferredLoadQueue ≠ []) then
        startMissingLoop outcomes started rest
          { app with startupDeferredLoadQueue := app.startupDeferredLoadQueue ++ [infoHash] }
      else
        let (app, loaded) := app.loadRuntimeTorrentFromSettings sources outcomes torrent
        startMissingLoop outcomes (if loaded && torrent.torrentControlState = .running then started + 1 else started)
          rest app

def startMissingRuntimeTorrentsForCurrentRole (outcomes : Outcomes) (app : App) : App :=
  startMissingLoop sources outcomes 0 app.clientConfigs.torrents app

/-- The lock was acquired; `settings` is what loading the shared settings gave. -/
def maybePromoteToSharedLeader (settings : Option Settings) (portLost : Bool) (outcomes : Outcomes) (app : App) : App :=
  if !app.isFollower then app
  else
    let app := { app with isFollower := false }
    match settings with
    | none => app
    | some new =>
      let app :=
        if new.key ≠ app.clientConfigs.key then app.applySettingsUpdate sources new portLost outcomes none else app
      app.startMissingRuntimeTorrentsForCurrentRole sources outcomes

/-! ## Manager events -/

def deletionComplete (infoHash : Bytes) (app : App) : App × Option Settings :=
  let shouldRemoveFromSettings := !app.isFollower &&
    ((app.clientConfigs.torrents.find? fun torrent => sources.infoHash torrent = some infoHash).any fun torrent =>
      torrent.torrentControlState = .deleting && torrent.deleteFiles)
  let clientConfigs :=
    if shouldRemoveFromSettings then
      { app.clientConfigs with
        torrents := app.clientConfigs.torrents.filter fun torrent => sources.infoHash torrent ≠ some infoHash }
    else app.clientConfigs
  ({ app with clientConfigs }.removeTorrentRuntime infoHash).saveStateToDisk sources

def onMetrics (infoHash : Bytes) (message : TorrentMetrics) (now : ℕ) (app : App) : App :=
  if infoHash ∉ app.watches then app
  else
    let display := (app.torrents.lookup infoHash).getD { addedAtUnixSecs := some now }
    { app with
      sessionTotalDownloaded := app.sessionTotalDownloaded +
        (message.sessionTotalDownloaded - display.lastSeenSessionTotalDownloaded)
      sessionTotalUploaded := app.sessionTotalUploaded +
        (message.sessionTotalUploaded - display.lastSeenSessionTotalUploaded)
      torrents := app.torrents.insert infoHash (display.onMetrics message) }

/-! ## Commands -/

def clearPendingMagnetPreviewIfApplied (result : CommandIngestResult) (app : App) : App :=
  match result with
  | .added (some infoHash) _ | .duplicate (some infoHash) _ =>
    if app.pendingMagnetPreviewInfoHash = some infoHash then { app with pendingMagnetPreviewInfoHash := none } else app
  | _ => app

/-- What a control request does after it has added a torrent. -/
def finishAdd (hasAppliedDownloadPath : Bool) (added : App × CommandIngestResult) : App × Option Settings :=
  let (app, result) := added
  if result.restored then
    let app := if hasAppliedDownloadPath then app.clearPendingMagnetPreviewIfApplied result else app
    app.saveStateToDisk sources
  else (app, none)

/-- A magnet link is added to show its files before the user decides. -/
def previewMagnet (outcome : LoadOutcome) (magnetLink : String) (app : App) : App :=
  if app.isFollower then app
  else
    let (app, result) := app.addMagnetTorrent sources outcome "Fetching name..." magnetLink none false .running ∅ none
    match result with
    | .added infoHash _ =>
      match infoHash <|> sources.canonicalInfoHashFromMagnetLink magnetLink with
      | some infoHash => { app with pendingMagnetPreviewInfoHash := some infoHash }
      | none => app
    | _ => app

def cleanupPendingMagnetPreviewRuntime : App × Option Settings :=
  match app.pendingMagnetPreviewInfoHash with
  | none => (app, none)
  | some infoHash =>
    ({ app with pendingMagnetPreviewInfoHash := none }.removeTorrentRuntime infoHash).saveStateToDisk sources

end App

/-! ## Runs -/

inductive AppEvent where
  | save
  | metrics (infoHash : Bytes) (message : TorrentMetrics) (now : ℕ)
  /-- The channel of a torrent's metrics is closed. -/
  | metricsClosed (infoHash : Bytes)
  | updateSettings (settings : Settings) (portLost persist : Bool) (outcomes : Outcomes)
      (snapshot : Option App.LeaderSnapshot)
  | startupBatch (outcomes : Outcomes)
  | deletionComplete (infoHash : Bytes)
  | addTorrentFile (outcome : LoadOutcome) (downloadPath containerName : Option String) (validationStatus : Bool)
      (filePriorities : Finmap (fun _ : ℕ => FilePriority))
  | addMagnet (outcome : LoadOutcome) (magnetLink : String) (downloadPath containerName : Option String)
      (validationStatus : Bool) (filePriorities : Finmap (fun _ : ℕ => FilePriority))
  | previewMagnet (outcome : LoadOutcome) (magnetLink : String)
  | previewCancelled
  /-- The user leaves the preview, keeping the torrent. -/
  | previewClosed
  | followerRefresh (snapshot : Option App.LeaderSnapshot)
  | promote (settings : Option Settings) (portLost : Bool) (outcomes : Outcomes)

namespace App

variable (sources : TorrentSources)

def step (app : App) : AppEvent → App × Option Settings
  | .save => app.saveStateToDisk sources
  | .metrics infoHash message now => (app.onMetrics infoHash message now, none)
  | .metricsClosed infoHash => ({ app with watches := app.watches.erase infoHash }, none)
  | .updateSettings settings portLost persist outcomes snapshot =>
    let app := app.applySettingsUpdate sources settings portLost outcomes snapshot
    if persist then app.saveStateToDisk sources else (app, none)
  | .startupBatch outcomes => app.loadNextStartupBatch sources outcomes
  | .deletionComplete infoHash => app.deletionComplete sources infoHash
  | .addTorrentFile outcome downloadPath containerName validationStatus filePriorities =>
    finishAdd sources downloadPath.isSome
      (app.addTorrentFromFile sources outcome downloadPath validationStatus .running filePriorities containerName)
  | .addMagnet outcome magnetLink downloadPath containerName validationStatus filePriorities =>
    finishAdd sources downloadPath.isSome
      (app.addMagnetTorrent sources outcome "Fetching name..." magnetLink downloadPath validationStatus .running
        filePriorities containerName)
  | .previewMagnet outcome magnetLink => (app.previewMagnet sources outcome magnetLink, none)
  | .previewCancelled => app.cleanupPendingMagnetPreviewRuntime sources
  | .previewClosed => ({ app with pendingMagnetPreviewInfoHash := none }, none)
  | .followerRefresh snapshot => (app.refreshFollowerReadModel sources snapshot, none)
  | .promote settings portLost outcomes => (app.maybePromoteToSharedLeader sources settings portLost outcomes, none)

end App

end Superseedr
