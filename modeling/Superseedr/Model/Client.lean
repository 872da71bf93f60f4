import Superseedr.Model.Application
import Superseedr.Model.Manager

/-! # One torrent through the runs of the client

A manager tells the application how far its torrent is by snapshots, of which the last one counts. The
application shows what it is told, and derives from what it shows, not from the pieces, the validation status
that it saves. When the client starts again, the saved status is the flag of the new manager.

Which pieces were ever verified is not known to the program; it is kept beside the state, over all runs.
-/

namespace Superseedr

namespace TorrentState

variable (s : TorrentState) (dlSpeed ulSpeed : ℕ)

/-! ## Metrics -/

def activityMessageMaxLen : ℕ := 28

def capActivityMessage (message : String) : String :=
  if message.length ≤ activityMessageMaxLen then message
  else String.ofList (message.toList.take (activityMessageMaxLen - 3)) ++ "..."

def transferMessage : String :=
  let connectedPeers := s.peers.entries.length
  let usefulPeers := s.peers.entries.countP (·.2.amInterested)
  let peersSendingData := s.peers.entries.countP (·.2.peerChoking = .unchoke)
  let needCount := s.pieceManager.needQueue.length
  let totalPieces := u32 s.pieceManager.bitfield.length
  let completedPieces := totalPieces - u32 s.pieceManager.piecesRemaining
  let completionPct := u32 (completedPieces * 100) / totalPieces
  if 0 < dlSpeed then
    match s.lastActivity with
    | .downloadingPiece p => "Receiving piece #" ++ toString p
    | .verifyingPiece p => "Verifying piece #" ++ toString p
    | _ => "Downloading"
  else if 0 < ulSpeed then
    match s.lastActivity with
    | .sendingPiece p => "Sending piece #" ++ toString p
    | _ => "Uploading"
  else
    match s.lastActivity with
    | .requestingPieces =>
      capActivityMessage ("Request " ++ toString needCount ++ " (" ++ toString usefulPeers ++ "/" ++
        toString connectedPeers ++ ")")
    | .announcingToTracker => capActivityMessage ("Tracker (" ++ toString connectedPeers ++ " peers)")
    | .searchingDht => capActivityMessage ("DHT search (" ++ toString connectedPeers ++ ")")
    | _ =>
      if connectedPeers = 0 then capActivityMessage ("Connecting (" ++ toString completionPct ++ "%)")
      else if 0 < needCount then
        if 0 < usefulPeers then
          capActivityMessage ("Waiting data (" ++ toString peersSendingData ++ "/" ++ toString connectedPeers ++ ")")
        else capActivityMessage ("Need pieces (" ++ toString connectedPeers ++ ")")
      else capActivityMessage ("Idle (" ++ toString connectedPeers ++ ", " ++ toString completionPct ++ "%)")

def generateActivityMessage : String :=
  let connectedPeers := s.peers.entries.length
  let totalPieces := u32 s.pieceManager.bitfield.length
  if s.isPaused then "Paused"
  else
    match s.lastActivity with
    | .processingPeers count => capActivityMessage ("Processing peer (" ++ toString count ++ ")")
    | _ =>
      match s.torrentStatus with
      | .awaitingMetadata =>
        capActivityMessage
          (if s.torrentMetadataLength.isSome then "Metadata (" ++ toString connectedPeers ++ " peers)"
            else "Metadata from peers (" ++ toString connectedPeers ++ ")")
      | .validating =>
        capActivityMessage
          (if 0 < totalPieces then
            "Validating " ++ toString (u32 (s.validationPiecesFound * 100) / totalPieces) ++ "% (" ++
              toString s.validationPiecesFound ++ "/" ++ toString totalPieces ++ ")"
            else "Validating")
      | .done => if 0 < ulSpeed then "Seeding" else "Finished"
      | .standard | .endgame => s.transferMessage dlSpeed ulSpeed

def buildMetricsSnapshot : TorrentMetrics where
  torrentName := (s.torrent.map (·.info.name)).getD ""
  downloadPath := s.torrentDataPath
  containerName := s.containerName
  isComplete := s.torrentStatus = .done
  sessionTotalDownloaded := s.sessionTotalDownloaded
  sessionTotalUploaded := s.sessionTotalUploaded
  activityMessage := s.generateActivityMessage dlSpeed ulSpeed

/-- The snapshot that is sent. The number of missing pieces is subtracted without a check. -/
def sendMetrics : TorrentMetrics :=
  let snapshot := s.buildMetricsSnapshot dlSpeed ulSpeed
  match s.torrent, s.multiFileInfo with
  | some torrent, some _ =>
    let numberOfPiecesTotal := u32 s.pieceManager.bitfield.length
    { snapshot with
      torrentName := torrent.info.name
      numberOfPiecesTotal
      numberOfPiecesCompleted :=
        if s.torrentStatus = .validating then s.validationPiecesFound
        else u32 (numberOfPiecesTotal + (2 ^ 32 - u32 s.pieceManager.piecesRemaining))
      filePriorities := s.filePriorities.toFinmap }
  | _, _ => snapshot

end TorrentState

/-! ## What verifies and writes pieces -/

def Effect.writtenPiece : Effect → Option ℕ
  | .writeToDisk _ pieceIndex _ => some pieceIndex
  | _ => none

namespace Manager

def handled (m : Manager) : Occurrence → Option (Host × Action)
  | .action host a => some (host, a)
  | .receive host i =>
    match m.inbox[i]? with
    | some (message :: _) => some (host, message)
    | _ => none
  | _ => none

def orders (m : Manager) (o : Occurrence) : Finset ℕ :=
  match m.handled o with
  | some (host, a) =>
    match update host m.state a with
    | some (_, effects) => (effects.filterMap Effect.writtenPiece).toFinset
    | none => ∅
  | none => ∅

/-- The pieces whose hash is found right: of a download, or by a validation that hashes. -/
def verifies (sha1 : Bytes → Bytes) (sha : Sha256) (m : Manager) : Occurrence → Finset ℕ
  | .action _ (.pieceVerified _ pieceIndex true _) => {pieceIndex}
  | .validate i order disk =>
    match m.tasks[i]? with
    | some task =>
      if task.skipHashing then ∅
      else ((performValidation sha1 sha order disk task.layout task.torrent false).outcome.getD []).toFinset
    | none => ∅
  | _ => ∅

end Manager

/-! ## Runs of the client -/

/-- A torrent in the client: its manager with the writes that were ordered, the snapshot that is not yet drained, what
is shown, the settings in memory and those on disk, and the pieces that were ever verified. -/
structure Client where
  manager : Manager
  ordered : Finset ℕ
  metrics : Option TorrentMetrics
  display : TorrentDisplayState
  config : TorrentSettings
  saved : TorrentSettings
  verified : Finset ℕ

inductive ClientEvent where
  | manager (o : Manager.Occurrence)
  /-- Peers arrive from the distributed hash table. -/
  | searchDht
  | sendMetrics (dlSpeed ulSpeed : ℕ)
  | drainMetrics
  /-- Changed settings of the torrent are applied. Its source and its status are not for the user to set. -/
  | configure (torrent : TorrentSettings) (defaultFolder : Option String)
  | save
  /-- The client ends, starts again and loads the torrent. -/
  | restart (outcome : LoadOutcome) (trackers : AList fun _ : String => TrackerState) (now : ℕ)

namespace Client

/-- A client that has not loaded the torrent yet. -/
def initial (saved : TorrentSettings) (verified : Finset ℕ) : Client where
  manager := ⟨TorrentState.new [] ∅ false none 0, [], []⟩
  ordered := ∅
  metrics := none
  display := {}
  config := saved
  saved := saved
  verified := verified

def loadedDisplay (sources : TorrentSources) (outcome : LoadOutcome) (torrent : TorrentSettings) :
    Option TorrentDisplayState :=
  let app := App.initial { torrents := [torrent] } false
  (sources.infoHash torrent).bind
    (app.loadRuntimeTorrentFromSettings sources (fun _ => outcome) torrent).1.torrents.lookup

/-- What an event leads to, if it is possible. -/
def step (sha1 : Bytes → Bytes) (sha : Sha256) (sources : TorrentSources) (c : Client) : ClientEvent → Option Client
  | .manager o =>
    (c.manager.occur sha1 sha o).map fun manager =>
      { c with
        manager
        ordered := c.ordered ∪ c.manager.orders o
        verified := c.verified ∪ c.manager.verifies sha1 sha o }
  | .searchDht =>
    some { c with manager := { c.manager with state := { c.manager.state with lastActivity := .searchingDht } } }
  | .sendMetrics dlSpeed ulSpeed => some { c with metrics := some (c.manager.state.sendMetrics dlSpeed ulSpeed) }
  | .drainMetrics =>
    c.metrics.map fun message => { c with metrics := none, display := c.display.onMetrics message }
  | .configure torrent defaultFolder =>
    let config :=
      { torrent with
        torrentOrMagnet := c.config.torrentOrMagnet
        validationStatus := c.config.validationStatus }
    some { c with config, display := App.configureRuntime config defaultFolder c.display }
  | .save =>
    let payload := App.persistedTorrent [c.config] c.display
    some { c with config := payload, saved := payload }
  | .restart outcome trackers now =>
    (loadedDisplay sources outcome c.saved).map fun display =>
      { c with
        manager :=
          ⟨TorrentState.new ((sources.infoHash c.saved).getD []) trackers c.saved.validationStatus
            c.saved.containerName now, [], []⟩
        ordered := ∅
        metrics := none
        display
        config := c.saved }

end Client

end Superseedr
