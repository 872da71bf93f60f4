import Superseedr.Model.DataHandlers

/-! # The reducer

The handlers for timers, trackers, metadata, validation and the user's commands, and `update`, which
runs the handler of an action. An action that panics has no result.
-/

namespace Superseedr

/-- Trim, drop repetitions, and keep what parses as a tracker address. -/
def normalizeTrackerUrls (host : Host) (urls : List String) : List String :=
  (urls.foldl
    (fun (acc : List String × List String) url =>
      let (seen, entries) := acc
      let raw := host.trim url
      if raw = "" ∨ raw ∈ seen then acc
      else
        (seen ++ [raw],
          if (host.urlScheme raw).any fun scheme => scheme ∈ ["http", "https", "udp"] then entries ++ [raw]
          else entries))
    ([], [])).2

def Torrent.trackerUrls (host : Host) (torrent : Torrent) : List String :=
  normalizeTrackerUrls host (torrent.announce.toList ++ (torrent.announceList.getD []).flatten)

namespace TorrentState

open EmittingStep

variable (s : TorrentState) (host : Host)

def connectToWebSeeds : List Effect :=
  (((s.torrent.bind (·.urlList)).getD []).map .startWebSeed)

def announceEffects : List Effect :=
  (host.order.arrange 0 s.trackers.keys).map .announceToTracker

def torrentManagerInit (isPaused announceImmediately : Bool) : TorrentState × List Effect :=
  if isPaused then ({ s with isPaused }, [])
  else if announceImmediately ∨ s.torrentStatus = .awaitingMetadata then
    ({ s with isPaused, hasStartedAnnounceSent := true }, s.connectToWebSeeds ++ s.announceEffects host)
  else ({ s with isPaused }, s.connectToWebSeeds)

/-- When a tracker is announced to next, counted from now. -/
def announceInterval (tracker : TrackerState) (leeching seeding : ℕ) : ℕ :=
  if s.torrentStatus = .done then tracker.seedingInterval.getD seeding
  else tracker.leechingInterval.getD leeching

def announceIfDue (url : String) (s : TorrentState) : Update :=
  match s.trackers.lookup url with
  | none => some (s, [])
  | some tracker =>
    if tracker.nextAnnounceTime ≤ s.now then
      (instantAdd s.now (s.announceInterval tracker 60000 60000)).map fun next =>
        ({ s with
            lastActivity := .announcingToTracker
            trackers := s.trackers.modify url fun tracker => { tracker with nextAnnounceTime := next } },
          [.announceToTracker url])
    else some (s, [])

def tick (dtMs : ℕ) : Update :=
  (instantAdd s.now dtMs).bind fun now =>
    let ticked : TorrentState :=
      { s with
        now
        book := s.book.maintainPeerReconnectBaselines now
        bytesDownloadedInInterval := 0
        bytesUploadedInInterval := 0
        peers := s.peers.mapVal fun _ peer =>
          { peer with
            bytesDownloadedInTick := 0
            bytesUploadedInTick := 0 } }
    let metrics := [.emitMetrics s.bytesDownloadedInInterval s.bytesUploadedInInterval]
    andThen (some (ticked.refreshPeerAdmissionGuard, metrics)) fun s =>
      if s.torrentStatus = .validating ∨ s.isPaused then some (s, [])
      else forEach (host.order.arrange 0 s.trackers.keys) (fun _ => announceIfDue) s

def trackerResponse (url : String) (peers : List SocketAddr) (interval : ℕ) (minInterval : Option ℕ) : Update :=
  let connect := peers.filterMap fun addr =>
    match s.timedOutPeers (host.showSocketAddr addr) with
    | some (_, nextAttempt) => if s.now < nextAttempt then none else some (.connectToPeer addr)
    | none => some (.connectToPeer addr)
  if url ∈ s.trackers then
    let seeding := (if interval > 0 then u64 (interval + 1) else 1800) * 1000
    let leeching := (match minInterval with | some m => u64 (m + 1) | none => 60) * 1000
    (instantAdd s.now (if s.torrentStatus ≠ .done then leeching else seeding)).map fun next =>
      ({ s with
          trackers := s.trackers.modify url fun _ =>
            { nextAnnounceTime := next
              leechingInterval := some leeching
              seedingInterval := some seeding
              hasResponded := true } },
        connect)
  else some (s, connect)

/-- `mul_f32(2.0)` on a whole number of seconds, capped at an hour. Doubling panics where the seconds,
rounded to single precision, leave the range of durations; below the cap it is exact. -/
def backoff (interval : ℕ) : Option ℕ :=
  if 2 ^ 63 - 2 ^ 38 ≤ interval / 1000 then none else some (min (interval * 2) 3600000)

def trackerError (url : String) : Update :=
  match s.trackers.lookup url with
  | none => some (s, [.doNothing])
  | some tracker =>
    (backoff (s.announceInterval tracker 60000 1800000)).bind fun delay =>
      (instantAdd s.now delay).map fun next =>
        ({ s with
            trackers := s.trackers.modify url fun tracker => { tracker with nextAnnounceTime := next } },
          [.doNothing])

/-- Put off the next attempt to reach an address, twice as long each time. -/
def recordFailure (addr : PeerId) : Option TorrentState :=
  let newCount := min (((s.timedOutPeers addr).map (·.1)).getD 0 + 1) 10
  (instantAdd s.now (min (15 * 2 ^ (newCount - 1)) 1800 * 1000)).map fun next =>
    { s with timedOutPeers := Function.update s.timedOutPeers addr (some (newCount, next)) }

def peerConnectionFailed (peerAddr : PeerId) : Update :=
  let failures := s.pendingFailures ++ [peerAddr]
  if 100 ≤ failures.length then
    (failures.foldlM recordFailure { s with pendingFailures := [] }).map fun s => (s, [])
  else some ({ s with pendingFailures := failures }, [.doNothing])

/-- The piece manager of freshly received metadata, before priorities. -/
def loadedPieces (torrent : Torrent) (validated : Bool) : PieceManager :=
  (PieceManager.new.setInitialFields torrent.numPieces validated).setGeometry
    (asU32 torrent.info.pieceLength) torrent.geometryLength (tailOverrides torrent) validated

/-- Keep the known trackers and add those of the metadata. -/
def mergeTrackers (torrent : Torrent) : AList fun _ : String => TrackerState :=
  (normalizeTrackerUrls host (host.order.arrange 0 s.trackers.keys ++ torrent.trackerUrls host)).foldl
    (fun trackers url =>
      trackers.insert url ((s.trackers.lookup url).getD ⟨s.now, none, none, false⟩))
    ∅

def metadataReceived (torrent : Torrent) (metadataLength : ℤ) : Update :=
  if s.torrent.isSome then some (s, [.doNothing])
  else
    let loaded : TorrentState :=
      { s with
        torrent := some torrent
        torrentMetadataLength := some metadataLength
        pieceToRoots := torrent.calculateV2Mapping.pieceToRoots
        pieceManager := loadedPieces torrent s.torrentValidationStatus
        verifyingPieces := ∅
        writingPieces := ∅
        peers := s.peers.mapVal fun _ peer => { peer with bitfield := fitBits torrent.numPieces peer.bitfield }
        trackers := s.mergeTrackers host torrent
        validationPiecesFound := 0 }
    let prioritized :=
      if s.filePriorities.keys ≠ [] then
        loaded.calculatePiecePriorities.bind fun priorities =>
          (loaded.pieceManager.applyPriorities priorities).map (·.1)
      else some loaded.pieceManager
    prioritized.map fun pieceManager =>
      let s := { loaded with pieceManager }
      if s.torrentDataPath.isSome then
        ({ s.rebuildMultiFileInfo with torrentStatus := .validating }, [.startValidation])
      else (s, [.doNothing])

/-- Mark the pieces that validation found. -/
def markAllComplete (pm : PieceManager) (completedPieces : List ℕ) : Option PieceManager :=
  completedPieces.foldlM (fun pm p => (pm.markAsComplete p).map (·.1)) pm

def rebuildNeedQueue (pm : PieceManager) : Option (List ℕ) :=
  pm.bitfield.zipIdx.foldlM
    (fun need entry =>
      if entry.1 = .done then some need
      else (pm.isSkipped? entry.2).map fun skipped => if skipped then need else need ++ [u32 entry.2])
    []

/-- Adopt the result of validation and forget all requests made before. -/
def adoptValidation (completedPieces : List ℕ) : Option TorrentState :=
  (markAllComplete s.pieceManager completedPieces).bind fun pm =>
    (rebuildNeedQueue pm).map fun needQueue =>
      { s with
        torrentStatus := .standard
        verifyingPieces := ∅
        writingPieces := ∅
        peers := s.peers.mapVal fun _ peer => { peer with pendingRequests := ∅ }
        pieceManager :=
          { pm with
            needQueue
            pendingQueue := ∅ }.clearAssemblyBuffers }

/-- What is told to trackers and peers once validation is over. -/
def announceValidated (completedPieces : List ℕ) : TorrentState × List Effect :=
  let announce :=
    if s.isPaused then []
    else if s.hasStartedAnnounceSent then s.announceEffects host
    else [.connectToPeersFromTrackers]
  ({ s with hasStartedAnnounceSent := s.hasStartedAnnounceSent || !s.isPaused },
    announce ++ completedPieces.map .broadcastHave)

def validationComplete (completedPieces : List ℕ) : Update :=
  if s.torrentStatus ≠ .validating then some (s, [.doNothing])
  else
    (s.adoptValidation completedPieces).bind fun s =>
      andThen (some (s.announceValidated host completedPieces)) fun s =>
        andThen (s.checkCompletion (host.sub 1)) fun s =>
          andThen (some (s.recalculateChokes (host.sub 2) (u64 host.elapsedNanos))) fun s =>
            s.assignAll (host.sub 3)

def blockSentToPeer (peerId : PeerId) (byteCount : ℕ) : TorrentState × List Effect :=
  ({ s with
      sessionTotalUploaded := satAdd64 s.sessionTotalUploaded byteCount
      bytesUploadedInInterval := satAdd64 s.bytesUploadedInInterval byteCount
      peers := s.peers.modify peerId fun peer =>
        { peer with
          bytesUploadedToPeer := satAdd64 peer.bytesUploadedToPeer byteCount
          totalBytesUploaded := satAdd64 peer.totalBytesUploaded byteCount
          bytesUploadedInTick := satAdd64 peer.bytesUploadedInTick byteCount } },
    [.emitManagerEvent (.blockSent s.infoHash)])

/-- Drop expired records and, when they take too much memory, all pieces kept for want of a hash. The
bound on their number divides by the piece length. -/
def expireRecords : Option TorrentState :=
  let pieceLen := (s.torrent.map (·.pieceLen)).getD 16384
  if pieceLen = 0 then none
  else some
    { s with
      knownSeeders := fun peerId => (s.knownSeeders peerId).filter (s.now < ·)
      timedOutPeers := fun addr => (s.timedOutPeers addr).filter (·.1 < 10)
      v2PendingData :=
        if s.v2PendingData.keys.length > 1024 * 1024 * 1024 / pieceLen then ∅ else s.v2PendingData }

/-- The peers that never completed a handshake. -/
def stuckPeers : List PeerId :=
  (host.order.arrange 0 s.peers.entries).filterMap fun entry =>
    if entry.2.peerId = [] ∧ s.now - entry.2.createdAt > 5000 then some entry.1 else none

def amSeeding : Bool :=
  s.pieceManager.bitfield ≠ [] && s.pieceManager.bitfield.all (· = .done)

/-- While seeding, part from other seeders and from peers without mutual interest. -/
def shedPeers : Update :=
  let isSeeder (peer : PeerState) : Bool := peer.bitfield ≠ [] && peer.bitfield.all id
  let idle (peer : PeerState) : Bool := !peer.amInterested && !peer.peerIsInterestedInUs
  let entries := host.order.arrange 0 s.peers.entries
  let leave := (entries.filter fun entry => isSeeder entry.2 || idle entry.2).map
    fun entry => Effect.disconnectPeer entry.1
  let seeders := (entries.filter fun entry => isSeeder entry.2).map (·.1)
  if seeders = [] then some (s, leave)
  else
    (instantAdd s.now 3600000).map fun expires =>
      ({ s with
          knownSeeders := fun peerId => if peerId ∈ seeders then some expires else s.knownSeeders peerId },
        leave)

def cleanup : Update :=
  s.expireRecords.bind fun s =>
    let s := { s with pendingDisconnects := s.pendingDisconnects ++ s.stuckPeers host }
    andThen (s.peerDisconnected (host.sub 1) "" true) fun s =>
      if s.amSeeding then
        andThen
          (if s.torrentStatus ≠ .done then { s with torrentStatus := .done }.checkCompletion (host.sub 2)
            else some (s, []))
          fun s => s.shedPeers (host.sub 3)
      else some (s, [])

def removePausedPeer (round : ℕ) (peerId : PeerId) (s : TorrentState) : Update :=
  match s.peers.lookup peerId with
  | none => some (s, [])
  | some peer =>
    let book := s.book.recordAdministrativePeerRemoval s.now peerId
    let pieces := host.order.arrange round peer.pendingRequests.keys
    (pieces.foldlM
      (fun pm p => if pm.bitfield[p]? ≠ some .done then pm.requeuePendingToNeed p else some pm)
      s.pieceManager).map fun pm =>
        ({ s with
            peers := s.peers.erase peerId
            book := book.recordDepartedPeerTransfer host.showSocketAddr s.now peer
            pieceManager := pm },
          [.disconnectPeerSession peerId, .emitManagerEvent (.peerDisconnected s.infoHash)])

def pause : Update :=
  let drained :=
    { s with
      lastActivity := .paused
      isPaused := true
      lastKnownPeers := s.peers.keys
      pieceManager :=
        { s.pieceManager with
          needQueue := s.pieceManager.needQueue ++ host.order.arrange 0 s.pieceManager.pendingQueue.keys
          pendingQueue := ∅ } }
  (forEach (host.order.arrange 1 s.peers.keys) (removePausedPeer (host.sub 2)) drained).map
    fun (t, disconnects) =>
      ({ t with
          numberOfSuccessfullyConnectedPeers := t.peers.keys.length
          bytesDownloadedInInterval := 0
          bytesUploadedInInterval := 0 },
        [.emitMetrics t.bytesDownloadedInInterval t.bytesUploadedInInterval, .clearAllUploads] ++ disconnects)

/-- Announce to all trackers and again in a minute. -/
def announceAll : Update :=
  if s.trackers.keys = [] then some (s, [])
  else
    (instantAdd s.now 60000).map fun next =>
      ({ s with trackers := s.trackers.mapVal fun _ tracker => { tracker with nextAnnounceTime := next } },
        s.announceEffects host)

def resume : Update :=
  let resumed := { s with lastActivity := .connectingToPeers, isPaused := false }
  if s.torrentStatus = .validating then some (resumed, [.doNothing])
  else
    andThen (some (resumed, resumed.connectToWebSeeds)) fun s =>
      andThen (s.announceAll host) fun s =>
        some ({ s with lastKnownPeers := [] },
          (host.order.arrange 1 s.lastKnownPeers).filterMap fun addr =>
            (host.parseSocketAddr addr).map .connectToPeer)

def delete : TorrentState × List Effect :=
  let leaving := host.order.arrange 0 s.peers.entries
  let book := leaving.foldl
    (fun book entry => book.recordDepartedPeerTransfer host.showSocketAddr s.now entry.2) s.book
  let numPieces := s.pieceManager.bitfield.length
  let fresh := if numPieces > 0 then PieceManager.new.setInitialFields numPieces false else .new
  ({ s with
      peers := ∅
      book :=
        { book with
          peerActiveCounts := fun _ => none
          peerIpById := fun _ => none }
      lastKnownPeers := []
      knownSeeders := fun _ => none
      timedOutPeers := fun _ => none
      v2Proofs := fun _ => none
      v2PendingData := ∅
      pieceToRoots := fun _ => none
      verifyingPieces := ∅
      writingPieces := ∅
      pieceManager :=
        { fresh with
          pendingQueue := ∅
          needQueue := []
          bitfield := fresh.bitfield.map fun _ => .need }
      numberOfSuccessfullyConnectedPeers := 0
      sessionTotalDownloaded := 0
      sessionTotalUploaded := 0
      bytesDownloadedInInterval := 0
      bytesUploadedInInterval := 0
      isPaused := true
      torrentStatus := if s.torrent.isSome then .validating else .awaitingMetadata
      lastActivity := .initializing },
    .emitMetrics s.bytesDownloadedInInterval s.bytesUploadedInInterval ::
      leaving.map (fun entry => .disconnectPeerSession entry.1) ++
      [if s.torrentDataPath.isSome && s.multiFileInfo.isSome then .deleteFiles
        else .emitManagerEvent (.deletionComplete s.infoHash)])

/-- Whether a configuration makes the file layout known for the first time, which starts validation. -/
def startsValidation (torrentDataPath : String) : Bool :=
  s.torrent.isSome && s.multiFileInfo.isNone && torrentDataPath ≠ ""

/-- The state with the user's configuration stored, before it takes effect. -/
def configured (torrentDataPath : String) (filePriorities : AList fun _ : ℕ => FilePriority)
    (containerName : Option String) : TorrentState :=
  { s with
    torrentDataPath := some torrentDataPath
    filePriorities
    containerName }

def setUserTorrentConfig (torrentDataPath : String) (filePriorities : AList fun _ : ℕ => FilePriority)
    (containerName : Option String) : Update :=
  let configured := s.configured torrentDataPath filePriorities containerName
  let prioritized :=
    if s.torrent.isSome then
      configured.calculatePiecePriorities.bind fun priorities =>
        (s.pieceManager.applyPriorities priorities).map (·.1)
    else some s.pieceManager
  prioritized.bind fun pieceManager =>
    let s := { configured with pieceManager }
    andThen
      (if s.torrent.isSome ∧ s.multiFileInfo.isNone then
        let rebuilt := s.rebuildMultiFileInfo
        if rebuilt.multiFileInfo.isSome then
          some ({ rebuilt with torrentStatus := .validating }, [.startValidation])
        else some (rebuilt, [])
      else some (s, []))
      fun s => s.checkCompletion host

def shutdown : TorrentState × List Effect :=
  let left :=
    match s.torrent with
    | some torrent =>
      torrent.streamLength - u64 ((s.pieceManager.bitfield.filter (· = .done)).length * torrent.pieceLen)
    | none => 0
  ({ s with isPaused := true },
    [.emitMetrics s.bytesDownloadedInInterval s.bytesUploadedInInterval,
      .prepareShutdown (host.order.arrange 0 s.trackers.keys) left s.sessionTotalUploaded
        s.sessionTotalDownloaded])

def withPeer (peerId : PeerId) (change : PeerState → PeerState) : TorrentState × List Effect :=
  ({ s with peers := s.peers.modify peerId change }, [.doNothing])

end TorrentState

open TorrentState in
def update (host : Host) (s : TorrentState) : Action → Update
  | .torrentManagerInit isPaused announceImmediately =>
    some (s.torrentManagerInit host isPaused announceImmediately)
  | .peerPolicyUpdated policy => s.peerPolicyUpdated host policy
  | .tick dtMs => s.tick host dtMs
  | .recalculateChokes randomSeed => some (s.recalculateChokes host randomSeed)
  | .checkCompletion => s.checkCompletion host
  | .assignWork peerId => some (s.assignWork host peerId)
  | .connectToWebSeeds => some (s, s.connectToWebSeeds)
  | .registerPeer peerId peerAddr => s.registerPeer host peerId peerAddr
  | .peerTransportSelected peerId transport =>
    some (s.withPeer peerId fun peer => { peer with transportKind := transport })
  | .peerSuccessfullyConnected peerId => some (s.peerSuccessfullyConnected peerId)
  | .peerDisconnected peerId force => s.peerDisconnected host peerId force
  | .updatePeerId peerAddr newId => some (s.withPeer peerAddr fun peer => { peer with peerId := newId })
  | .peerBitfieldReceived peerId bitfield => some (s.peerBitfieldReceived host peerId bitfield)
  | .peerChoked peerId => s.peerChoked host peerId
  | .peerUnchoked peerId => some (s.peerUnchoked host peerId)
  | .peerInterested peerId => some (s.peerInterested peerId)
  | .peerHavePiece peerId pieceIndex => some (s.peerHavePiece host peerId pieceIndex)
  | .incomingBlock peerId pieceIndex blockOffset data => s.incomingBlock host peerId pieceIndex blockOffset data
  | .pieceVerified peerId pieceIndex valid data => some (s.pieceVerified host peerId pieceIndex valid data)
  | .pieceWrittenToDisk peerId pieceIndex => s.pieceWrittenToDisk host peerId pieceIndex
  | .pieceWriteFailed pieceIndex => s.pieceWriteFailed pieceIndex
  | .requestUpload peerId pieceIndex blockOffset length =>
    some (s.requestUpload peerId pieceIndex blockOffset length)
  | .trackerResponse url peers interval minInterval => s.trackerResponse host url peers interval minInterval
  | .trackerError url => s.trackerError url
  | .peerConnectionFailed peerAddr => s.peerConnectionFailed peerAddr
  | .metadataReceived torrent metadataLength => s.metadataReceived host torrent metadataLength
  | .merkleProofReceived peerId pieceIndex proof => s.merkleProofReceived peerId pieceIndex proof
  | .validationComplete completedPieces => s.validationComplete host completedPieces
  | .blockSentToPeer peerId byteCount => some (s.blockSentToPeer peerId byteCount)
  | .cancelUpload peerId pieceIndex blockOffset length =>
    some (s, [.abortUpload peerId ⟨pieceIndex, blockOffset, length⟩])
  | .cleanup => s.cleanup host
  | .pause => s.pause host
  | .resume => s.resume host
  | .delete => some (s.delete host)
  | .updateListenPort => s.announceAll host
  | .setUserTorrentConfig path filePriorities containerName =>
    s.setUserTorrentConfig host path filePriorities containerName
  | .setDataAvailability available =>
    some ({ s with dataAvailable := available }.recalculateChokes host 0)
  | .validationProgress count => some ({ s with validationPiecesFound := count }, [.doNothing])
  | .shutdown => some (s.shutdown host)
  | .fatalError => s.pause host

/-- The manager's rarity timer, which runs outside of `update`. -/
def updateRarity (s : TorrentState) : TorrentState :=
  { s with
    pieceManager := s.pieceManager.updateRarity (s.peers.entries.map fun entry => entry.2.bitfield) }

end Superseedr
