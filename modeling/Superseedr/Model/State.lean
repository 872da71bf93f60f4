import Superseedr.ToMathlib.Arrangement
import Superseedr.ToMathlib.EmittingStep
import Superseedr.Model.Peer
import Superseedr.Model.Storage

/-! # Actions, effects and the torrent state

Everything that happens to a torrent is an action handed to the reducer. The reducer changes the
torrent state and answers with effects, which the manager carries out. What the platform contributes
to an update (the order in which hash tables are walked, random shuffles, the wall clock, the parsing
of addresses) is collected in a `Host`.

Moving averages of transfer rates, the log of touched files and the channel handles of sessions are
not part of the state: no other field depends on them.
-/

namespace Superseedr

inductive TorrentActivity where
  | initializing
  | paused
  | connectingToPeers
  | requestingPieces
  | downloadingPiece (pieceIndex : ℕ)
  | sendingPiece (pieceIndex : ℕ)
  | verifyingPiece (pieceIndex : ℕ)
  | announcingToTracker
  | processingPeers (count : ℕ)
  | searchingDht
deriving DecidableEq, Repr

inductive TorrentStatus where
  | awaitingMetadata
  | validating
  | standard
  | endgame
  | done
deriving DecidableEq, Repr

/-- The commands the reducer sends to peer sessions. -/
inductive TorrentCommand where
  | peerChoke
  | peerUnchoke
  | clientInterested
  | notInterested
  | bulkRequest (blocks : List BlockRequest)
  | bulkCancel (blocks : List BlockRequest)
deriving DecidableEq, Repr

inductive ManagerEvent where
  | peerConnected (infoHash : Bytes)
  | peerDisconnected (infoHash : Bytes)
  | blockReceived (infoHash : Bytes)
  | blockSent (infoHash : Bytes)
  | diskWriteFinished (infoHash : Bytes) (pieceIndex : ℕ)
  | deletionComplete (infoHash : Bytes)
deriving DecidableEq, Repr

structure BlockInfo where
  pieceIndex : ℕ
  offset : ℕ
  length : ℕ
deriving DecidableEq, Repr

inductive Action where
  | torrentManagerInit (isPaused announceImmediately : Bool)
  | peerPolicyUpdated (policy : PeerPolicy)
  | tick (dtMs : ℕ)
  | recalculateChokes (randomSeed : ℕ)
  | checkCompletion
  | assignWork (peerId : PeerId)
  | connectToWebSeeds
  | registerPeer (peerId : PeerId) (peerAddr : Option SocketAddr)
  | peerTransportSelected (peerId : PeerId) (transport : PeerTransportKind)
  | peerSuccessfullyConnected (peerId : PeerId)
  | peerDisconnected (peerId : PeerId) (force : Bool)
  | updatePeerId (peerAddr : PeerId) (newId : Bytes)
  | peerBitfieldReceived (peerId : PeerId) (bitfield : Bytes)
  | peerChoked (peerId : PeerId)
  | peerUnchoked (peerId : PeerId)
  | peerInterested (peerId : PeerId)
  | peerHavePiece (peerId : PeerId) (pieceIndex : ℕ)
  | incomingBlock (peerId : PeerId) (pieceIndex blockOffset : ℕ) (data : Bytes)
  | pieceVerified (peerId : PeerId) (pieceIndex : ℕ) (valid : Bool) (data : Bytes)
  | pieceWrittenToDisk (peerId : PeerId) (pieceIndex : ℕ)
  | pieceWriteFailed (pieceIndex : ℕ)
  | requestUpload (peerId : PeerId) (pieceIndex blockOffset length : ℕ)
  | trackerResponse (url : String) (peers : List SocketAddr) (interval : ℕ) (minInterval : Option ℕ)
  | trackerError (url : String)
  | peerConnectionFailed (peerAddr : PeerId)
  | metadataReceived (torrent : Torrent) (metadataLength : ℤ)
  | merkleProofReceived (peerId : PeerId) (pieceIndex : ℕ) (proof : Bytes)
  | validationComplete (completedPieces : List ℕ)
  | blockSentToPeer (peerId : PeerId) (byteCount : ℕ)
  | cancelUpload (peerId : PeerId) (pieceIndex blockOffset length : ℕ)
  | cleanup
  | pause
  | resume
  | delete
  | updateListenPort
  | setUserTorrentConfig (torrentDataPath : String) (filePriorities : AList fun _ : ℕ => FilePriority)
      (containerName : Option String)
  | setDataAvailability (available : Bool)
  | validationProgress (count : ℕ)
  | shutdown
  | fatalError

inductive Effect where
  | doNothing
  | emitMetrics (bytesDl bytesUl : ℕ)
  | emitManagerEvent (event : ManagerEvent)
  | sendToPeer (peerId : PeerId) (cmd : TorrentCommand)
  | disconnectPeerSession (peerId : PeerId)
  | disconnectPeer (peerId : PeerId)
  | announceCompleted (url : String)
  | verifyPiece (peerId : PeerId) (pieceIndex : ℕ) (data : Bytes)
  | verifyPieceV2 (peerId : PeerId) (pieceIndex : ℕ) (proof data rootHash : Bytes)
      (fileStartOffset validLength relativeIndex hashingContextLen : ℕ)
  | writeToDisk (peerId : PeerId) (pieceIndex : ℕ) (data : Bytes)
  | readFromDisk (peerId : PeerId) (blockInfo : BlockInfo)
  | broadcastHave (pieceIndex : ℕ)
  | connectToPeer (addr : SocketAddr)
  | requestHashes (peerId : PeerId) (fileRoot : Bytes) (pieceIndex length proofLayers baseLayer : ℕ)
  | startWebSeed (url : String)
  | startValidation
  | announceToTracker (url : String)
  | connectToPeersFromTrackers
  | abortUpload (peerId : PeerId) (blockInfo : BlockInfo)
  | clearAllUploads
  | deleteFiles
  | prepareShutdown (trackerUrls : List String) (left uploaded downloaded : ℕ)
deriving DecidableEq, Repr

structure TrackerState where
  nextAnnounceTime : ℕ
  leechingInterval : Option ℕ
  seedingInterval : Option ℕ
  hasResponded : Bool
deriving DecidableEq, Repr

/-- The torrent state. Tables that are only read by key are functions. -/
structure TorrentState where
  infoHash : Bytes
  torrent : Option Torrent
  torrentMetadataLength : Option ℤ
  isPaused : Bool
  torrentStatus : TorrentStatus
  torrentValidationStatus : Bool
  lastActivity : TorrentActivity
  hasMadeFirstConnection : Bool
  sessionTotalUploaded : ℕ
  sessionTotalDownloaded : ℕ
  bytesDownloadedInInterval : ℕ
  bytesUploadedInInterval : ℕ
  numberOfSuccessfullyConnectedPeers : ℕ
  peers : AList fun _ : PeerId => PeerState
  book : PeerBook
  pieceManager : PieceManager
  trackers : AList fun _ : String => TrackerState
  timedOutPeers : PeerId → Option (ℕ × ℕ)
  lastKnownPeers : List PeerId
  knownSeeders : PeerId → Option ℕ
  optimisticUnchokeTimer : Option ℕ
  validationPiecesFound : ℕ
  now : ℕ
  hasStartedAnnounceSent : Bool
  v2Proofs : ℕ → Option Bytes
  v2PendingData : AList fun _ : ℕ => ℕ × Bytes
  pieceToRoots : ℕ → Option (List V2RootInfo)
  verifyingPieces : Finset ℕ
  writingPieces : Finset ℕ
  torrentDataPath : Option String
  containerName : Option String
  multiFileInfo : Option MultiFileInfo
  filePriorities : AList fun _ : ℕ => FilePriority
  dataAvailable : Bool
  pendingDisconnects : List PeerId
  pendingFailures : List PeerId
  acceptingNewPeers : Bool
  peerPolicy : PeerPolicy

/-- What the platform contributes to one update. -/
structure Host where
  order : Arrangement := .stored
  systemNow : ℕ := 0
  elapsedNanos : ℕ := 0
  parseSocketAddr : String → Option SocketAddr := fun _ => none
  parseIpAddr : String → Option IpAddr := fun _ => none
  showSocketAddr : SocketAddr → String := fun _ => ""
  trim : String → String := id
  urlScheme : String → Option String := fun _ => none

/-- The host as a nested update sees it. -/
def Host.sub (host : Host) (branch : ℕ) : Host := { host with order := host.order.sub branch }

abbrev Update := EmittingStep TorrentState Effect

end Superseedr
