import Superseedr.Model.AssignWork

/-! # Peers coming, going and changing

Disconnects are collected and carried out in batches. Whatever a departing or choking peer was asked
for goes back to the need queue, unless another peer is asked for it as well or it is done already.
-/

namespace Superseedr.TorrentState

open EmittingStep

variable (s : TorrentState) (host : Host) (peerId : PeerId)

def uploadSlotsDefault : ℕ := 4

/-- The most deserving interested peers, and now and then one more chosen at random. -/
def unchokeCandidates (randomSeed : ℕ) : List PeerId × Bool :=
  if s.dataAvailable then
    let score (peer : PeerState) : ℕ :=
      if s.torrentStatus = .done then peer.bytesUploadedToPeer else peer.bytesDownloadedFromPeer
    let interested := ((host.order.arrange 0 (s.peers.entries.map (·.2))).filter
      (·.peerIsInterestedInUs)).insertionSort fun a b => score b ≤ score a
    let best := (interested.take uploadSlotsDefault).map (·.ipPort)
    if s.optimisticUnchokeTimer.any fun timer => s.now - timer > 30000 then
      let optimistic := interested.filter fun peer => peer.ipPort ∉ best
      (best ++ (optimistic[randomSeed % optimistic.length]?.map (·.ipPort)).toList, true)
    else (best, false)
  else ([], false)

/-- The choke flag a peer gets, and the command that tells it so. -/
def rechoke (unchoked : List PeerId) (peer : PeerState) : PeerState × List Effect :=
  let wanted := if peer.ipPort ∈ unchoked then .unchoke else .choke
  ({ peer with amChoking := wanted, bytesDownloadedFromPeer := 0, bytesUploadedToPeer := 0 },
    if peer.amChoking = wanted then []
    else [.sendToPeer peer.ipPort (if wanted = .unchoke then .peerUnchoke else .peerChoke)])

def recalculateChokes (randomSeed : ℕ) : TorrentState × List Effect :=
  let (unchoked, rotated) := s.unchokeCandidates host randomSeed
  let effects := (host.order.arrange 1 (s.peers.entries.map (·.2))).flatMap fun peer =>
    (rechoke unchoked peer).2
  ({ s with
      optimisticUnchokeTimer := if rotated then some s.now else s.optimisticUnchokeTimer
      peers := s.peers.mapVal fun _ peer => (rechoke unchoked peer).1 },
    if effects = [] then [.doNothing] else effects)

/-- Give back the pieces a peer was asked for. -/
def releasePieces (pieces : List ℕ) (pm : PieceManager) : Option PieceManager :=
  pieces.foldlM (fun pm p =>
    if pm.bitfield[p]? ≠ some .done then pm.releasePendingPeerOrRequeue p peerId else some pm) pm

def removePeer (round : ℕ) (peerId : PeerId) (s : TorrentState) : Update :=
  match s.peers.lookup peerId with
  | none => some (s, [])
  | some peer =>
    let removed :=
      if peer.successfullyConnected then
        { peer with disconnectCount := satAdd64 peer.disconnectCount 1 }
      else peer
    let book := s.book.recordPeerRemoval s.now peerId
    let pieces := host.order.arrange round peer.pendingRequests.keys
    (releasePieces peerId pieces s.pieceManager).map fun pm =>
      ({ s with
          peers := s.peers.erase peerId
          book := book.recordDepartedPeerTransfer host.showSocketAddr s.now removed
          pieceManager := pm },
        [.disconnectPeerSession peerId, .emitManagerEvent (.peerDisconnected s.infoHash)])

/-- Carry out the collected disconnects. -/
def flushDisconnects : Update :=
  let start :=
    { s with
      pendingDisconnects := []
      lastActivity := .processingPeers s.peers.keys.length }
  (forEach s.pendingDisconnects (removePeer host) start).map fun (s, effects) =>
    ({ s with numberOfSuccessfullyConnectedPeers := s.peers.keys.length }.refreshPeerAdmissionGuard, effects)

def peerDisconnected (force : Bool) : Update :=
  let s :=
    if peerId ≠ "" ∧ peerId ∈ s.peers then
      { s with pendingDisconnects := s.pendingDisconnects ++ [peerId] }
    else s
  if (!force ∧ s.pendingDisconnects.length < 50) ∨ s.pendingDisconnects = [] then some (s, [.doNothing])
  else s.flushDisconnects host

/-- `blocks_peer_address`: the address behind an optional scheme. -/
def blocksPeerAddress (policy : PeerPolicy) (host : Host) (address : String) : Bool :=
  let address := match (address.splitOn "://") with
    | _ :: rest@(_ :: _) => String.intercalate "://" rest
    | _ => address
  match host.parseSocketAddr address, host.parseIpAddr address with
  | some addr, _ => policy.blocksIp addr.ip host.systemNow
  | none, some ip => policy.blocksIp ip host.systemNow
  | none, none => false

def blockedPeerIds (policy : PeerPolicy) : List PeerId :=
  (host.order.arrange 0 s.peers.entries).filterMap fun entry =>
    let blocked := match entry.2.peerAddr with
      | none => blocksPeerAddress policy host entry.1
      | some addr => policy.blocksIp addr.ip host.systemNow
    if blocked then some entry.1 else none

def peerPolicyUpdated (policy : PeerPolicy) : Update :=
  forEach (s.blockedPeerIds host policy)
    (fun i peerId s => s.peerDisconnected ((host.sub 1).sub i) peerId true) { s with peerPolicy := policy }

/-- Whether a registration makes room by carrying out a collected disconnect. -/
def replacesPendingSession (peerAddr : Option SocketAddr) : Bool :=
  s.pendingDisconnects.any fun pending =>
    pending = peerId ||
      peerAddr.any fun addr => s.book.peerIpById pending = some (normalizeIp addr.ip)

/-- Enter a new peer, with the totals it had when it last departed. -/
def insertPeer (peerAddr : Option SocketAddr) : TorrentState :=
  let fresh :=
    { PeerState.new peerId s.now with
      peerAddr
      peerId := peerId.toUTF8.data.toList }
  let peer := match s.book.pendingDepartedPeerTransfers.lookup peerId with
    | some pending =>
      { fresh with
        transferBaseDownloaded := pending.totalDownloaded
        transferBaseUploaded := pending.totalUploaded
        connectionCount := pending.connectionCount
        disconnectCount := pending.disconnectCount }
    | none => fresh
  let book :=
    { s.book with
      pendingDepartedPeerTransfers := s.book.pendingDepartedPeerTransfers.erase peerId }
  let book := match peerAddr with
    | some addr => book.recordPeerRegistration s.now peerId addr
    | none => book
  let peers := s.peers.insert peerId peer
  { s with peers, book, numberOfSuccessfullyConnectedPeers := peers.keys.length }.refreshPeerAdmissionGuard

def registerPeer (peerAddr : Option SocketAddr) : Update :=
  andThen
    (if s.replacesPendingSession peerId peerAddr then s.peerDisconnected host "" true else some (s, []))
    fun s =>
      if s.canRegisterPeer host peerId peerAddr then some (s.insertPeer peerId peerAddr, [.doNothing])
      else some (s, [.disconnectPeerSession peerId])

def peerSuccessfullyConnected : TorrentState × List Effect :=
  ({ s with
      timedOutPeers := Function.update s.timedOutPeers peerId none
      peers := s.peers.modify peerId fun peer =>
        if peer.successfullyConnected then peer
        else
          { peer with
            successfullyConnected := true
            connectionCount := satAdd64 peer.connectionCount 1 }
      hasMadeFirstConnection := true
      numberOfSuccessfullyConnectedPeers := s.peers.keys.length }.refreshPeerAdmissionGuard,
    [.emitManagerEvent (.peerConnected s.infoHash)])

/-- The bits of a bitfield message, most significant first. -/
def unpackBits (bitfield : Bytes) : List Bool :=
  bitfield.flatMap fun byte => (List.range 8).map fun i => byte.toNat / 2 ^ (7 - i) % 2 = 1

/-- Cut off or fill up to the number of pieces. -/
def fitBits (total : ℕ) (bits : List Bool) : List Bool :=
  bits.take total ++ List.replicate (total - bits.length) false

def peerBitfieldReceived (bitfield : Bytes) : TorrentState × List Effect :=
  match s.peers.lookup peerId with
  | none => s.assignWork host peerId
  | some peer =>
    if peer.bitfield.any id then (s, [.disconnectPeer peerId])
    else
      let total := s.pieceManager.bitfield.length
      let bits := if total > 0 then fitBits total (unpackBits bitfield) else unpackBits bitfield
      { s with peers := s.peers.modify peerId fun peer => { peer with bitfield := bits } }.assignWork
        host peerId

def peerChoked : Update :=
  match s.peers.lookup peerId with
  | none => some (s, [.doNothing])
  | some peer =>
    let pieces := host.order.arrange 0 peer.pendingRequests.keys
    (releasePieces peerId pieces s.pieceManager).map fun pm =>
      ({ s with
          pieceManager := pm
          peers := s.peers.modify peerId fun peer =>
            { peer with
              inflightRequests := 0
              activeBlocks := ∅
              peerChoking := .choke
              pendingRequests := ∅ } },
        [.doNothing])

def peerUnchoked : TorrentState × List Effect :=
  { s with peers := s.peers.modify peerId fun peer => { peer with peerChoking := .unchoke } }.assignWork
    host peerId

def peerInterested : TorrentState × List Effect :=
  let openUploadSlot := s.dataAvailable &&
    (s.peers.entries.filter fun entry => entry.2.amChoking = .unchoke).length < uploadSlotsDefault
  match s.peers.lookup peerId with
  | none => (s, [.doNothing])
  | some peer =>
    if !peer.peerIsInterestedInUs && openUploadSlot && peer.amChoking = .choke then
      ({ s with
          peers := s.peers.modify peerId fun peer =>
            { peer with
              peerIsInterestedInUs := true
              amChoking := .unchoke } },
        [.sendToPeer peerId .peerUnchoke])
    else
      ({ s with peers := s.peers.modify peerId fun peer => { peer with peerIsInterestedInUs := true } }, [.doNothing])

def peerHavePiece (pieceIndex : ℕ) : TorrentState × List Effect :=
  { s with
    peers := s.peers.modify peerId fun peer =>
      { peer with bitfield := peer.bitfield.set pieceIndex true } }.assignWork host peerId

end Superseedr.TorrentState
