import Superseedr.Model.Derived

/-! # Handing out work

`assignWork` fills the request pipeline of one peer. It first continues the pieces the peer is
already asked for, then takes new pieces from the need queue (in the endgame also pieces that are
pending elsewhere), rarest and most wanted first. A block is requested when it is still missing, does
not run past the end of its file and is not active at the peer already.
-/

namespace Superseedr

def maxPipelineDepth : ℕ := 512

/-- The size of a piece that belongs to a file of version 2. -/
def calcV2Limit (torrent : Torrent) (roots : ℕ → Option (List V2RootInfo)) (pieceIndex : ℕ) : Option ℕ :=
  match roots pieceIndex with
  | some (root :: _) => some (u32 (min torrent.pieceLen (remainingInFile torrent root pieceIndex)))
  | _ => none

def requestFor (limit : ℕ → Option ℕ) (addr : BlockAddress) : BlockRequest :=
  (addr.pieceIndex, addr.byteOffset,
    match limit addr.pieceIndex with
    | some limit => min addr.length (limit - addr.byteOffset)
    | none => addr.length)

/-- The requests made so far in one assignment, with the free slots of the pipeline. -/
structure RequestBatch where
  active : Finset BlockRequest
  requests : List BlockRequest
  slots : ℕ

/-- Request one more block of a piece the peer is already asked for. -/
def continueBlock (limit : ℕ → Option ℕ) (batch : RequestBatch) (addr : BlockAddress) : RequestBatch :=
  let request := requestFor limit addr
  if batch.slots = 0 ∨ request.2.2 = 0 ∨ request ∈ batch.active then batch
  else
    { active := insert request batch.active
      requests := batch.requests ++ [request]
      slots := batch.slots - 1 }

/-- Select one more block of a piece that is about to be assigned. -/
def selectBlock (limit : ℕ → Option ℕ) (active : Finset BlockRequest) (acc : List BlockRequest × ℕ)
    (addr : BlockAddress) : List BlockRequest × ℕ :=
  let request := requestFor limit addr
  if acc.2 = 0 ∨ request.2.2 = 0 ∨ request ∈ active then acc
  else (acc.1 ++ [request], acc.2 - 1)

/-- What a new piece changes: the queues, the mode, the pieces the peer is asked for, the batch. -/
structure Assignment where
  pieceManager : PieceManager
  torrentStatus : TorrentStatus
  pendingRequests : AList fun _ : ℕ => Unit
  batch : RequestBatch

def EffectivePiecePriority.rank : EffectivePiecePriority → ℕ
  | .skip => 0
  | .normal => 1
  | .high => 2

namespace TorrentState

variable (s : TorrentState) (host : Host)

def blocksToRequest (order : Arrangement) (isEndgame : Bool) (pm : PieceManager) (pieceIndex : ℕ) : List BlockAddress :=
  let addrs := pm.requestableBlockAddressesForPiece pieceIndex
  if isEndgame then order.arrange pieceIndex addrs else addrs

/-- Continue one piece the peer is already asked for. -/
def continuePiece (order : Arrangement) (limit : ℕ → Option ℕ) (isEndgame : Bool) (batch : RequestBatch)
    (pieceIndex : ℕ) : RequestBatch :=
  if batch.slots = 0 ∨ pieceIndex ∈ s.verifyingPieces ∨ pieceIndex ∈ s.writingPieces then batch
  else (blocksToRequest order isEndgame s.pieceManager pieceIndex).foldl (continueBlock limit) batch

/-- Whether a new piece may be asked of a peer. -/
def isValidCandidate (peer : PeerState) (pieceIndex : ℕ) : Bool :=
  peer.bitfield[pieceIndex]? = some true && pieceIndex ∉ s.verifyingPieces &&
    pieceIndex ∉ s.writingPieces &&
    !(s.pieceManager.piecePriorities ≠ [] && s.pieceManager.piecePriorities[pieceIndex]? = some .skip) &&
    pieceIndex ∉ peer.pendingRequests

/-- The new pieces a peer may be asked for, in the order in which they are tried. -/
def candidates (order : Arrangement) (peer : PeerState) (isEndgame : Bool) : List ℕ :=
  let pm := s.pieceManager
  let pool :=
    if isEndgame then order.arrange 0 pm.pendingQueue.keys ++ pm.needQueue else pm.needQueue
  let valid := pool.filter (s.isValidCandidate peer)
  let shuffled := if isEndgame then order.arrange 1 valid else valid
  let rarity (p : ℕ) : ℕ := (pm.pieceRarity p).getD usizeMax
  let priority (p : ℕ) : ℕ := (pm.effectivePriority p).rank
  if pm.piecePriorities = [] then
    if isEndgame then shuffled else shuffled.insertionSort fun a b => rarity a ≤ rarity b
  else
    shuffled.insertionSort fun a b =>
      priority b < priority a ∨ (priority a = priority b ∧ rarity a ≤ rarity b)

/-- Take over a new piece, if any of its blocks can be requested. -/
def assignPiece (order : Arrangement) (limit : ℕ → Option ℕ) (isEndgame : Bool) (peerId : PeerId) (acc : Assignment)
    (pieceIndex : ℕ) : Assignment :=
  if acc.batch.slots = 0 then acc
  else
    let (requests, slots) :=
      (blocksToRequest order isEndgame acc.pieceManager pieceIndex).foldl
        (selectBlock limit acc.batch.active) ([], acc.batch.slots)
    if requests = [] then acc
    else
      let pm := acc.pieceManager.markAsPending pieceIndex peerId
      { pieceManager := pm
        torrentStatus :=
          if pm.needQueue = [] ∧ acc.torrentStatus ≠ .endgame then .endgame else acc.torrentStatus
        pendingRequests := acc.pendingRequests.insert pieceIndex ()
        batch :=
          { active := requests.foldl (fun active request => insert request active) acc.batch.active
            requests := acc.batch.requests ++ requests
            slots } }

/-- Both loops over pieces, for a peer that accepts requests. -/
def fillPipeline (order : Arrangement) (torrent : Torrent) (peerId : PeerId) (peer : PeerState) : Assignment :=
  let limit := calcV2Limit torrent s.pieceToRoots
  let isEndgame := decide (s.torrentStatus = .endgame)
  let pendingPieces := peer.pendingRequests.keys.insertionSort (· ≤ ·)
  let continued := pendingPieces.foldl (s.continuePiece (order.sub 2) limit isEndgame)
    ⟨peer.activeBlocks, [], maxPipelineDepth - peer.inflightRequests⟩
  ((s.candidates order peer isEndgame).take continued.slots).foldl
    (assignPiece (order.sub 3) limit isEndgame peerId)
    ⟨s.pieceManager, s.torrentStatus, peer.pendingRequests, continued⟩

/-- Whether the peer has a piece that is wanted or pending, or is asked for one. -/
def shouldBeInterested (peer : PeerState) : Bool :=
  (peer.bitfield ≠ [] &&
    (s.pieceManager.needQueue.any (fun p => peer.bitfield[p]? = some true) ||
      s.pieceManager.pendingQueue.keys.any fun p => peer.bitfield[p]? = some true)) ||
    peer.pendingRequests.keys ≠ []

/-- Tell the peer when our interest in it has changed. -/
def updateInterest (peerId : PeerId) (peer : PeerState) : PeerState × List Effect :=
  let interested := s.shouldBeInterested peer
  if interested && !peer.amInterested then
    ({ peer with amInterested := true }, [.sendToPeer peerId .clientInterested])
  else if !interested && peer.amInterested then
    ({ peer with amInterested := false }, [.sendToPeer peerId .notInterested])
  else (peer, [])

/-- Write back what an assignment changed and send its requests. -/
def commitAssignment (peerId : PeerId) (peer : PeerState) (work : Assignment) : TorrentState × List Effect :=
  let requests := work.batch.requests
  let peer :=
    { peer with
      pendingRequests := work.pendingRequests
      activeBlocks := work.batch.active
      inflightRequests := peer.inflightRequests + requests.length }
  let isDownloading :=
    match s.lastActivity with
    | .downloadingPiece _ => true
    | _ => false
  ({ s with
      pieceManager := work.pieceManager
      torrentStatus := work.torrentStatus
      peers := s.peers.modify peerId fun _ => peer
      lastActivity := if requests ≠ [] ∧ !isDownloading then .requestingPieces else s.lastActivity },
    if requests ≠ [] then [.sendToPeer peerId (.bulkRequest requests)] else [])

def assignWork (peerId : PeerId) : TorrentState × List Effect :=
  if s.torrentStatus = .validating ∨ s.pieceManager.bitfield = [] ∨ s.torrentDataPath = none ∨
      (s.pieceManager.needQueue = [] ∧ s.pieceManager.pendingQueue.keys = []) then
    (s, [.doNothing])
  else
    match s.torrent with
    | none => (s, [.doNothing])
    | some torrent =>
      match s.peers.lookup peerId with
      | none => (s, [])
      | some peer =>
        let (peer, interest) := s.updateInterest peerId peer
        if peer.peerChoking = .choke ∨ peer.bitfield = [] ∨ maxPipelineDepth ≤ peer.inflightRequests then
          ({ s with peers := s.peers.modify peerId fun _ => peer }, interest)
        else
          let (s, requests) := s.commitAssignment peerId peer (s.fillPipeline host.order torrent peerId peer)
          (s, interest ++ requests)

end TorrentState

end Superseedr
