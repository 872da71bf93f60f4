import Superseedr.Model.PeerHandlers

/-! # Blocks, proofs, verification and writing

A block that completes a piece submits the piece for verification: against a hash known from the
metadata, against SHA-1, or, when neither is there, after the hash has been asked of the peer. A
verified piece is written, and only a written piece counts as done.
-/

namespace Superseedr

/-- The last root with the largest offset that does not lie behind a position. -/
def matchingRootInfo (roots : List V2RootInfo) (globalOffset : ℕ) : Option V2RootInfo :=
  (roots.filter fun root => root.fileOffset ≤ globalOffset).foldl
    (fun best root =>
      match best with
      | none => some root
      | some kept => if kept.fileOffset ≤ root.fileOffset then some root else some kept)
    none

namespace TorrentState

open EmittingStep

variable (s : TorrentState) (host : Host) (peerId : PeerId) (pieceIndex : ℕ)

def maxBlockSize : ℕ := 131072

/-- Whether nothing wanted is missing; indexing past the priorities panics. -/
def allDoneOrSkip : List PieceStatus → List EffectivePiecePriority → Option Bool
  | [], _ => some true
  | .done :: rest, priorities => allDoneOrSkip rest priorities.tail
  | .need :: rest, priority :: priorities =>
    if priority = .skip then allDoneOrSkip rest priorities else some false
  | .need :: _, [] => none

def isComplete (pm : PieceManager) : Option Bool :=
  if pm.piecePriorities = [] then some (pm.bitfield.all (· = .done))
  else allDoneOrSkip pm.bitfield pm.piecePriorities

/-- Stop downloading: nothing is wanted or asked for any more. -/
def finishDownload : TorrentState × List Effect :=
  let uninterested := (host.order.arrange 0 (s.peers.entries.map (·.2))).filter (·.amInterested)
  let urls := host.order.arrange 1 s.trackers.keys
  let physicallyComplete := s.pieceManager.bitfield.all (· = .done)
  ({ s with
      torrentStatus := .done
      pieceManager :=
        { s.pieceManager with
          needQueue := []
          pendingQueue := ∅ }.clearAssemblyBuffers
      peers := s.peers.mapVal fun _ peer =>
        { peer with
          pendingRequests := ∅
          activeBlocks := ∅
          inflightRequests := 0
          amInterested := false }
      trackers := s.trackers.mapVal fun _ tracker => { tracker with nextAnnounceTime := s.now } },
    uninterested.map (fun peer => .sendToPeer peer.ipPort .notInterested) ++
      urls.map fun url => if physicallyComplete then .announceCompleted url else .announceToTracker url)

def checkCompletion : Update :=
  if s.torrentStatus = .awaitingMetadata ∨ s.torrentStatus = .validating ∨ s.torrentStatus = .done then
    some (s, [.doNothing])
  else
    (isComplete s.pieceManager).map fun complete =>
      if complete && s.pieceManager.bitfield ≠ [] then s.finishDownload host else (s, [.doNothing])

/-- The hash the metadata fixes for a piece, if it has one. -/
def localLayerHash (root : V2RootInfo) : Option (Option Bytes) :=
  match s.torrent with
  | none => some none
  | some torrent => torrent.getV2HashLayer pieceIndex root.fileOffset root.length 1 root.rootHash

def hashRequest : List Effect :=
  match s.pieceToRoots pieceIndex with
  | some (root :: _) =>
    let pieceLen := (s.torrent.map (·.pieceLen)).getD 32768
    let requestBase := if 16384 ≤ pieceLen then trailingZeros (pieceLen / 16384) else 0
    let requestIndex :=
      if 16384 ≤ pieceLen then
        (u64 (pieceIndex * pieceLen) - root.fileOffset) / 16384 / 2 ^ requestBase
      else pieceIndex
    [.requestHashes peerId root.rootHash (u32 requestIndex) 1 0 requestBase]
  | _ => []

/-- Submit a complete piece for verification by SHA-1. -/
def submitV1 (data : Bytes) : TorrentState × List Effect :=
  ({ s with lastActivity := .verifyingPiece pieceIndex }, [.verifyPiece peerId pieceIndex data])

/-- Submit a complete piece for verification, or keep it until its hash is known. -/
def submitPiece (pieceIndex blockOffset : ℕ) (data : Bytes) : Update :=
  match s.pieceToRoots pieceIndex with
  | none => some (s.submitV1 peerId pieceIndex data)
  | some roots =>
    let pieceLen := (s.torrent.map (·.pieceLen)).getD 0
    let globalOffset := u64 (u64 (pieceIndex * pieceLen) + blockOffset)
    (s.calculateV2VerifyParams pieceIndex data.length).bind fun (validLength, relativeIndex, contextLen) =>
      match matchingRootInfo roots globalOffset with
      | none => some (s.submitV1 peerId pieceIndex data)
      | some root =>
        let submit (proof target : Bytes) : Effect :=
          .verifyPieceV2 peerId pieceIndex proof data target root.fileOffset validLength relativeIndex contextLen
        (s.localLayerHash pieceIndex root).map fun known =>
          match known, s.v2Proofs pieceIndex with
          | some target, _ => (s, [submit [] target])
          | none, some proof => (s, [submit proof root.rootHash])
          | none, none =>
            if s.torrent.any fun torrent => torrent.info.pieces ≠ [] then s.submitV1 peerId pieceIndex data
            else
              ({ s with v2PendingData := s.v2PendingData.insert pieceIndex (blockOffset, data) },
                s.hashRequest peerId pieceIndex)

/-- Account for a block that arrived. -/
def receiveBlock (pieceIndex blockOffset len : ℕ) (unneeded : Bool) : TorrentState :=
  { s with
    bytesDownloadedInInterval :=
      if unneeded then s.bytesDownloadedInInterval else satAdd64 s.bytesDownloadedInInterval len
    sessionTotalDownloaded :=
      if unneeded then s.sessionTotalDownloaded else satAdd64 s.sessionTotalDownloaded len
    peers := s.peers.modify peerId fun peer =>
      { peer with
        inflightRequests := peer.inflightRequests - 1
        activeBlocks := peer.activeBlocks.erase (pieceIndex, blockOffset, u32 len)
        bytesDownloadedFromPeer :=
          if unneeded then peer.bytesDownloadedFromPeer else u64 (peer.bytesDownloadedFromPeer + len)
        bytesDownloadedInTick :=
          if unneeded then peer.bytesDownloadedInTick else u64 (peer.bytesDownloadedInTick + len)
        totalBytesDownloaded :=
          if unneeded then peer.totalBytesDownloaded else u64 (peer.totalBytesDownloaded + len) } }

/-- Ask the peer for more once half of its pipeline has drained. -/
def refillPipeline : TorrentState × List Effect :=
  match s.peers.lookup peerId with
  | some peer => if peer.inflightRequests ≤ maxPipelineDepth / 2 then s.assignWork host peerId else (s, [])
  | none => (s, [])

def assembleBlock (pieceIndex blockOffset : ℕ) (data : Bytes) : Update :=
  (s.pieceManager.handleBlock pieceIndex blockOffset data (s.getPieceSize pieceIndex)).bind
    fun (pm, complete) =>
      let s :=
        { s with
          lastActivity := .downloadingPiece pieceIndex
          pieceManager := pm }
      match complete with
      | none => some (s, [])
      | some piece =>
        { s with verifyingPieces := insert pieceIndex s.verifyingPieces }.submitPiece peerId pieceIndex
          blockOffset piece

def incomingBlock (pieceIndex blockOffset : ℕ) (data : Bytes) : Update :=
  if s.pieceManager.bitfield.length ≤ pieceIndex then some (s, [.doNothing])
  else
    let unneeded := s.pieceManager.bitfield[pieceIndex]? = some .done || pieceIndex ∈ s.writingPieces
    let received := s.receiveBlock peerId pieceIndex blockOffset data.length unneeded
    andThen (some (received, [.emitManagerEvent (.blockReceived s.infoHash)])) fun s =>
      if unneeded || s.torrentStatus = .validating then some (s, [])
      else
        andThen (s.assembleBlock peerId pieceIndex blockOffset data) fun s =>
          some (s.refillPipeline host peerId)

def merkleProofReceived (proof : Bytes) : Update :=
  if s.pieceManager.bitfield[pieceIndex]? = some .done then some (s, [.doNothing])
  else
    match s.v2PendingData.lookup pieceIndex with
    | none => some (s, [.doNothing])
    | some (blockOffset, data) =>
      let s := { s with v2PendingData := s.v2PendingData.erase pieceIndex }
      let pieceLen := (s.torrent.map (·.pieceLen)).getD 65536
      let globalOffset := u64 (u64 (pieceIndex * pieceLen) + blockOffset)
      match (s.pieceToRoots pieceIndex).bind fun roots => matchingRootInfo roots globalOffset with
      | none => some (s, [.doNothing])
      | some root =>
        (s.calculateV2VerifyParams pieceIndex data.length).bind fun (validLength, _, contextLen) =>
          if pieceLen = 0 then none
          else
            let relativeIndex := u32 ((globalOffset - root.fileOffset) / pieceLen)
            (s.localLayerHash relativeIndex root).map fun known =>
              let (target, proof) :=
                if proof.length = 32 then (known.getD proof, []) else (root.rootHash, proof)
              (s, [.verifyPieceV2 peerId pieceIndex proof data target root.fileOffset validLength
                relativeIndex contextLen])

/-- Take one piece off what a peer is asked for. -/
def forgetRequest : TorrentState :=
  { s with
    peers := s.peers.modify peerId fun peer =>
      { peer with pendingRequests := peer.pendingRequests.erase pieceIndex } }

def pieceVerified (valid : Bool) (data : Bytes) : TorrentState × List Effect :=
  if s.pieceManager.bitfield.length ≤ pieceIndex then (s, [.doNothing])
  else
    let s :=
      { s with
        verifyingPieces := s.verifyingPieces.erase pieceIndex
        v2Proofs := Function.update s.v2Proofs pieceIndex none
        v2PendingData := s.v2PendingData.erase pieceIndex }
    if valid then
      if s.pieceManager.bitfield[pieceIndex]? = some .done ∨ pieceIndex ∈ s.writingPieces then
        (s.forgetRequest peerId pieceIndex).assignWork host peerId
      else
        ({ s with writingPieces := insert pieceIndex s.writingPieces }, [.writeToDisk peerId pieceIndex data])
    else
      ({ s with
          pieceManager :=
            if pieceIndex ∈ s.writingPieces then s.pieceManager
            else s.pieceManager.resetPieceAssembly pieceIndex },
        [.disconnectPeer peerId])

/-- Tell another peer that a piece is no longer wanted of it, and give it new work. -/
def cancelPiece (pieceIndex round : ℕ) (other : PeerId) (s : TorrentState) : Update :=
  if other = peerId then some (s, [])
  else
    let batch := s.pieceManager.cancelTuplesForPiece pieceIndex
    let cancel := if other ∈ s.peers ∧ batch ≠ [] then [.sendToPeer other (.bulkCancel batch)] else []
    let (s, assigned) := (s.forgetRequest other pieceIndex).assignWork (host.sub round) other
    some (s, cancel ++ assigned)

/-- Give every registered peer new work. -/
def assignAll : Update :=
  forEach (host.order.arrange 0 s.peers.keys)
    (fun i peerId s => some (s.assignWork ((host.sub 1).sub i) peerId)) s

def pieceWrittenToDisk : Update :=
  if s.pieceManager.bitfield.length ≤ pieceIndex ∨ s.torrentStatus = .validating ∨
      s.torrentStatus = .awaitingMetadata then
    some (s, [.doNothing])
  else
    let written := { s with writingPieces := s.writingPieces.erase pieceIndex }
    if s.pieceManager.bitfield[pieceIndex]? = some .done then
      some ((written.forgetRequest peerId pieceIndex).assignWork host peerId)
    else
      (s.pieceManager.markAsComplete pieceIndex).bind fun (pm, peersToCancel) =>
        let completed := { written with pieceManager := pm }
        andThen (some ((completed.forgetRequest peerId pieceIndex).assignWork (host.sub 0) peerId)) fun s =>
          andThen (forEach peersToCancel (cancelPiece (host.sub 1) peerId pieceIndex) s) fun s =>
            andThen (some (s, [.broadcastHave pieceIndex])) fun s =>
              andThen (s.checkCompletion (host.sub 2)) fun s => s.assignAll (host.sub 3)

def pieceWriteFailed : Update :=
  if s.pieceManager.bitfield.length ≤ pieceIndex then some (s, [.doNothing])
  else
    (s.pieceManager.requeuePendingToNeed pieceIndex).map fun pm =>
      ({ s with
          writingPieces := s.writingPieces.erase pieceIndex
          pieceManager := pm },
        [.emitManagerEvent (.diskWriteFinished s.infoHash pieceIndex)])

def requestUpload (pieceIndex blockOffset length : ℕ) : TorrentState × List Effect :=
  if s.dataAvailable = false ∨ s.torrent.isNone ∨ maxBlockSize < length then (s, [.doNothing])
  else
    let allowed := (s.peers.lookup peerId).any fun peer =>
      peer.amChoking = .unchoke && s.pieceManager.bitfield[pieceIndex]? = some .done
    ({ s with lastActivity := .sendingPiece pieceIndex },
      if allowed then [.readFromDisk peerId ⟨pieceIndex, blockOffset, length⟩] else [.doNothing])

end TorrentState

end Superseedr
