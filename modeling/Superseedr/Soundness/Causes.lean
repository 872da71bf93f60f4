import Superseedr.Soundness.Assigning

/-! # Which action causes which move

Each move of the scheduler is made by few actions, and some only at the very start of an update. The
peers an action releases can be read off the action and the state before it. `Permits` collects this:
it is the guard under which the reducer is shown to refine the scheduler.
-/

namespace Superseedr

def Action.assigns : Action → Bool
  | .assignWork _ => true
  | .peerBitfieldReceived _ _ => true
  | .peerUnchoked _ => true
  | .peerHavePiece _ _ => true
  | .incomingBlock _ _ _ _ => true
  | .pieceVerified _ _ _ _ => true
  | .pieceWrittenToDisk _ _ => true
  | .validationComplete _ => true
  | _ => false

namespace Scheduler

/-- The collected disconnects once a disconnect has been added to them. -/
def queuedDisconnects (s : TorrentState) (peerId : PeerId) : List PeerId :=
  if peerId ≠ "" ∧ peerId ∈ s.peers then s.pendingDisconnects ++ [peerId] else s.pendingDisconnects

/-- The peers an action makes give back what they are asked for. -/
def releases (host : Host) (s : TorrentState) : Action → List PeerId
  | .peerChoked k => [k]
  | .peerDisconnected k force =>
    if !force ∧ (queuedDisconnects s k).length < 50 then [] else queuedDisconnects s k
  | .registerPeer k addr => if s.replacesPendingSession k addr then s.pendingDisconnects else []
  | .peerPolicyUpdated policy =>
    if s.blockedPeerIds host policy = [] then []
    else s.pendingDisconnects ++ s.blockedPeerIds host policy
  | .cleanup => s.pendingDisconnects ++ s.stuckPeers host
  | .pause => s.peers.keys
  | .fatalError => s.peers.keys
  | _ => []

/-- Handlers that hand out work release nobody. -/
theorem releases_eq_nil (host : Host) (s : TorrentState) {a : Action} (assigns : a.assigns = true) :
    releases host s a = [] := by
  cases a with
  | peerChoked | peerDisconnected | registerPeer | peerPolicyUpdated | cleanup | pause | fatalError =>
    simp [Action.assigns] at assigns
  | _ => rfl

/-- The scheduler is as it was when the update began. -/
structure AtStart (s : TorrentState) (c : Core) : Prop where
  pm : c.pm = s.pieceManager
  status : c.status = s.torrentStatus
  peers : c.peers = peersView s.peers

def Permits (host : Host) (s : TorrentState) (a : Action) (c : Core) : Label → Prop
  | .assign _ _ => a.assigns = true
  | .request _ _ => a.assigns = true
  | .drop k _ => k ∈ releases host s a
  | .forget k p =>
    c.pm.bitfield[p]? = some .done ∨ (AtStart s c ∧ p ∈ s.writingPieces ∧ ∃ data, a = .pieceVerified k p true data)
  | .register k => ∃ addr, a = .registerPeer k addr
  | .unregister k => k ∈ releases host s a
  | .choke k => a = .peerChoked k
  | .unchoke k => a = .peerUnchoked k
  | .advertise k _ => (∃ bits, a = .peerBitfieldReceived k bits) ∨ ∃ p, a = .peerHavePiece k p
  | .deliver k t => ∃ data, a = .incomingBlock k t.1 t.2.1 data ∧ t.2.2 = u32 data.length
  | .assemble => (∃ k p offset data, a = .incomingBlock k p offset data) ∨
      ∃ k p data, a = .pieceVerified k p false data
  | .complete p => ∃ k, a = .pieceWrittenToDisk k p
  | .requeue p => AtStart s c ∧ a = .pieceWriteFailed p
  | .prioritize new =>
    c.pm = s.pieceManager ∧ c.peers = peersView s.peers ∧
      ∃ path priorities name, a = .setUserTorrentConfig path priorities name ∧
        (s.configured path priorities name).calculatePiecePriorities = some new ∧
        c.status = if s.startsValidation path then .validating else s.torrentStatus
  | .recount => False
  | .load torrent => ∃ length, a = .metadataReceived torrent length
  | .validate =>
    c.status = s.torrentStatus ∧
      ((∃ torrent length, a = .metadataReceived torrent length ∧ s.torrent = none) ∨
        (AtStart s c ∧ ∃ path priorities name, a = .setUserTorrentConfig path priorities name ∧
          s.startsValidation path = true))
  | .adopt completed => AtStart s c ∧ a = .validationComplete completed
  | .finish => True
  | .seed => a = .cleanup
  | .drain => AtStart s c ∧ (a = .pause ∨ a = .fatalError)
  | .wipe => a = .delete

end Scheduler

end Superseedr
