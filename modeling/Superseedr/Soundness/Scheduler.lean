import Mathlib.Data.Set.Basic
import Mathlib.Data.Set.Insert
import Superseedr.ToMathlib.LabeledSteps
import Superseedr.Model.Update
import Superseedr.Soundness.PiecePriorities

/-! # The scheduler as a machine of elementary moves

Seen from the question which piece is wanted, asked of whom and done, the reducer is a machine with
few moves: a piece is assigned to a peer, a block of it is requested, a peer gives a piece back, a
piece is completed or wanted again, priorities change, metadata is loaded, validation begins and ends.
Each move is stated once with the conditions under which it happens. Every handler of the reducer is a
finite run of such moves, and every invariant is proved move by move.

Two fields keep account within one update: `sent` are the requests made so far, and `owed` are the
pairs of a peer and a piece whose agreement the update has broken on one side and still has to restore.
-/

namespace Superseedr.Scheduler

open TorrentState

structure PeerView where
  asks : Set ℕ
  bits : List Bool
  choking : ChokeStatus
  inflight : ℕ
  active : Finset BlockRequest

structure Core where
  torrent : Option Torrent
  roots : ℕ → Option (List V2RootInfo)
  status : TorrentStatus
  pm : PieceManager
  peers : PeerId → Option PeerView
  sent : List (PeerId × BlockRequest)
  owed : Set (PeerId × ℕ)

namespace Core

def adjust (c : Core) (k : PeerId) (change : PeerView → PeerView) : Core :=
  { c with peers := Function.update c.peers k ((c.peers k).map change) }

def adjustAll (c : Core) (change : PeerView → PeerView) : Core :=
  { c with peers := fun k => (c.peers k).map change }

def unask (c : Core) (k : PeerId) (p : ℕ) : Core :=
  { c.adjust k fun peer => { peer with asks := peer.asks \ {p} } with owed := c.owed \ {(k, p)} }

def Asks (c : Core) (k : PeerId) (p : ℕ) : Prop := ∃ peer, c.peers k = some peer ∧ p ∈ peer.asks

def Requestable (c : Core) (t : BlockRequest) : Prop :=
  ∃ torrent addr, c.torrent = some torrent ∧ addr ∈ c.pm.requestableBlockAddressesForPiece t.1 ∧
    t = requestFor (calcV2Limit torrent c.roots) addr ∧ t.2.2 ≠ 0

def pieceSize (c : Core) (p : ℕ) : ℕ :=
  match c.torrent with
  | some torrent => pieceSizeOf torrent c.roots p
  | none => 0

end Core

structure SameGeometry (bm bm' : BlockManager) : Prop where
  pieceLength : bm'.pieceLength = bm.pieceLength
  totalLength : bm'.totalLength = bm.totalLength
  pieceLengths : bm'.pieceLengths = bm.pieceLengths

def Assembles (c : Core) (bm' : BlockManager) : Prop :=
  SameGeometry c.pm.blockManager bm' ∨
    ∃ p, p < c.pm.bitfield.length ∧ c.pm.blockManager.pieceLength = 0 ∧
      SameGeometry
        (c.pm.blockManager.setGeometry (u32 (c.pieceSize p)) (u64 ((p + 1) * c.pieceSize p)) (fun _ => none)
          false)
        bm'

def LoadsAs (torrent : Torrent) (validated : Bool) (pm : PieceManager) : Prop :=
  pm = loadedPieces torrent validated ∨
    ∃ new cancelled, new.length = torrent.numPieces ∧
      (loadedPieces torrent validated).applyPriorities new = some (pm, cancelled)

inductive Label where
  | assign (k : PeerId) (p : ℕ)
  | request (k : PeerId) (t : BlockRequest)
  | drop (k : PeerId) (p : ℕ)
  | forget (k : PeerId) (p : ℕ)
  | register (k : PeerId)
  | unregister (k : PeerId)
  | choke (k : PeerId)
  | unchoke (k : PeerId)
  | advertise (k : PeerId) (bits : List Bool)
  | deliver (k : PeerId) (t : BlockRequest)
  | assemble
  | complete (p : ℕ)
  | requeue (p : ℕ)
  | prioritize (new : List EffectivePiecePriority)
  | recount
  | load (torrent : Torrent)
  | validate
  | adopt (completed : List ℕ)
  | finish
  | seed
  | drain
  | wipe

/-- The moves of the scheduler. -/
inductive Move : Label → Core → Core → Prop where
  /-- A wanted piece that the peer has is asked of it, possibly once more. -/
  | assign {c k p peer} (running : c.status ≠ .validating) (known : c.peers k = some peer)
      (listening : peer.choking = .unchoke)
      (advertised : peer.bits[p]? = some true) (wanted : ¬c.pm.Skipped p)
      (available : p ∈ c.pm.needQueue ∨ (c.status = .endgame ∧ p ∈ c.pm.pendingQueue) ∨
        (p ∈ peer.asks ∧ k ∈ c.pm.owners p)) :
      Move (.assign k p) c
        { c.adjust k fun peer => { peer with asks := insert p peer.asks } with
          pm := c.pm.markAsPending p k
          status := if (c.pm.markAsPending p k).needQueue = [] then .endgame else c.status }
  /-- A block of a piece the peer is asked for is requested. -/
  | request {c k t peer} (known : c.peers k = some peer) (listening : peer.choking = .unchoke)
      (asked : t.1 ∈ peer.asks) (idle : t ∉ peer.active) (room : peer.inflight < maxPipelineDepth)
      (requestable : c.Requestable t) :
      Move (.request k t) c
        { c.adjust k fun peer =>
            { peer with
              active := insert t peer.active
              inflight := peer.inflight + 1 } with
          sent := c.sent ++ [(k, t)] }
  /-- A peer gives a missing piece back. -/
  | drop {c k p pm'} (asked : c.Asks k p) (notDone : c.pm.bitfield[p]? ≠ some .done)
      (run : c.pm.releasePendingPeerOrRequeue p k = some pm') :
      Move (.drop k p) c { c.unask k p with pm := pm' }
  /-- A piece is no longer asked of a peer, and the queues are not told. -/
  | forget {c k p} : Move (.forget k p) c (c.unask k p)
  | register {c k} (unknown : c.peers k = none) :
      Move (.register k) c { c with peers := Function.update c.peers k (some ⟨∅, [], .choke, 0, ∅⟩) }
  | unregister {c k peer} (known : c.peers k = some peer) (idle : peer.asks = ∅) :
      Move (.unregister k) c { c with peers := Function.update c.peers k none }
  | choke {c k peer} (known : c.peers k = some peer) (idle : peer.asks = ∅) :
      Move (.choke k) c
        (c.adjust k fun peer =>
          { peer with
            choking := .choke
            inflight := 0
            active := ∅ })
  | unchoke {c k} : Move (.unchoke k) c (c.adjust k fun peer => { peer with choking := .unchoke })
  | advertise {c k peer bits} (known : c.peers k = some peer)
      (kept : ∀ i : ℕ, peer.bits[i]? = some true → bits[i]? = some true) :
      Move (.advertise k bits) c (c.adjust k fun peer => { peer with bits })
  /-- A block arrived, wanted or not. -/
  | deliver {c k t} :
      Move (.deliver k t) c
        (c.adjust k fun peer =>
          { peer with
            inflight := peer.inflight - 1
            active := peer.active.erase t })
  | assemble {c blockManager} (assembles : Assembles c blockManager) :
      Move .assemble c { c with pm := { c.pm with blockManager } }
  /-- A piece is verified and written. -/
  | complete {c p pm' cancel} (running : c.status ≠ .validating ∧ c.status ≠ .awaitingMetadata)
      (missing : c.pm.Missing p) (run : c.pm.markAsComplete p = some (pm', cancel)) :
      Move (.complete p) c
        { c with
          pm := pm'
          owed := c.owed ∪ {pair | pair.1 ∈ cancel ∧ pair.2 = p} }
  /-- A piece could not be written. -/
  | requeue {c p pm'} (inside : p < c.pm.bitfield.length) (run : c.pm.requeuePendingToNeed p = some pm') :
      Move (.requeue p) c { c with pm := pm' }
  | prioritize {c new pm' cancelled} (loaded : c.torrent ≠ none)
      (length : new.length = c.pm.bitfield.length)
      (run : c.pm.applyPriorities new = some (pm', cancelled)) :
      Move (.prioritize new) c { c with pm := pm' }
  | recount {c pieceRarity} : Move .recount c { c with pm := { c.pm with pieceRarity } }
  | load {c torrent validated pm} (unloaded : c.torrent = none) (loads : LoadsAs torrent validated pm) :
      Move (.load torrent) c
        { c.adjustAll fun peer => { peer with bits := fitBits torrent.numPieces peer.bits } with
          torrent := some torrent
          roots := torrent.calculateV2Mapping.pieceToRoots
          pm }
  | validate {c} (loaded : c.torrent ≠ none) : Move .validate c { c with status := .validating }
  /-- The result of validation is taken over and all requests are forgotten. -/
  | adopt {c completed pm need} (validating : c.status = .validating)
      (marked : markAllComplete c.pm completed = some pm)
      (queue : rebuildNeedQueue pm = some need) :
      Move (.adopt completed) c
        { c.adjustAll fun peer => { peer with asks := ∅ } with
          status := .standard
          pm := { pm with needQueue := need, pendingQueue := ∅ }.clearAssemblyBuffers }
  /-- Nothing wanted is missing any more. -/
  | finish {c} (downloading : c.status = .standard ∨ c.status = .endgame)
      (complete : isComplete c.pm = some true) :
      Move .finish c
        { c.adjustAll fun peer =>
            { peer with
              asks := ∅
              inflight := 0
              active := ∅ } with
          status := .done
          pm := { c.pm with needQueue := [], pendingQueue := ∅ }.clearAssemblyBuffers }
  /-- Nothing at all is missing. -/
  | seed {c} (complete : ∀ status ∈ c.pm.bitfield, status = .done) (nonempty : c.pm.bitfield ≠ []) :
      Move .seed c { c with status := .done }
  /-- All pending pieces are wanted again, while the peers still know of them. -/
  | drain {c drained} (same : drained.Perm c.pm.pendingQueue.keys) :
      Move .drain c
        { c with
          pm := { c.pm with needQueue := c.pm.needQueue ++ drained, pendingQueue := ∅ }
          owed := c.owed ∪ {pair | c.Asks pair.1 pair.2} }
  /-- The torrent starts over without peers. -/
  | wipe {c pm} (fresh : pm = { PieceManager.new with
        bitfield := List.replicate c.pm.bitfield.length .need
        piecesRemaining := c.pm.bitfield.length }) :
      Move .wipe c
        { c with
          status := if c.torrent.isSome then .validating else .awaitingMetadata
          roots := fun _ => none
          pm
          peers := fun _ => none }

end Superseedr.Scheduler
