import Superseedr.Soundness.Blocks

/-! # Handing out work as a run of moves

Filling a pipeline continues pieces by requesting blocks, and takes over new pieces by assigning them
and then requesting blocks. Between any two rounds the work done so far is a state of the scheduler,
so both loops are runs of `assign` and `request` moves.
-/

namespace Superseedr.Scheduler

open TorrentState List Function PieceManager Option Steps AList

variable {addr : BlockAddress} {isEndgame : Bool} {batch : RequestBatch} {p : ℕ}

def pipelineView (peer : PeerState) (work : Assignment) : PeerView where
  asks := {p | p ∈ work.pendingRequests}
  bits := peer.bitfield
  choking := peer.peerChoking
  inflight := peer.inflightRequests + work.batch.requests.length
  active := work.batch.active

def pipelineCore (s : TorrentState) (k : PeerId) (peer : PeerState) (sent : List (PeerId × BlockRequest))
    (owed : Set (PeerId × ℕ)) (work : Assignment) : Core where
  torrent := s.torrent
  roots := s.pieceToRoots
  status := work.torrentStatus
  pm := work.pieceManager
  peers := Function.update (peersView s.peers) k (some (pipelineView peer work))
  sent := sent ++ work.batch.requests.map fun t => (k, t)
  owed := owed

structure Filling (s : TorrentState) (k : PeerId) (peer : PeerState) (work : Assignment) : Prop where
  room : peer.inflightRequests + work.batch.requests.length + work.batch.slots = maxPipelineDepth
  blockManager : work.pieceManager.blockManager = s.pieceManager.blockManager
  priorities : work.pieceManager.piecePriorities = s.pieceManager.piecePriorities
  running : work.torrentStatus ≠ .validating
  endgame : s.torrentStatus = .endgame → work.torrentStatus = .endgame
  need : ∀ q ∈ s.pieceManager.needQueue,
    q ∈ work.pieceManager.needQueue ∨ (q ∈ work.pendingRequests ∧ k ∈ work.pieceManager.owners q)
  pending : ∀ q ∈ s.pieceManager.pendingQueue, q ∈ work.pieceManager.pendingQueue

def Assignment.push (work : Assignment) (t : BlockRequest) : Assignment :=
  { work with
    batch :=
      { active := insert t work.batch.active
        requests := work.batch.requests ++ [t]
        slots := work.batch.slots - 1 } }

variable {s : TorrentState} {k : PeerId} {peer : PeerState} {work : Assignment} {torrent : Torrent}
  {order : Arrangement} {guard : Core → Label → Prop} {sent : List (PeerId × BlockRequest)} {owed : Set (PeerId × ℕ)}

structure Employs (guard : Core → Label → Prop) (k : PeerId) : Prop where
  request : ∀ c t, guard c (.request k t)
  assign : ∀ c p, guard c (.assign k p)

def Fills (guard : Core → Label → Prop) (s : TorrentState) (k : PeerId) (peer : PeerState)
    (sent : List (PeerId × BlockRequest)) (owed : Set (PeerId × ℕ)) (work work' : Assignment) : Prop :=
  Filling s k peer work' ∧
    Steps Move guard (pipelineCore s k peer sent owed work) (pipelineCore s k peer sent owed work')

theorem pipelineCore_push (t : BlockRequest) :
    pipelineCore s k peer sent owed (Assignment.push work t) =
      { (pipelineCore s k peer sent owed work).adjust k fun view =>
          { view with
            active := insert t view.active
            inflight := view.inflight + 1 } with
        sent := (pipelineCore s k peer sent owed work).sent ++ [(k, t)] } := by
  simp only [pipelineCore, Core.adjust, update_self, map_some, update_idem,
    Assignment.push, pipelineView, map_append, map_cons, map_nil, append_assoc,
    length_append, length_singleton, Nat.add_assoc]

theorem foldl_push (ts : List BlockRequest) :
    ts.foldl Assignment.push work =
      { work with
        batch :=
          { active := ts.foldl (fun active t => insert t active) work.batch.active
            requests := work.batch.requests ++ ts
            slots := work.batch.slots - ts.length } } := by
  induction ts generalizing work with
  | nil => simp
  | cons t rest ih =>
    rw [foldl_cons, ih]
    simp only [Assignment.push, foldl_cons, append_assoc, singleton_append, length_cons, Nat.sub_sub, Nat.add_comm 1]

def Assignment.take (work : Assignment) (k : PeerId) (p : ℕ) : Assignment :=
  { work with
    pieceManager := work.pieceManager.markAsPending p k
    torrentStatus :=
      if (work.pieceManager.markAsPending p k).needQueue = [] ∧ work.torrentStatus ≠ .endgame then .endgame
      else work.torrentStatus
    pendingRequests := work.pendingRequests.insert p () }

section Filling

variable (filling : Filling s k peer work)
include filling

theorem Filling.push (room : work.batch.slots ≠ 0) (t : BlockRequest) : Filling s k peer (Assignment.push work t) where
  room := by
    have balance := filling.room
    simp only [Assignment.push, length_append, length_singleton]
    omega
  __ := filling

theorem Filling.requestable (loaded : s.torrent = some torrent)
    (member : addr ∈ s.pieceManager.requestableBlockAddressesForPiece addr.pieceIndex)
    (nonempty : (requestFor (calcV2Limit torrent s.pieceToRoots) addr).2.2 ≠ 0) :
    (pipelineCore s k peer sent owed work).Requestable
      (requestFor (calcV2Limit torrent s.pieceToRoots) addr) := by
  refine ⟨torrent, addr, loaded, ?_, rfl, nonempty⟩
  have same := filling.blockManager
  change addr ∈ work.pieceManager.requestableBlockAddressesForPiece addr.pieceIndex
  simpa only [requestableBlockAddressesForPiece, same] using member

theorem Filling.take (p : ℕ) : Filling s k peer (Assignment.take work k p) where
  __ := filling
  running := by
    have before := filling.running
    dsimp only [Assignment.take]
    split_ifs
    · simp
    · exact before
  endgame endgame := by
    have before := filling.endgame endgame
    simp [Assignment.take, before]
  need q member := by
    simp only [Assignment.take, mem_needQueue_markAsPending, owners, lookup_pendingQueue_markAsPending, mem_insert]
    by_cases same : q = p
    · simp [same]
    · have before := filling.need q member
      simpa [same, owners] using before
  pending q member := by
    rw [Assignment.take, mem_pendingQueue_markAsPending]
    exact .inr (filling.pending q member)

variable (listening : peer.peerChoking = .unchoke)
include listening

theorem Filling.request {t : BlockRequest} (room : work.batch.slots ≠ 0) (asked : t.1 ∈ work.pendingRequests)
    (idle : t ∉ work.batch.active) (requestable : (pipelineCore s k peer sent owed work).Requestable t) :
    Move (.request k t) (pipelineCore s k peer sent owed work)
      (pipelineCore s k peer sent owed (Assignment.push work t)) := by
  rw [pipelineCore_push]
  have balance := filling.room
  have known : (pipelineCore s k peer sent owed work).peers k = some (pipelineView peer work) := update_self ..
  refine .request known listening asked idle ?_ requestable
  change peer.inflightRequests + work.batch.requests.length < maxPipelineDepth
  omega

theorem Filling.requests {ts : List BlockRequest} (admitted : ∀ c t, guard c (.request k t))
    (room : ts.length ≤ work.batch.slots) (asked : ∀ t ∈ ts, t.1 ∈ work.pendingRequests) (distinct : ts.Nodup)
    (idle : ∀ t ∈ ts, t ∉ work.batch.active)
    (requestable : ∀ t ∈ ts, ∀ work, Filling s k peer work → (pipelineCore s k peer sent owed work).Requestable t) :
    Fills guard s k peer sent owed work (ts.foldl Assignment.push work) := by
  induction ts generalizing work with
  | nil => exact ⟨filling, .refl⟩
  | cons t rest ih =>
    have here : t ∈ t :: rest := .head _
    have free : work.batch.slots ≠ 0 := by
      rw [length_cons] at room
      omega
    have move := filling.request listening free (asked t here) (idle t here)
      (requestable t here work filling)
    obtain ⟨fresh, distinctRest⟩ := nodup_cons.mp distinct
    have later := ih (filling.push free t)
      (by
        change rest.length ≤ work.batch.slots - 1
        rw [length_cons] at room
        omega)
      (fun u member => asked u (.tail t member)) distinctRest
      (by
        intro u member active
        rcases Finset.mem_insert.mp active with rfl | earlier
        · exact fresh member
        · exact idle u (.tail t member) earlier)
      (fun u member => requestable u (.tail t member))
    exact ⟨later.1, (single (admitted _ t) move).trans later.2⟩

variable (valid : s.isValidCandidate peer p = true)
  (offered : p ∈ s.pieceManager.needQueue ∨ (s.torrentStatus = .endgame ∧ p ∈ s.pieceManager.pendingQueue))
include valid offered

theorem Filling.assign : Move (.assign k p) (pipelineCore s k peer sent owed work)
      (pipelineCore s k peer sent owed (Assignment.take work k p)) := by
  simp only [isValidCandidate, Bool.and_eq_true, decide_eq_true_eq, Bool.not_eq_true', Bool.and_eq_false_iff,
    decide_eq_false_iff_not, not_not] at valid
  obtain ⟨⟨⟨⟨advertised, -⟩, -⟩, notSkip⟩, -⟩ := valid
  have wanted : ¬work.pieceManager.Skipped p := by
    rw [Skipped, effectivePriority, filling.priorities]
    rcases notSkip with standard | other
    · simp [standard]
    · cases found : s.pieceManager.piecePriorities[p]? with
      | none => simp
      | some priority => simpa [found] using other
  have available : p ∈ work.pieceManager.needQueue ∨
      (work.torrentStatus = .endgame ∧ p ∈ work.pieceManager.pendingQueue) ∨
      (p ∈ work.pendingRequests ∧ k ∈ work.pieceManager.owners p) := by
    rcases offered with needed | ⟨running, pending⟩
    · exact (filling.need p needed).imp id .inr
    · exact .inr (.inl ⟨filling.endgame running, filling.pending p pending⟩)
  have target : pipelineCore s k peer sent owed (Assignment.take work k p) =
      { (pipelineCore s k peer sent owed work).adjust k fun view => { view with asks := insert p view.asks } with
        pm := work.pieceManager.markAsPending p k
        status := if (work.pieceManager.markAsPending p k).needQueue = [] then .endgame
          else work.torrentStatus } := by
    have status : (if (work.pieceManager.markAsPending p k).needQueue = [] ∧ work.torrentStatus ≠ .endgame
        then TorrentStatus.endgame else work.torrentStatus) =
        if (work.pieceManager.markAsPending p k).needQueue = [] then .endgame else work.torrentStatus := by
      by_cases running : work.torrentStatus = .endgame <;> simp [running]
    simp only [pipelineCore, Core.adjust, Assignment.take, update_self, map_some, update_idem, pipelineView, status]
    congr 3
    simp only [PeerView.mk.injEq, and_true]
    ext q
    simp
  have known : (pipelineCore s k peer sent owed work).peers k = some (pipelineView peer work) := update_self ..
  rw [target]
  exact .assign filling.running known listening advertised wanted available

theorem assignPiece_steps (loaded : s.torrent = some torrent) (employs : Employs guard k) :
    Fills guard s k peer sent owed work
      (assignPiece order (calcV2Limit torrent s.pieceToRoots) isEndgame k work p) := by
  have selected := selectBlock_foldl (calcV2Limit torrent s.pieceToRoots) work.batch.active
    (nodup_offset_blocksToRequest order isEndgame work.pieceManager p) work.batch.slots
  rcases result : (blocksToRequest order isEndgame work.pieceManager p).foldl
      (selectBlock (calcV2Limit torrent s.pieceToRoots) work.batch.active) ([], work.batch.slots)
    with ⟨requests, slots⟩
  rw [result] at selected
  simp only [assignPiece, result]
  by_cases full : work.batch.slots = 0
  · rw [if_pos full]
    exact ⟨filling, .refl⟩
  rw [if_neg full]
  by_cases none : requests = []
  · rw [if_pos none]
    exact ⟨filling, .refl⟩
  rw [if_neg none]
  have taken := filling.take p
  have balance : requests.length + slots = work.batch.slots := selected.length
  have source : ∀ t ∈ requests, ∃ addr ∈ s.pieceManager.requestableBlockAddressesForPiece p,
      t = requestFor (calcV2Limit torrent s.pieceToRoots) addr := by
    intro t member
    obtain ⟨addr, among, rfl⟩ := selected.source t member
    refine ⟨addr, ?_, rfl⟩
    have offeredNow := mem_blocksToRequest.mp among
    simpa only [requestableBlockAddressesForPiece, filling.blockManager] using offeredNow
  have inPiece : ∀ addr ∈ s.pieceManager.requestableBlockAddressesForPiece p, addr.pieceIndex = p := by
    intro addr member
    obtain ⟨i, rfl, -⟩ := BlockManager.mem_pieceBlockAddresses (mem_requestable member)
    rfl
  have requested : Fills guard s k peer sent owed _ _ := taken.requests listening employs.request
    (by
      change requests.length ≤ work.batch.slots
      omega)
    (by
      intro t member
      obtain ⟨addr, among, rfl⟩ := source t member
      exact (mem_insert _).mpr (.inl (inPiece addr among)))
    selected.nodup selected.idle
    (by
      intro t member later filled
      obtain ⟨addr, among, rfl⟩ := source t member
      have piece := inPiece addr among
      exact filled.requestable loaded (by rw [piece]; exact among) (selected.nonempty _ member))
  rw [foldl_push] at requested
  have slotsLeft : (Assignment.take work k p).batch.slots - requests.length = slots := by
    change work.batch.slots - requests.length = slots
    omega
  rw [slotsLeft] at requested
  exact ⟨requested.1, (single (employs.assign _ p) (filling.assign listening valid offered)).trans requested.2⟩

end Filling

def continuing (s : TorrentState) (peer : PeerState) (batch : RequestBatch) : Assignment :=
  ⟨s.pieceManager, s.torrentStatus, peer.pendingRequests, batch⟩

section

variable (filling : Filling s k peer (continuing s peer batch)) (listening : peer.peerChoking = .unchoke)
  (loaded : s.torrent = some torrent) (admitted : ∀ c t, guard c (.request k t))
include filling listening loaded admitted

theorem continueBlock_steps (member : addr ∈ s.pieceManager.requestableBlockAddressesForPiece addr.pieceIndex)
    (asked : addr.pieceIndex ∈ peer.pendingRequests) :
    Fills guard s k peer sent owed (continuing s peer batch)
      (continuing s peer (continueBlock (calcV2Limit torrent s.pieceToRoots) batch addr)) := by
  dsimp only [continueBlock]
  split_ifs with idle
  · exact ⟨filling, .refl⟩
  simp only [not_or] at idle
  obtain ⟨room, nonempty, fresh⟩ := idle
  exact ⟨filling.push room _, .single (admitted _ _)
    (filling.request listening room asked fresh (filling.requestable loaded member nonempty))⟩

theorem continuePiece_steps (asked : p ∈ peer.pendingRequests) :
    Fills guard s k peer sent owed (continuing s peer batch)
      (continuing s peer (s.continuePiece order (calcV2Limit torrent s.pieceToRoots) isEndgame batch p)) := by
  unfold continuePiece
  split_ifs with busy
  · exact ⟨filling, .refl⟩
  refine foldl (fun batch => pipelineCore s k peer sent owed (continuing s peer batch))
    (fun batch => Filling s k peer (continuing s peer batch)) ?_ filling
  intro batch addr member filling
  have offered := mem_blocksToRequest.mp member
  obtain ⟨i, rfl, -⟩ := BlockManager.mem_pieceBlockAddresses (mem_requestable offered)
  exact continueBlock_steps filling listening loaded admitted offered asked

end

theorem mem_candidates (member : p ∈ s.candidates order peer (decide (s.torrentStatus = .endgame))) :
    s.isValidCandidate peer p = true ∧
      (p ∈ s.pieceManager.needQueue ∨ (s.torrentStatus = .endgame ∧ p ∈ s.pieceManager.pendingQueue)) := by
  have fromPool : p ∈ (if decide (s.torrentStatus = .endgame) = true then
      order.arrange 0 s.pieceManager.pendingQueue.keys ++ s.pieceManager.needQueue
      else s.pieceManager.needQueue).filter (s.isValidCandidate peer) := by
    unfold candidates at member
    dsimp only at member
    split_ifs at member ⊢ <;> simpa [mem_insertionSort] using member
  obtain ⟨pool, valid⟩ := mem_filter.mp fromPool
  refine ⟨valid, ?_⟩
  split_ifs at pool with endgame
  · rcases mem_append.mp pool with pending | needed
    · rw [Arrangement.mem_arrange] at pending
      exact .inr ⟨of_decide_eq_true endgame, mem_keys.mpr pending⟩
    · exact .inl needed
  · exact .inl pool

/-- Both loops of an assignment. -/
theorem fillPipeline_steps (running : s.torrentStatus ≠ .validating) (listening : peer.peerChoking = .unchoke)
    (room : peer.inflightRequests ≤ maxPipelineDepth) (loaded : s.torrent = some torrent) (employs : Employs guard k) :
    Steps Move guard
      (pipelineCore s k peer sent owed
        (continuing s peer ⟨peer.activeBlocks, [], maxPipelineDepth - peer.inflightRequests⟩))
      (pipelineCore s k peer sent owed (s.fillPipeline order torrent k peer)) := by
  have begun : Filling s k peer
      (continuing s peer ⟨peer.activeBlocks, [], maxPipelineDepth - peer.inflightRequests⟩) := by
    refine ⟨?_, rfl, rfl, running, id, fun q needed => .inl needed, fun q pending => pending⟩
    change peer.inflightRequests + 0 + (maxPipelineDepth - peer.inflightRequests) = maxPipelineDepth
    omega
  obtain ⟨continued, first⟩ := foldl
    (fun batch => pipelineCore s k peer sent owed (continuing s peer batch))
    (fun batch => Filling s k peer (continuing s peer batch))
    (fun batch p (member : p ∈ peer.pendingRequests.keys.insertionSort (· ≤ ·)) filling =>
      continuePiece_steps filling listening loaded employs.request
        (mem_keys.mpr ((mem_insertionSort _).mp member))) begun
  refine first.trans ?_
  exact (foldl (pipelineCore s k peer sent owed) (Filling s k peer)
    (fun work p member filling =>
      have candidate := mem_candidates (mem_of_mem_take member)
      assignPiece_steps filling listening candidate.1 candidate.2 loaded employs) continued).2

theorem view_updateInterest (s : TorrentState) (k : PeerId) (peer : PeerState) :
    view (s.updateInterest k peer).1 = view peer := by
  dsimp only [updateInterest]
  split_ifs <;> rfl

theorem requestsOf_updateInterest (s : TorrentState) (k : PeerId) (peer : PeerState) :
    requestsOf (s.updateInterest k peer).2 = [] := by
  dsimp only [updateInterest]
  split_ifs <;> rfl

/-- Writing an assignment back yields the state its loops ended in. -/
theorem abs_commitAssignment (known : k ∈ s.peers) :
    abs (s.commitAssignment k peer work).1 (sent ++ requestsOf (s.commitAssignment k peer work).2) owed =
      pipelineCore s k peer sent owed work := by
  have requests : requestsOf (s.commitAssignment k peer work).2 = work.batch.requests.map fun t => (k, t) := by
    dsimp only [commitAssignment]
    by_cases none : work.batch.requests = []
    · simp [none]
    · simp [none, requestsOf]
  have registered := peersView_eq_none.not.mpr (not_not.mpr known)
  obtain ⟨seen, isSeen⟩ := ne_none_iff_exists'.mp registered
  rw [requests]
  simp only [abs, commitAssignment, pipelineCore]
  congr 1
  rw [peersView_modify _ _ _ (fun _ => pipelineView peer work) fun _ => rfl, isSeen, map_some]

theorem assignWork_steps (host : Host) (employs : Employs guard k) (sent : List (PeerId × BlockRequest))
    (owed : Set (PeerId × ℕ)) :
    Steps Move guard (abs s sent owed)
      (abs (s.assignWork host k).1 (sent ++ requestsOf (s.assignWork host k).2) owed) := by
  unfold assignWork
  split_ifs with idle
  · exact .refl_of_eq (by simp [requestsOf])
  have running : s.torrentStatus ≠ .validating := fun validating => idle (.inl validating)
  cases loaded : s.torrent with
  | none => exact .refl_of_eq (by simp [requestsOf])
  | some torrent =>
    cases found : s.peers.lookup k with
    | none => exact .refl_of_eq (by simp [requestsOf])
    | some peer =>
      have known : k ∈ s.peers := mem_of_lookup_eq_some found
      have unseen := view_updateInterest s k peer
      have silent := requestsOf_updateInterest s k peer
      rcases told : s.updateInterest k peer with ⟨peer', interest⟩
      rw [told] at unseen silent
      simp only [told]
      have same : peersView (s.peers.modify k fun _ => peer') = peersView s.peers := by
        rw [peersView_modify _ _ _ (fun _ => view peer') fun _ => rfl, peersView_of_lookup found, map_some,
          unseen, ← peersView_of_lookup found, update_eq_self]
      split_ifs with closed
      · refine .refl_of_eq ?_
        simp only [abs, same, loaded, silent, append_nil]
      simp only [not_or] at closed
      obtain ⟨listening, -, room⟩ := closed
      rw [requestsOf_append, silent, nil_append, abs_commitAssignment known]
      have start : abs s sent owed = pipelineCore s k peer' sent owed
          (continuing s peer' ⟨peer'.activeBlocks, [], maxPipelineDepth - peer'.inflightRequests⟩) := by
        simp only [abs, pipelineCore, continuing, map_nil, append_nil]
        congr 1
        have seen : pipelineView peer'
            ⟨s.pieceManager, s.torrentStatus, peer'.pendingRequests,
              ⟨peer'.activeBlocks, [], maxPipelineDepth - peer'.inflightRequests⟩⟩ = view peer' := rfl
        rw [seen, unseen, ← peersView_of_lookup found, update_eq_self]
      rw [start]
      refine fillPipeline_steps running ?_ (by omega) loaded employs
      cases choking : peer'.peerChoking with
      | choke => exact absurd choking listening
      | unchoke => rfl

theorem assignWork_simulates (host : Host) (employs : Employs guard k) :
    Simulates guard s (s.assignWork host k).2 (s.assignWork host k).1 :=
  fun sent => assignWork_steps host employs sent ∅

def HandsOut (_ : Core) : Label → Prop
  | .assign _ _ => True
  | .request _ _ => True
  | _ => False

theorem bitfield_assignWork (s : TorrentState) (host : Host) (k : PeerId) :
    (s.assignWork host k).1.pieceManager.bitfield = s.pieceManager.bitfield := by
  have steps : Steps Move HandsOut (abs s [] ∅) _ :=
    assignWork_steps (k := k) host ⟨fun _ _ => trivial, fun _ _ => trivial⟩ [] ∅
  refine steps.preserves (fun c => c.pm.bitfield = s.pieceManager.bitfield) ?_ rfl
  intro c d label admitted move before
  cases move with
  | assign | request => exact before
  | _ => exact admitted.elim

end Superseedr.Scheduler
