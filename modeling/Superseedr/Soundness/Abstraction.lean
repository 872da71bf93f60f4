import Superseedr.Soundness.Scheduler

/-! # The torrent state as a state of the scheduler

`abs` forgets what the scheduler does not see. A handler simulates when it is a run of moves between
the abstractions of its first and last state whose requests are the ones it emits. Most fields of a
peer are invisible, so most handlers do not move the scheduler at all.
-/

namespace Superseedr.Scheduler

open Option Function AList EmittingStep

variable {effects : List Effect} {k : PeerId} {b : BlockRequest} {change : PeerState → PeerState} {peer : PeerState}
  {s t : TorrentState} {result : TorrentState × List Effect} {second : TorrentState → EmittingStep TorrentState Effect}

def view (peer : PeerState) : PeerView where
  asks := {p | p ∈ peer.pendingRequests}
  bits := peer.bitfield
  choking := peer.peerChoking
  inflight := peer.inflightRequests
  active := peer.activeBlocks

def peersView (peers : AList fun _ : PeerId => PeerState) (k : PeerId) : Option PeerView :=
  (peers.lookup k).map view

def abs (s : TorrentState) (sent : List (PeerId × BlockRequest)) (owed : Set (PeerId × ℕ)) : Core where
  torrent := s.torrent
  roots := s.pieceToRoots
  status := s.torrentStatus
  pm := s.pieceManager
  peers := peersView s.peers
  sent := sent
  owed := owed

def requestsOf (effects : List Effect) : List (PeerId × BlockRequest) :=
  effects.flatMap fun
    | .sendToPeer k (.bulkRequest blocks) => blocks.map fun t => (k, t)
    | _ => []

@[simp] theorem requestsOf_nil : requestsOf [] = [] := rfl

theorem requestsOf_append (before after : List Effect) :
    requestsOf (before ++ after) = requestsOf before ++ requestsOf after :=
  List.flatMap_append

theorem mem_requestsOf :
    (k, b) ∈ requestsOf effects ↔ ∃ blocks, .sendToPeer k (.bulkRequest blocks) ∈ effects ∧ b ∈ blocks := by
  rw [requestsOf, List.mem_flatMap]
  constructor
  · rintro ⟨effect, emitted, member⟩
    split at member
    · obtain ⟨b', among, same⟩ := List.mem_map.mp member
      cases same
      exact ⟨_, emitted, among⟩
    · cases member
  · rintro ⟨blocks, emitted, among⟩
    exact ⟨_, emitted, List.mem_map.mpr ⟨b, among, rfl⟩⟩

section Peers

variable {peers : AList fun _ : PeerId => PeerState}

theorem peersView_modify (peers : AList fun _ : PeerId => PeerState) (k : PeerId) (change : PeerState → PeerState)
    (seen : PeerView → PeerView) (agree : ∀ peer, view (change peer) = seen (view peer)) :
    peersView (peers.modify k change) = Function.update (peersView peers) k ((peersView peers k).map seen) := by
  funext other
  rcases eq_or_ne other k with rfl | same
  · rw [update_self, peersView, peersView, lookup_modify_self, map_map, map_map]
    exact congrArg (fun f => Option.map f _) (funext agree)
  · rw [update_of_ne same, peersView, peersView, lookup_modify_ne same]

theorem peersView_modify_of_unseen (unseen : ∀ peer, view (change peer) = view peer) :
    peersView (peers.modify k change) = peersView peers := by
  rw [peersView_modify peers k change id unseen, map_id_fun, id, update_eq_self]

theorem peersView_mapVal (peers : AList fun _ : PeerId => PeerState) (change : PeerState → PeerState)
    (seen : PeerView → PeerView) (agree : ∀ peer, view (change peer) = seen (view peer)) :
    peersView (peers.mapVal fun _ => change) = fun other => (peersView peers other).map seen := by
  funext other
  rw [peersView, peersView, lookup_mapVal, map_map, map_map]
  exact congrArg (fun f => Option.map f _) (funext agree)

theorem peersView_mapVal_of_unseen (unseen : ∀ peer, view (change peer) = view peer) :
    peersView (peers.mapVal fun _ => change) = peersView peers := by
  rw [peersView_mapVal peers change id unseen]
  simp

theorem peersView_insert (peer : PeerState) :
    peersView (peers.insert k peer) = Function.update (peersView peers) k (some (view peer)) := by
  funext other
  rw [peersView, lookup_insert_ite]
  split_ifs with same
  · rw [same, update_self, map_some]
  · rw [update_of_ne same, peersView]

theorem peersView_erase : peersView (peers.erase k) = Function.update (peersView peers) k none := by
  funext other
  rw [peersView, lookup_erase_ite]
  split_ifs with same
  · rw [same, update_self, map_none]
  · rw [update_of_ne same, peersView]

theorem peersView_of_lookup (found : peers.lookup k = some peer) : peersView peers k = some (view peer) := by
  rw [peersView, found, map_some]

theorem peersView_eq_none : peersView peers k = none ↔ k ∉ peers := by
  rw [peersView, map_eq_none_iff, lookup_eq_none]

end Peers

/-- A handler as a run of moves, whatever the update has requested before it. -/
def Simulates (guard : Core → Label → Prop) (s : TorrentState) (effects : List Effect) (t : TorrentState) : Prop :=
  ∀ sent, Steps Move guard (abs s sent ∅) (abs t (sent ++ requestsOf effects) ∅)

def Unseen (s t : TorrentState) : Prop := ∀ sent owed, abs t sent owed = abs s sent owed

/-- What has to agree for the scheduler to see no difference. -/
theorem unseen_of_peers (torrent : t.torrent = s.torrent) (roots : t.pieceToRoots = s.pieceToRoots)
    (status : t.torrentStatus = s.torrentStatus) (pm : t.pieceManager = s.pieceManager)
    (peers : peersView t.peers = peersView s.peers) : Unseen s t := by
  intro sent owed
  simp only [abs, torrent, roots, status, pm, peers]

namespace Simulates

variable {guard : Core → Label → Prop} {u : TorrentState} {before after : List Effect}

/-- A handler that requests nothing and changes nothing the scheduler sees. -/
theorem of_unseen (silent : requestsOf before = []) (same : Unseen s t) : Simulates guard s before t := by
  intro sent
  rw [silent, List.append_nil, same]
  exact .refl

theorem refl (s : TorrentState) : Simulates guard s [] s :=
  of_unseen rfl fun _ _ => rfl

theorem of_result (simulates : Simulates guard s result.2 result.1) (run : some result = some (t, before)) :
    Simulates guard s before t := by
  cases run
  exact simulates

theorem trans (first : Simulates guard s before t) (second : Simulates guard t after u) :
    Simulates guard s (before ++ after) u := by
  intro sent
  rw [requestsOf_append, ← List.append_assoc]
  exact (first sent).trans (second _)

theorem of_steps (silent : requestsOf before = []) (steps : ∀ sent, Steps Move guard (abs s sent ∅) (abs t sent ∅)) :
    Simulates guard s before t := by
  intro sent
  rw [silent, List.append_nil]
  exact steps sent

theorem of_move (label : Label) (silent : requestsOf before = []) (admitted : ∀ sent, guard (abs s sent ∅) label)
    (move : ∀ sent, Move label (abs s sent ∅) (abs t sent ∅)) : Simulates guard s before t :=
  of_steps silent fun sent => .single (admitted sent) (move sent)

theorem with_effects (run : Simulates guard s before t) (same : requestsOf after = requestsOf before) :
    Simulates guard s after t := by
  intro sent
  rw [same]
  exact run sent

theorem then_unseen (run : Simulates guard s before t) (same : Unseen t u) : Simulates guard s before u := by
  intro sent
  rw [same]
  exact run sent

theorem after_unseen (same : Unseen s t) (run : Simulates guard t before u) : Simulates guard s before u := by
  intro sent
  rw [← same]
  exact run sent

theorem andThen {first : Update} (run : first.andThen second = some (u, after))
    (left : ∀ t effects, first = some (t, effects) → Simulates guard s effects t)
    (right : ∀ t effects, (∃ before, first = some (t, before)) → second t = some (u, effects) →
      Simulates guard t effects u) : Simulates guard s after u := by
  obtain ⟨t, before, more, firstRun, secondRun, rfl⟩ := andThen_eq_some.mp run
  exact (left t before firstRun).trans (right t more ⟨before, firstRun⟩ secondRun)

/-- A loop of handlers. -/
theorem forEach {α : Type*} {l : List α} {body : ℕ → α → TorrentState → EmittingStep TorrentState Effect}
    (run : forEach l body s = some (u, after))
    (round : ∀ i x s t effects, x ∈ l → body i x s = some (t, effects) → Simulates guard s effects t) :
    Simulates guard s after u :=
  forEachFrom_rule refl (fun first second => trans first second) round run

end Simulates

end Superseedr.Scheduler
