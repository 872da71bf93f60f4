import Superseedr.Soundness.Causes

/-! # Peer handlers as runs of moves

A choking or departing peer drops its missing pieces one by one, forgets the done ones, and is then
choked or unregistered. Registration, bitfields and choke messages are single moves, followed by an
assignment where the handler hands out work.
-/

namespace Superseedr.Scheduler

open TorrentState List Option Function Set EmittingStep

variable {host : Host} {s t : TorrentState} {effects : List Effect} {guard : Core → Label → Prop} {k : PeerId}
  {peer : Scheduler.PeerView} {pieces : List ℕ} {pm' : PieceManager} {c : Scheduler.Core} {force : Bool}
  {policy : PeerPolicy} {addr : Option SocketAddr} {bits : List Bool} {bitfield : Bytes} {p : ℕ}

def Forgets (guard : Core → Label → Prop) : Prop := ∀ k c p, c.pm.bitfield[p]? = some .done → guard c (.forget k p)

/-- A peer may give its pieces back and leave. -/
structure Dismisses (guard : Core → Label → Prop) (k : PeerId) : Prop where
  drop : ∀ c p, guard c (.drop k p)
  unregister : ∀ c, guard c (.unregister k)

theorem releasePieces_steps (drops : ∀ c p, guard c (.drop k p)) (forgets : Forgets guard)
    (known : c.peers k = some peer) (asked : peer.asks = {p | p ∈ pieces}) (distinct : pieces.Nodup)
    (run : releasePieces k pieces c.pm = some pm') :
    Steps Move guard c
      { c with
        pm := pm'
        peers := Function.update c.peers k (some { peer with asks := ∅ })
        owed := c.owed \ {pair | pair.1 = k ∧ pair.2 ∈ pieces} } := by
  induction pieces generalizing c peer with
  | nil =>
    obtain rfl : c.pm = pm' := some.inj run
    refine .refl_of_eq ?_
    have unasked : { peer with asks := ∅ } = peer := by
      cases peer
      simpa using asked.symm
    simp [unasked, ← known]
  | cons p rest ih =>
    obtain ⟨fresh, distinctRest⟩ := nodup_cons.mp distinct
    rw [releasePieces, foldlM_cons, bind_eq_bind, bind_eq_some_iff] at run
    obtain ⟨mid, first, others⟩ := run
    have askedHere : c.Asks k p := ⟨peer, known, asked ▸ .head _⟩
    have left : (peer.asks \ {p}) = {q | q ∈ rest} := by
      ext q
      rw [asked]
      simp only [mem_sdiff, mem_ofPred_eq, mem_cons, mem_singleton_iff]
      constructor
      · rintro ⟨same | member, differ⟩
        · exact absurd same differ
        · exact member
      · intro member
        exact ⟨.inr member, fun same => fresh (same ▸ member)⟩
    have knownLater : (c.unask k p).peers k = some { peer with asks := peer.asks \ {p} } := by
      simp [Core.unask, Core.adjust, known]
    have move : Steps Move guard c { c.unask k p with pm := mid } := by
      by_cases done : c.pm.bitfield[p]? = some .done
      · rw [if_neg (not_not.mpr done)] at first
        cases first
        exact .single (forgets k c p done) .forget
      · rw [if_pos done] at first
        exact .single (drops c p) (.drop askedHere done first)
    have later := ih (c := { c.unask k p with pm := mid }) knownLater left distinctRest others
    refine (move.trans later).trans (.refl_of_eq ?_)
    simp only [Core.unask, Core.adjust, update_idem, sdiff_sdiff]
    congr 2
    ext ⟨other, q⟩
    simp only [mem_union, mem_singleton_iff, Prod.mk.injEq, mem_ofPred_eq, mem_cons]
    tauto

theorem asks_arrange (peer : PeerState) (order : Arrangement) (branch : ℕ) :
    (view peer).asks = {p | p ∈ order.arrange branch peer.pendingRequests.keys} := by
  ext p
  simp only [view, mem_ofPred_eq, Arrangement.mem_arrange]
  exact AList.mem_keys

theorem nodup_arrange_keys (peer : PeerState) (order : Arrangement) (branch : ℕ) :
    (order.arrange branch peer.pendingRequests.keys).Nodup :=
  (order.nodup_arrange branch).mpr peer.pendingRequests.keys_nodup

structure Disconnecting (R : TorrentState → List Effect → TorrentState → Prop) : Prop where
  idle : ∀ u, R u [] u
  compose : ∀ {u v w before after}, R u before v → R v after w → R u (before ++ after) w
  wait : ∀ u, R u [.doNothing] u
  collect :
    ∀ u pendingDisconnects lastActivity peerPolicy, R u [] { u with pendingDisconnects, lastActivity, peerPolicy }
  count : ∀ u : TorrentState, R u []
    { u with numberOfSuccessfullyConnectedPeers := u.peers.keys.length }.refreshPeerAdmissionGuard

def Removes (R : TorrentState → List Effect → TorrentState → Prop) (k : PeerId) : Prop :=
  ∀ host round u v emitted, removePeer host round k u = some (v, emitted) → R u emitted v

theorem removePeer_simulates (dismisses : Dismisses guard k) (forgets : Forgets guard) :
    Removes (Simulates guard) k := by
  intro host round s t effects run
  unfold removePeer at run
  cases found : s.peers.lookup k with
  | none =>
    simp only [found] at run
    cases run
    exact .refl s
  | some peer =>
    simp only [found, map_eq_some_iff, Prod.mk.injEq] at run
    obtain ⟨pm', released, rfl, rfl⟩ := run
    refine .of_steps rfl fun sent => ?_
    have given := releasePieces_steps (c := abs s sent ∅) dismisses.drop forgets (peersView_of_lookup found)
      (asks_arrange peer host.order round) (nodup_arrange_keys peer host.order round) released
    refine given.trans ((Steps.single (dismisses.unregister _) (.unregister (update_self ..) rfl)).trans
      (.refl_of_eq ?_))
    simp [abs, peersView_erase]

/-- A disconnect joins the collected ones, which go on waiting or are all carried out. -/
theorem peerDisconnected_cases (run : s.peerDisconnected host k force = some (t, effects)) :
    t = { s with pendingDisconnects := queuedDisconnects s k } ∧ effects = [.doNothing] ∧
        (force = true → queuedDisconnects s k = []) ∨
      ¬(!force ∧ (queuedDisconnects s k).length < 50) ∧
        { s with pendingDisconnects := queuedDisconnects s k }.flushDisconnects host = some (t, effects) := by
  have queued : (if k ≠ "" ∧ k ∈ s.peers then { s with pendingDisconnects := s.pendingDisconnects ++ [k] } else s) =
      { s with pendingDisconnects := queuedDisconnects s k } := by
    rw [queuedDisconnects]
    split_ifs <;> rfl
  simp only [peerDisconnected, queued] at run
  split_ifs at run with wait
  · cases run
    exact .inl ⟨rfl, rfl, fun forced => by simpa [forced] using wait⟩
  · exact .inr ⟨fun early => wait (.inl early), run⟩

@[simp] theorem queuedDisconnects_nobody : queuedDisconnects s "" = s.pendingDisconnects := by
  simp [queuedDisconnects]

theorem releases_forced : releases host s (.peerDisconnected k true) = queuedDisconnects s k := by
  simp [releases]

theorem removePeer_pendingDisconnects {round : ℕ} (run : removePeer host round k s = some (t, effects)) :
    t.pendingDisconnects = s.pendingDisconnects := by
  unfold removePeer at run
  cases found : s.peers.lookup k with
  | none =>
    simp only [found, some.injEq, Prod.mk.injEq] at run
    rw [← run.1]
  | some peer =>
    simp only [found, map_eq_some_iff, Prod.mk.injEq] at run
    obtain ⟨pm', released, rfl, rfl⟩ := run
    rfl

theorem flushDisconnects_pendingDisconnects (run : s.flushDisconnects host = some (t, effects)) :
    t.pendingDisconnects = [] := by
  simp only [flushDisconnects, map_eq_some_iff, Prod.mk.injEq] at run
  obtain ⟨⟨u, emitted⟩, loop, rfl, rfl⟩ := run
  exact forEachFrom_rule
    (R := fun (s : TorrentState) (_ : List Effect) (t : TorrentState) =>
      t.pendingDisconnects = s.pendingDisconnects)
    (fun _ => rfl) (fun first second => second.trans first)
    (fun i j s t effects _ round => removePeer_pendingDisconnects round) loop

/-- A forced disconnect leaves none to be carried out. -/
theorem peerDisconnected_pendingDisconnects (run : s.peerDisconnected host k true = some (t, effects)) :
    t.pendingDisconnects = [] := by
  rcases peerDisconnected_cases run with ⟨rfl, -, nobody⟩ | ⟨-, flushed⟩
  · exact nobody rfl
  · exact flushDisconnects_pendingDisconnects flushed

theorem simulates_disconnecting : Disconnecting (Simulates guard) where
  idle := .refl
  compose := .trans
  wait _ := .of_unseen rfl fun _ _ => rfl
  collect _ _ _ _ := .of_unseen rfl fun _ _ => rfl
  count _ := .of_unseen rfl fun _ _ => rfl

section Disconnects

variable {R : TorrentState → List Effect → TorrentState → Prop} (parts : Disconnecting R)
include parts

theorem flushDisconnects_rule (removes : ∀ j ∈ s.pendingDisconnects, Removes R j)
    (run : s.flushDisconnects host = some (t, effects)) : R s effects t := by
  obtain ⟨⟨u, emitted⟩, loop, result⟩ := map_eq_some_iff.mp run
  cases result
  have removed := forEachFrom_rule parts.idle parts.compose
    (fun round j u v emitted member => removes j member host round u v emitted) loop
  have whole := parts.compose (parts.compose (parts.collect s [] _ _) removed) (parts.count u)
  rwa [nil_append, append_nil] at whole

theorem peerDisconnected_rule (removes : ∀ j ∈ releases host s (.peerDisconnected k force), Removes R j)
    (run : s.peerDisconnected host k force = some (t, effects)) : R s effects t := by
  have collected := parts.collect s (queuedDisconnects s k) s.lastActivity s.peerPolicy
  rcases peerDisconnected_cases run with ⟨rfl, rfl, -⟩ | ⟨due, flushed⟩
  · exact parts.compose collected (parts.wait _)
  · rw [releases, if_neg due] at removes
    exact parts.compose collected (flushDisconnects_rule parts removes flushed)

/-- A new policy disconnects the blocked peers one by one, and with the first of them those that were collected. -/
theorem peerPolicyUpdated_rule (removes : ∀ j ∈ releases host s (.peerPolicyUpdated policy), Removes R j)
    (run : s.peerPolicyUpdated host policy = some (t, effects)) : R s effects t := by
  have switched := parts.collect s s.pendingDisconnects s.lastActivity policy
  by_cases nobody : s.blockedPeerIds host policy = []
  · simp only [peerPolicyUpdated, nobody, forEach_nil] at run
    cases run
    exact switched
  rw [releases, if_neg nobody] at removes
  have loop := forEachFrom_rule
    (R := fun u emitted v => (∀ j ∈ u.pendingDisconnects, Removes R j) → R u emitted v ∧
      ∀ j ∈ v.pendingDisconnects, Removes R j)
    (fun u within => ⟨parts.idle u, within⟩)
    (fun first second within =>
      ⟨parts.compose (first within).1 (second (first within).2).1, (second (first within).2).2⟩)
    (fun i j u v emitted member disconnected within => by
      refine ⟨peerDisconnected_rule parts (fun l among => ?_) disconnected, ?_⟩
      · rw [releases_forced, queuedDisconnects] at among
        split_ifs at among
        · rcases mem_append.mp among with earlier | now
          · exact within l earlier
          · exact mem_singleton.mp now ▸ removes j (mem_append_right _ member)
        · exact within l among
      · rw [peerDisconnected_pendingDisconnects disconnected]
        simp) run
  exact parts.compose switched (loop fun j member => removes j (mem_append_left _ member)).1

end Disconnects

theorem view_fresh (peerId : PeerId) (now : ℕ) (addr : Option SocketAddr) (id : Bytes) :
    view { PeerState.new peerId now with peerAddr := addr, peerId := id } = ⟨∅, [], .choke, 0, ∅⟩ := by
  simp only [view, PeerState.new]
  congr 1
  ext p
  simp [AList.notMem_empty]

theorem registerPeer_outcome (run : s.registerPeer host k addr = some (t, effects)) :
    ∃ u before after, (if s.replacesPendingSession k addr then s.peerDisconnected host "" true else some (s, [])) =
        some (u, before) ∧ effects = before ++ [after] ∧
      (t = u ∧ after = .disconnectPeerSession k ∨ k ∉ u.peers ∧ t = u.insertPeer k addr ∧ after = .doNothing) := by
  obtain ⟨u, before, after, first, second, rfl⟩ := andThen_eq_some.mp run
  have notQueued : k ∉ u.pendingDisconnects := by
    split_ifs at first with replaces
    · rw [peerDisconnected_pendingDisconnects first]
      exact not_mem_nil
    cases first
    intro queued
    apply replaces
    rw [replacesPendingSession, List.any_eq_true]
    exact ⟨k, queued, by simp⟩
  split_ifs at second with accepted
  · cases second
    simp only [canRegisterPeer, Bool.and_eq_true, Bool.or_eq_true, decide_eq_true_eq] at accepted
    exact ⟨u, before, _, first, rfl, .inr ⟨accepted.1.resolve_right notQueued, rfl, rfl⟩⟩
  · obtain ⟨rfl, rfl⟩ := Prod.mk.inj (some.inj second)
    exact ⟨u, before, _, first, rfl, .inl ⟨rfl, rfl⟩⟩

theorem registerPeer_rule {R : TorrentState → List Effect → TorrentState → Prop} (parts : Disconnecting R)
    (removes : ∀ j ∈ releases host s (.registerPeer k addr), Removes R j)
    (run : s.registerPeer host k addr = some (t, effects)) :
    ∃ u before after, R s before u ∧ effects = before ++ [after] ∧
      (t = u ∧ after = .disconnectPeerSession k ∨ k ∉ u.peers ∧ t = u.insertPeer k addr ∧ after = .doNothing) := by
  obtain ⟨u, before, after, first, rfl, outcome⟩ := registerPeer_outcome run
  refine ⟨u, before, after, ?_, rfl, outcome⟩
  split_ifs at first with replaces
  · rw [releases, if_pos replaces, ← queuedDisconnects_nobody] at removes
    exact peerDisconnected_rule parts (by rwa [releases_forced]) first
  · cases first
    exact parts.idle s

theorem registerPeer_simulates (removes : ∀ j ∈ releases host s (.registerPeer k addr), Removes (Simulates guard) j)
    (enters : ∀ c, guard c (.register k)) (run : s.registerPeer host k addr = some (t, effects)) :
    Simulates guard s effects t := by
  obtain ⟨u, before, after, flushed, rfl, outcome⟩ := registerPeer_rule simulates_disconnecting removes run
  refine flushed.trans ?_
  rcases outcome with ⟨rfl, rfl⟩ | ⟨unknown, rfl, rfl⟩
  · exact .of_unseen rfl fun _ _ => rfl
  refine .of_move (.register k) rfl (fun _ => enters _) fun sent => ?_
  have entered : peersView (u.insertPeer k addr).peers =
      Function.update (peersView u.peers) k (some ⟨∅, [], .choke, 0, ∅⟩) := by
    rw [← view_fresh k u.now addr k.toUTF8.data.toList]
    simp only [insertPeer, refreshPeerAdmissionGuard, peersView_insert]
    cases u.book.pendingDepartedPeerTransfers.lookup k <;> rfl
  have target : abs (u.insertPeer k addr) sent ∅ = { abs u sent ∅ with
        peers := Function.update (abs u sent ∅).peers k (some ⟨∅, [], .choke, 0, ∅⟩) } := by
    simp only [abs, entered]
    rfl
  rw [target]
  exact .register (peersView_eq_none.mpr unknown)

theorem abs_modify (change : PeerState → PeerState) (seen : PeerView → PeerView)
    (agree : ∀ peer, view (change peer) = seen (view peer)) (sent : List (PeerId × BlockRequest))
    (owed : Set (PeerId × ℕ)) :
    abs { s with peers := s.peers.modify k change } sent owed = (abs s sent owed).adjust k seen := by
  simp only [abs, Core.adjust, peersView_modify _ _ change seen agree]

theorem view_cleared (peer : PeerState) :
    view { peer with
      inflightRequests := 0
      activeBlocks := ∅
      peerChoking := .choke
      pendingRequests := ∅ } =
      { view peer with
        asks := ∅
        choking := .choke
        inflight := 0
        active := ∅ } := by
  simp only [view]
  congr 1
  ext p
  simp [AList.notMem_empty]

theorem peerChoked_simulates (drops : ∀ c p, guard c (.drop k p)) (forgets : Forgets guard)
    (chokes : ∀ c, guard c (.choke k)) (run : s.peerChoked host k = some (t, effects)) :
    Simulates guard s effects t := by
  unfold peerChoked at run
  cases found : s.peers.lookup k with
  | none =>
    simp only [found] at run
    cases run
    exact .of_unseen rfl fun _ _ => rfl
  | some peer =>
    simp only [found, map_eq_some_iff, Prod.mk.injEq] at run
    obtain ⟨pm', released, rfl, rfl⟩ := run
    refine .of_steps rfl fun sent => ?_
    have given := releasePieces_steps (c := abs s sent ∅) drops forgets (peersView_of_lookup found)
      (asks_arrange peer host.order 0) (nodup_arrange_keys peer host.order 0) released
    refine given.trans ((Steps.single (chokes _) (.choke (update_self ..) rfl)).trans (.refl_of_eq ?_))
    have cleared := peersView_modify s.peers k _
      (fun seen => { seen with asks := ∅, choking := .choke, inflight := 0, active := ∅ }) view_cleared
    simp only [abs, Core.adjust, update_self, map_some, update_idem, empty_sdiff, cleared, peersView_of_lookup found]

theorem peerUnchoked_simulates (opens : ∀ c, guard c (.unchoke k)) (employs : Employs guard k) :
    Simulates guard s (s.peerUnchoked host k).2 (s.peerUnchoked host k).1 := by
  have opened : Simulates guard s []
      { s with peers := s.peers.modify k fun peer => { peer with peerChoking := .unchoke } } := by
    refine .of_move (.unchoke k) rfl (fun _ => opens _) fun sent => ?_
    rw [abs_modify _ (fun peer => { peer with choking := .unchoke }) fun _ => rfl]
    exact .unchoke
  exact opened.trans (assignWork_simulates host employs)

theorem advertise_simulates {peer : PeerState} (found : s.peers.lookup k = some peer)
    (kept : ∀ i : ℕ, peer.bitfield[i]? = some true → bits[i]? = some true) (tells : ∀ c, guard c (.advertise k bits)) :
    Simulates guard s [] { s with peers := s.peers.modify k fun peer => { peer with bitfield := bits } } := by
  refine .of_move (.advertise k bits) rfl (fun _ => tells _) fun sent => ?_
  rw [abs_modify _ (fun peer => { peer with bits }) fun _ => rfl]
  exact .advertise (peersView_of_lookup found) kept

section

variable (tells : ∀ c bits, guard c (.advertise k bits)) (employs : Employs guard k)
include tells employs

theorem peerBitfieldReceived_simulates :
    Simulates guard s (s.peerBitfieldReceived host k bitfield).2 (s.peerBitfieldReceived host k bitfield).1 := by
  unfold peerBitfieldReceived
  cases found : s.peers.lookup k with
  | none => exact assignWork_simulates host employs
  | some peer =>
    dsimp only
    split_ifs with again sized
    · exact .of_unseen rfl fun _ _ => rfl
    all_goals
      refine .trans (advertise_simulates found (fun i held => ?_) fun c => tells c _)
        (assignWork_simulates host employs)
      have already : peer.bitfield.any id = true := List.any_eq_true.mpr ⟨true, mem_of_getElem? held, rfl⟩
      exact absurd already again

theorem peerHavePiece_simulates : Simulates guard s (s.peerHavePiece host k p).2 (s.peerHavePiece host k p).1 := by
  have told : Simulates guard s []
      { s with
        peers := s.peers.modify k fun peer => { peer with bitfield := peer.bitfield.set p true } } := by
    cases found : s.peers.lookup k with
    | none =>
      refine .of_unseen rfl fun sent owed => ?_
      rw [abs_modify _ (fun peer => { peer with bits := peer.bits.set p true }) fun _ => rfl]
      have unknown : (abs s sent owed).peers k = none := by simp [abs, peersView, found]
      rw [Core.adjust, unknown, map_none, ← unknown, update_eq_self]
    | some peer =>
      have kept : ∀ i : ℕ, peer.bitfield[i]? = some true → (peer.bitfield.set p true)[i]? = some true := by
        intro i held
        rw [getElem?_set]
        split_ifs with same inside
        · rfl
        · subst same
          exact absurd (List.getElem?_eq_some_iff.mp held).1 inside
        · exact held
      rw [AList.modify_congr (g := fun other => { other with bitfield := peer.bitfield.set p true })
        fun other same => by rw [mem_unique same found]]
      exact advertise_simulates found kept fun _ => tells _ _
  exact told.trans (assignWork_simulates host employs)

end

theorem recalculateChokes_simulates (host : Host) (seed : ℕ) :
    Simulates guard s (s.recalculateChokes host seed).2 (s.recalculateChokes host seed).1 := by
  have silent : requestsOf (s.recalculateChokes host seed).2 = [] := by
    have each : ∀ unchoked peer, requestsOf (rechoke unchoked peer).2 = [] := by
      intro unchoked peer
      dsimp only [rechoke]
      split_ifs <;> rfl
    dsimp only [recalculateChokes]
    split_ifs
    · rfl
    · rw [requestsOf, flatMap_assoc]
      exact flatMap_eq_nil_iff.mpr fun peer _ => each _ peer
  exact .of_unseen silent (unseen_of_peers rfl rfl rfl rfl (peersView_mapVal_of_unseen fun _ => rfl))

theorem peerSuccessfullyConnected_simulates :
    Simulates guard s (s.peerSuccessfullyConnected k).2 (s.peerSuccessfullyConnected k).1 := by
  refine .of_unseen rfl (unseen_of_peers rfl rfl rfl rfl (peersView_modify_of_unseen fun peer => ?_))
  split_ifs <;> rfl

theorem peerInterested_simulates : Simulates guard s (s.peerInterested k).2 (s.peerInterested k).1 := by
  unfold peerInterested
  cases found : s.peers.lookup k with
  | none => exact .of_unseen rfl fun _ _ => rfl
  | some peer =>
    dsimp only
    split_ifs
    · exact .of_unseen rfl (unseen_of_peers rfl rfl rfl rfl (peersView_modify_of_unseen fun _ => rfl))
    · exact .of_unseen rfl (unseen_of_peers rfl rfl rfl rfl (peersView_modify_of_unseen fun _ => rfl))

end Superseedr.Scheduler
