import Superseedr.Soundness.DataRefinement

/-! # Metadata, validation, pausing and configuration as runs of moves

Timers are not seen by the scheduler. Metadata is loaded and may start validation; the
result of validation is adopted. Pausing drains the pending pieces first and then removes the peers
one by one; in between, everything a remaining peer is asked for is owed.
-/

namespace Superseedr.Scheduler

open TorrentState List Option EmittingStep PieceManager AList Steps

variable {host : Host} {s t : TorrentState} {effects : List Effect} {guard : Core → Label → Prop} {k : PeerId}
  {dtMs : ℕ} {change : PeerState → PeerState} {priorities : List EffectivePiecePriority} {metadataLength : ℤ}
  {path : String} {name : Option String} {pm' pm : PieceManager} {pieces : List ℕ} {rest : List PeerId}

theorem tick_simulates (run : s.tick host dtMs = some (t, effects)) : Simulates guard s effects t := by
  obtain ⟨now, -, run⟩ := bind_eq_some_iff.mp run
  refine .andThen run ?_ ?_
  · intro u emitted first
    refine .of_result (.of_unseen rfl (unseen_of_peers rfl rfl rfl rfl ?_)) first
    exact peersView_mapVal_of_unseen fun _ => rfl
  · rintro u emitted - second
    split_ifs at second
    · exact .of_result (.refl u) second
    · exact .forEach second fun i url s t effects _ round => .of_idle (announceIfDue_idle round)

theorem withPeer_simulates (unseen : ∀ peer, view (change peer) = view peer) :
    Simulates guard s (s.withPeer k change).2 (s.withPeer k change).1 :=
  .of_unseen rfl (unseen_of_peers rfl rfl rfl rfl (peersView_modify_of_unseen unseen))

theorem rebuildMultiFileInfo_unseen (s : TorrentState) : Unseen s s.rebuildMultiFileInfo := by
  intro sent owed
  unfold rebuildMultiFileInfo
  split
  · split_ifs <;> rfl
  · rfl

section Metadata

theorem length_calculatePiecePriorities (loaded : s.torrent ≠ none)
    (run : s.calculatePiecePriorities = some priorities) : priorities.length = s.pieceManager.bitfield.length := by
  have painted : ∀ (entries : List (ℤ × ℕ)) (pieceLen : ℕ) (chosen : ℕ → Option FilePriority)
      (acc : List EffectivePiecePriority × ℕ),
      (entries.foldl (paintFile pieceLen chosen) acc).1.length = acc.1.length := by
    intro entries pieceLen chosen acc
    induction entries generalizing acc with
    | nil => rfl
    | cons entry rest ih =>
      rw [foldl_cons, ih]
      simp [paintFile]
  unfold calculatePiecePriorities at run
  cases known : s.torrent with
  | none => exact absurd known loaded
  | some torrent =>
    simp only [known] at run
    split_ifs at run with empty
    · cases run
      simp [empty]
    all_goals
      cases run
      rw [painted, length_replicate]

theorem abs_validating (sent : List (PeerId × BlockRequest)) (owed : Set (PeerId × ℕ)) :
    abs { s.rebuildMultiFileInfo with torrentStatus := .validating } sent owed =
      { abs s sent owed with status := .validating } :=
  congrArg (fun c : Core => { c with status := .validating }) (rebuildMultiFileInfo_unseen s sent owed)

theorem startValidation_simulates (loaded : s.torrent ≠ none) (validates : ∀ sent, guard (abs s sent ∅) .validate) :
    Simulates guard s [.startValidation] { s.rebuildMultiFileInfo with torrentStatus := .validating } := by
  refine .of_move .validate rfl validates fun sent => ?_
  rw [abs_validating]
  exact .validate loaded

theorem metadataReceived_simulates {torrent : Torrent} (loads : ∀ c, guard c (.load torrent))
    (validates : ∀ c, s.torrent = none → c.status = s.torrentStatus → guard c .validate)
    (run : s.metadataReceived host torrent metadataLength = some (t, effects)) : Simulates guard s effects t := by
  unfold metadataReceived at run
  cases known : s.torrent with
  | some old =>
    simp only [known, isSome_some, if_true] at run
    cases run
    exact .of_unseen rfl fun _ _ => rfl
  | none =>
    simp only [known, isSome_none, Bool.false_eq_true, if_false] at run
    obtain ⟨pm, prioritized, result⟩ := map_eq_some_iff.mp run
    have loaded : LoadsAs torrent s.torrentValidationStatus pm := by
      split_ifs at prioritized with chosen
      · obtain ⟨priorities, calculated, applied⟩ := bind_eq_some_iff.mp prioritized
        obtain ⟨⟨pm', cancelled⟩, run, rfl⟩ := map_eq_some_iff.mp applied
        refine .inr ⟨priorities, cancelled, ?_, run⟩
        rw [length_calculatePiecePriorities (by simp) calculated]
        simp [loadedPieces, setInitialFields, setGeometry]
      · exact .inl (some.inj prioritized).symm
    have peers := peersView_mapVal s.peers
      (fun peer => { peer with bitfield := fitBits torrent.numPieces peer.bitfield })
      (fun seen => { seen with bits := fitBits torrent.numPieces seen.bits }) fun _ => rfl
    have moved : ∀ sent, Move (.load torrent) (abs s sent ∅) _ := fun sent => .load known loaded
    simp only [abs, Core.adjustAll, ← peers] at moved
    split_ifs at result with located
    · cases result
      have started : Simulates guard _ _ _ := startValidation_simulates (s := { s with
        torrent := some torrent
        torrentMetadataLength := some metadataLength
        pieceToRoots := torrent.calculateV2Mapping.pieceToRoots
        pieceManager := pm
        verifyingPieces := ∅
        writingPieces := ∅
        peers := s.peers.mapVal fun _ peer => { peer with bitfield := fitBits torrent.numPieces peer.bitfield }
        trackers := s.mergeTrackers host torrent
        validationPiecesFound := 0 }) (by simp) fun sent => validates _ known rfl
      intro sent
      exact (single (loads _) (moved sent)).trans (started sent)
    · cases result
      exact .of_move (.load torrent) rfl (fun _ => loads _) moved

variable {completed : List ℕ}

theorem adoptValidation_simulates (validating : s.torrentStatus = .validating)
    (adopts : ∀ c, AtStart s c → guard c (.adopt completed)) (run : s.adoptValidation completed = some t) :
    Simulates guard s [] t := by
  obtain ⟨pm, marked, run⟩ := bind_eq_some_iff.mp run
  obtain ⟨need, queue, rfl⟩ := map_eq_some_iff.mp run
  refine .of_move (.adopt completed) rfl (fun sent => adopts _ ⟨rfl, rfl, rfl⟩) fun sent => ?_
  have peers := peersView_mapVal s.peers (fun peer => { peer with pendingRequests := ∅ })
    (fun seen => { seen with asks := ∅ }) fun peer => by
      simp only [view]
      congr 1
      ext p
      simp [notMem_empty]
  have moved : Move (.adopt completed) (abs s sent ∅) _ := .adopt validating marked queue
  simpa only [abs, Core.adjustAll, peers] using moved

/-- What follows once the result of validation is taken over. -/
theorem announced_simulates (finishes : ∀ c, guard c .finish) (employs : ∀ k, Employs guard k)
    (run : andThen (some (s.announceValidated host completed)) (fun s =>
      andThen (s.checkCompletion (host.sub 1)) fun s =>
        andThen (some (s.recalculateChokes (host.sub 2) (u64 host.elapsedNanos))) fun s =>
          s.assignAll (host.sub 3)) = some (t, effects)) : Simulates guard s effects t := by
  refine .andThen run ?_ ?_
  · intro v emitted first
    exact .of_idle (.of_result (announceValidated_idle completed) first)
  · rintro v emitted - second
    refine .andThen second (fun w told checked => checkCompletion_simulates finishes checked) ?_
    rintro w told - third
    refine .andThen third ?_ fun x more _ assigned => assignAll_simulates employs assigned
    intro x more choked
    simp only [some.injEq] at choked
    have rechoked : Simulates guard w _ _ := recalculateChokes_simulates (host.sub 2) (u64 host.elapsedNanos)
    rwa [choked] at rechoked

theorem validationComplete_simulates (adopts : ∀ c, AtStart s c → guard c (.adopt completed))
    (finishes : ∀ c, guard c .finish) (employs : ∀ k, Employs guard k)
    (run : s.validationComplete host completed = some (t, effects)) : Simulates guard s effects t := by
  unfold validationComplete at run
  split_ifs at run with idle
  · exact .of_result (.of_unseen rfl fun _ _ => rfl) run
  obtain ⟨u, adopted, run⟩ := bind_eq_some_iff.mp run
  have begun := adoptValidation_simulates (not_not.mp idle) adopts adopted
  rw [← nil_append effects]
  exact begun.trans (announced_simulates finishes employs run)

end Metadata

theorem isSome_rebuildMultiFileInfo (loaded : s.torrent.isSome = true) (located : s.torrentDataPath = some path)
    (unknown : s.multiFileInfo.isNone = true) : s.rebuildMultiFileInfo.multiFileInfo.isSome = true ↔ path ≠ "" := by
  obtain ⟨torrent, known⟩ := isSome_iff_exists.mp loaded
  simp only [rebuildMultiFileInfo, known, located]
  by_cases empty : path = ""
  · simp [empty, isNone_iff_eq_none.mp unknown]
  · simp [empty]

theorem setUserTorrentConfig_simulates {priorities : AList fun _ : ℕ => FilePriority} (finishes : ∀ c, guard c .finish)
    (validates : ∀ c, AtStart s c → s.startsValidation path = true → guard c .validate)
    (prioritizes : ∀ c new, c.pm = s.pieceManager → c.peers = peersView s.peers →
      (s.configured path priorities name).calculatePiecePriorities = some new →
      (c.status = if s.startsValidation path then .validating else s.torrentStatus) → guard c (.prioritize new))
    (run : s.setUserTorrentConfig host path priorities name = some (t, effects)) : Simulates guard s effects t := by
  obtain ⟨pm, prioritized, run⟩ := bind_eq_some_iff.mp run
  refine .andThen run ?_ fun u emitted _ checked => checkCompletion_simulates finishes checked
  intro u emitted first
  by_cases known : s.torrent.isSome = true
  · rw [if_pos known] at prioritized
    obtain ⟨new, calculated, applied⟩ := bind_eq_some_iff.mp prioritized
    obtain ⟨⟨pm', cancelled⟩, changed, rfl⟩ := map_eq_some_iff.mp applied
    have loaded : s.torrent ≠ none := isSome_iff_ne_none.mp known
    have length := length_calculatePiecePriorities (s := s.configured path priorities name) loaded calculated
    have moved : ∀ status sent, (status = if s.startsValidation path then .validating else s.torrentStatus) →
        Steps Move guard { abs s sent ∅ with status }
          { abs { s.configured path priorities name with pieceManager := pm' } sent ∅ with status } := by
      intro status sent expected
      exact .single (prioritizes _ new rfl rfl calculated expected)
        (.prioritize (c := { abs s sent ∅ with status }) loaded length changed)
    by_cases unknown : s.multiFileInfo.isNone = true
    · rw [if_pos ⟨known, unknown⟩] at first
      have layout := isSome_rebuildMultiFileInfo
        (s := { s.configured path priorities name with pieceManager := pm' }) known rfl unknown
      by_cases located : path = ""
      · have idle : s.startsValidation path = false := by simp [startsValidation, located]
        rw [if_neg fun some => layout.mp some located] at first
        cases first
        refine .then_unseen (.of_steps rfl fun sent => ?_) (rebuildMultiFileInfo_unseen _)
        exact moved s.torrentStatus sent (by simp [idle])
      have starts : s.startsValidation path = true := by simp [startsValidation, located, known, unknown]
      rw [if_pos (layout.mpr located)] at first
      cases first
      refine .of_steps rfl fun sent => ?_
      rw [abs_validating]
      refine (single (validates _ ⟨rfl, rfl, rfl⟩ starts) (.validate loaded)).trans ?_
      exact moved .validating sent (by simp [starts])
    · have idle : s.startsValidation path = false := by simp [startsValidation, unknown]
      rw [if_neg fun both => unknown both.2] at first
      cases first
      exact .of_steps rfl fun sent => moved s.torrentStatus sent (by simp [idle])
  · rw [if_neg known] at prioritized
    cases prioritized
    rw [if_neg fun both => known both.1] at first
    exact .of_result (.of_unseen rfl fun _ _ => rfl) first

def asked (s : TorrentState) : Set (PeerId × ℕ) := {pair | (abs s [] ∅).Asks pair.1 pair.2}

theorem foldlM_requeue_eq_releasePieces (drained : pm.pendingQueue = ∅) (run : pieces.foldlM
      (fun pm p => if pm.bitfield[p]? ≠ some .done then pm.requeuePendingToNeed p else some pm) pm = some pm') :
    releasePieces k pieces pm = some pm' ∧ pm'.pendingQueue = ∅ := by
  induction pieces generalizing pm with
  | nil =>
    obtain rfl : pm = pm' := some.inj run
    exact ⟨rfl, drained⟩
  | cons p rest ih =>
    rw [foldlM_cons, bind_eq_bind, bind_eq_some_iff] at run
    obtain ⟨mid, first, others⟩ := run
    have step : (if pm.bitfield[p]? ≠ some .done then pm.releasePendingPeerOrRequeue p k else some pm) =
        some mid := by
      rw [← first]
      simp [releasePendingPeerOrRequeue, drained]
    have still : mid.pendingQueue = ∅ := by
      split_ifs at first
      · obtain ⟨skipped, -, rfl⟩ := map_eq_some_iff.mp first
        refine eq_empty_of_forall_notMem fun q member => ?_
        rw [mem_erase, drained] at member
        exact notMem_empty q member.2
      · rw [← some.inj first, drained]
    obtain ⟨released, empty⟩ := ih still others
    refine ⟨?_, empty⟩
    rw [releasePieces, foldlM_cons, step]
    exact released

theorem removePausedPeer_steps {round : ℕ} (drained : s.pieceManager.pendingQueue = ∅) (dismisses : Dismisses guard k)
    (forgets : Forgets guard) (run : removePausedPeer host round k s = some (t, effects))
    (sent : List (PeerId × BlockRequest)) :
    Steps Move guard (abs s sent (asked s)) (abs t sent (asked t)) ∧ requestsOf effects = [] ∧
      t.pieceManager.pendingQueue = ∅ ∧ ∀ j ∈ t.peers, j ≠ k ∧ j ∈ s.peers := by
  unfold removePausedPeer at run
  cases found : s.peers.lookup k with
  | none =>
    simp only [found] at run
    cases run
    refine ⟨.refl, rfl, drained, fun j member => ⟨?_, member⟩⟩
    rintro rfl
    exact lookup_eq_none.mp found member
  | some peer =>
    simp only [found, map_eq_some_iff, Prod.mk.injEq] at run
    obtain ⟨pm', requeued, rfl, rfl⟩ := run
    obtain ⟨released, empty⟩ := foldlM_requeue_eq_releasePieces (k := k) drained requeued
    have known := peersView_of_lookup found
    have given := releasePieces_steps (c := abs s sent (asked s)) dismisses.drop forgets known
      (asks_arrange peer host.order round) (nodup_arrange_keys peer host.order round) released
    refine ⟨given.trans ((single (dismisses.unregister _) (.unregister (Function.update_self ..) rfl)).trans
      (.refl_of_eq ?_)), rfl, empty, fun j member => (mem_erase.mp member)⟩
    simp only [abs, peersView_erase, Function.update_idem]
    congr 1
    ext ⟨j, q⟩
    simp only [asked, abs, Core.Asks, peersView_erase, Set.mem_sdiff, Set.mem_ofPred_eq]
    rcases eq_or_ne j k with rfl | same
    · have inPieces : ∀ seen, peersView s.peers j = some seen → q ∈ seen.asks →
          q ∈ host.order.arrange round peer.pendingRequests.keys := by
        intro seen isSeen asks
        obtain rfl := mem_unique known isSeen
        rw [asks_arrange peer host.order round] at asks
        exact asks
      simp only [Function.update_self, reduceCtorEq, false_and, exists_false, iff_false, not_and]
      rintro ⟨seen, isSeen, asks⟩ kept
      exact kept trivial (inPieces seen isSeen asks)
    · simp [same]

theorem removePausedPeers_steps {round : ℕ} (drained : s.pieceManager.pendingQueue = ∅)
    (dismisses : ∀ k ∈ rest, Dismisses guard k) (forgets : Forgets guard)
    (run : forEachFrom (removePausedPeer host) round rest s = some (t, effects)) (sent : List (PeerId × BlockRequest)) :
    Steps Move guard (abs s sent (asked s)) (abs t sent (asked t)) ∧ requestsOf effects = [] ∧
      ∀ j ∈ t.peers, j ∉ rest ∧ j ∈ s.peers := by
  induction rest generalizing s round effects with
  | nil =>
    simp only [forEachFrom_nil] at run
    cases run
    exact ⟨.refl, rfl, fun j member => ⟨not_mem_nil, member⟩⟩
  | cons k rest ih =>
    obtain ⟨mid, before, after, first, others, rfl⟩ := andThen_eq_some.mp run
    have here : k ∈ k :: rest := .head _
    obtain ⟨moved, silent, still, left⟩ :=
      removePausedPeer_steps drained (dismisses k here) forgets first sent
    obtain ⟨movedRest, silentRest, leftRest⟩ := ih still (fun j member => dismisses j (.tail k member)) others
    refine ⟨moved.trans movedRest, by rw [requestsOf_append, silent, silentRest, append_nil], ?_⟩
    intro j member
    obtain ⟨notLater, atMid⟩ := leftRest j member
    obtain ⟨notNow, atStart⟩ := left j atMid
    exact ⟨not_mem_cons_of_ne_of_not_mem notNow notLater, atStart⟩

theorem pause_simulates (drains : ∀ c, AtStart s c → guard c .drain) (dismisses : ∀ k ∈ s.peers.keys, Dismisses guard k)
    (forgets : Forgets guard) (run : s.pause host = some (t, effects)) : Simulates guard s effects t := by
  simp only [pause, map_eq_some_iff, Prod.mk.injEq] at run
  obtain ⟨⟨u, disconnects⟩, loop, rfl, rfl⟩ := run
  intro sent
  obtain ⟨removed, silent, left⟩ := removePausedPeers_steps rfl
    (fun k member => dismisses k ((Arrangement.mem_arrange _ _).mp member)) forgets loop sent
  have gone : asked u = ∅ := by
    refine Set.eq_empty_iff_forall_notMem.mpr ?_
    rintro ⟨j, q⟩ ⟨seen, isSeen, -⟩
    have member : j ∈ u.peers := by
      by_contra absent
      exact absurd ((peersView_eq_none.mpr absent).symm.trans isSeen) (by simp)
    obtain ⟨outside, inside⟩ := left j member
    exact outside ((Arrangement.mem_arrange _ _).mpr (mem_keys.mp inside))
  have drainedAll := single (drains _ ⟨rfl, rfl, rfl⟩)
    (Move.drain (c := abs s sent ∅) (host.order.arrange_perm 0 s.pieceManager.pendingQueue.keys))
  rw [gone] at removed
  have quiet : requestsOf ([.emitMetrics u.bytesDownloadedInInterval u.bytesUploadedInInterval,
      .clearAllUploads] ++ disconnects) = [] := by
    rw [requestsOf_append, silent]
    rfl
  rw [quiet, append_nil]
  refine drainedAll.trans ((refl_of_eq ?_).trans removed)
  simp only [abs, Set.empty_union]
  rfl

theorem expireRecords_unseen (host : Host) (run : s.expireRecords = some t) :
    Unseen s t ∧ t.pendingDisconnects = s.pendingDisconnects ∧ t.stuckPeers host = s.stuckPeers host := by
  unfold expireRecords at run
  by_cases unsized : (s.torrent.map (·.pieceLen)).getD 16384 = 0
  · simp [unsized] at run
  · rw [if_neg unsized] at run
    cases run
    exact ⟨fun _ _ => rfl, rfl, rfl⟩

theorem seed_simulates (seeding : s.amSeeding = true) (seeds : ∀ c, guard c .seed) (finishes : ∀ c, guard c .finish)
    (run : (if s.torrentStatus ≠ .done then { s with torrentStatus := .done }.checkCompletion host
      else some (s, [])) = some (t, effects)) : Simulates guard s effects t := by
  split_ifs at run
  · simp only [amSeeding, Bool.and_eq_true, decide_eq_true_eq, List.all_eq_true] at seeding
    have seeded : Simulates guard s [] { s with torrentStatus := .done } :=
      .of_move .seed rfl (fun _ => seeds _) fun sent => .seed (c := abs s sent ∅) seeding.2 seeding.1
    exact seeded.trans (checkCompletion_simulates finishes run)
  · exact .of_result (.refl s) run

theorem cleanup_rule {R : TorrentState → List Effect → TorrentState → Prop} (parts : Disconnecting R)
    (removes : ∀ j ∈ releases host s .cleanup, Removes R j) (rest : ∀ v emitted, (if v.amSeeding then
        EmittingStep.andThen
          (if v.torrentStatus ≠ .done then { v with torrentStatus := .done }.checkCompletion (host.sub 2)
            else some (v, []))
          fun w => w.shedPeers (host.sub 3)
      else some (v, [])) = some (t, emitted) → R v emitted t) (run : s.cleanup host = some (t, effects)) :
    ∃ u, s.expireRecords = some u ∧ R u effects t := by
  obtain ⟨u, expired, run⟩ := bind_eq_some_iff.mp run
  obtain ⟨v, before, after, flushed, second, rfl⟩ := andThen_eq_some.mp run
  obtain ⟨-, pending, stuck⟩ := expireRecords_unseen host expired
  have collected := parts.collect u (u.pendingDisconnects ++ u.stuckPeers host) u.lastActivity u.peerPolicy
  refine ⟨u, expired, parts.compose (parts.compose collected (peerDisconnected_rule parts ?_ flushed))
    (rest v after second)⟩
  rw [releases_forced, queuedDisconnects_nobody]
  rwa [pending, stuck]

theorem cleanup_simulates (removes : ∀ j ∈ releases host s .cleanup, Removes (Simulates guard) j)
    (seeds : ∀ c, guard c .seed) (finishes : ∀ c, guard c .finish) (run : s.cleanup host = some (t, effects)) :
    Simulates guard s effects t := by
  obtain ⟨u, expired, cleaned⟩ := cleanup_rule simulates_disconnecting removes (fun v emitted second => by
    by_cases seeding : v.amSeeding = true
    · rw [if_pos seeding] at second
      exact .andThen second (fun w told checked => seed_simulates seeding seeds finishes checked)
        fun w told _ shed => .of_idle (shedPeers_idle shed)
    · rw [if_neg seeding] at second
      exact .of_result (.refl v) second) run
  exact .after_unseen (expireRecords_unseen host expired).1 cleaned

theorem delete_simulates (wipes : ∀ c, guard c .wipe) : Simulates guard s (s.delete host).2 (s.delete host).1 := by
  have silent : requestsOf (s.delete host).2 = [] := by
    simp only [delete, cons_append]
    rw [← singleton_append, requestsOf_append, requestsOf_append, requestsOf_map_of_silent fun _ => rfl]
    split_ifs <;> rfl
  have fresh : (s.delete host).1.pieceManager = { PieceManager.new with
        bitfield := replicate s.pieceManager.bitfield.length .need
        piecesRemaining := s.pieceManager.bitfield.length } := by
    cases count : s.pieceManager.bitfield.length with
    | zero => simp [delete, count, PieceManager.new]
    | succ n => simp [delete, count, PieceManager.new, PieceManager.setInitialFields]
  refine .of_move .wipe silent (fun _ => wipes _) fun sent => ?_
  have moved : Move .wipe (abs s sent ∅) _ := .wipe fresh
  have nobody : peersView (s.delete host).1.peers = fun _ => none := by
    funext j
    exact peersView_eq_none.mpr (notMem_empty j)
  simp only [abs, nobody]
  exact moved

end Superseedr.Scheduler
