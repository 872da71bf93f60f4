import Superseedr.Soundness.Bystanders

/-! # The reducer keeps the ledger

Handlers that assign work, announce, load or validate do not touch the ledger. Registration, removal,
interest, blocks, the clock and the recalculation of chokes are moves of it.
-/

namespace Superseedr

open EmittingStep List Option AList

variable {addr : Option SocketAddr} {dtMs : ℕ} {completed : List ℕ} {path : String}
  {priorities : AList fun _ : ℕ => FilePriority} {name : Option String} {host : Host} {s t : TorrentState}
  {a : Action} {effects : List Effect}

/-- The actions that recalculate whom to unchoke. -/
def Action.rechokes : Action → Bool
  | .recalculateChokes _ => true
  | .setDataAvailability _ => true
  | .validationComplete _ => true
  | _ => false

namespace Ledger

def Permits (host : Host) (s : TorrentState) (a : Action) : Label → Prop
  | .enter k => ∃ addr, a = .registerPeer k addr
  | .leave k => k ∈ Scheduler.releases host s a
  | .wipe => a = .delete
  | .rechoke => a.rechokes = true
  | .interest k => a = .peerInterested k
  | .unchoke k => a = .peerInterested k
  | .download k count => ∃ p offset data, a = .incomingBlock k p offset data ∧ count = data.length
  | .upload k count => a = .blockSentToPeer k count
  | .tick => ∃ dtMs, a = .tick dtMs
  | .count => True
  | .queue => True

end Ledger

namespace TorrentState

open Ledger

variable {guard : Page → Label → Prop} {k : PeerId} {p : ℕ}

theorem unchokeCandidates_chosen (seed : ℕ) :
    ∃ chosen : List PeerState, (s.unchokeCandidates host seed).1 = chosen.map (·.ipPort) ∧ chosen.length ≤ 5 ∧
      ∀ peer ∈ chosen, peer.peerIsInterestedInUs = true ∧ peer ∈ s.peers.entries.map (·.2) := by
  unfold unchokeCandidates
  split
  · extract_lets score interested best optimistic
    have member : ∀ peer ∈ interested, peer.peerIsInterestedInUs = true ∧ peer ∈ s.peers.entries.map (·.2) := by
      intro peer among
      rw [mem_insertionSort, mem_filter, host.order.mem_arrange] at among
      exact ⟨among.2, among.1⟩
    have few : (interested.take uploadSlotsDefault).length ≤ 4 := by
      rw [length_take]
      exact Nat.min_le_left _ _
    split
    · refine ⟨interested.take uploadSlotsDefault ++ optimistic[seed % optimistic.length]?.toList, ?_, ?_, ?_⟩
      · rw [map_append]
        cases optimistic[seed % optimistic.length]? <;> rfl
      · have single : optimistic[seed % optimistic.length]?.toList.length ≤ 1 := by
          cases optimistic[seed % optimistic.length]? <;> simp
        rw [length_append]
        omega
      · intro peer among
        rcases mem_append.mp among with among | lucky
        · exact member peer (mem_of_mem_take among)
        · rw [mem_toList] at lucky
          exact member peer (mem_of_mem_filter (mem_of_getElem? lucky))
    · exact ⟨interested.take uploadSlotsDefault, rfl, by omega, fun peer among => member peer (mem_of_mem_take among)⟩
  · exact ⟨[], rfl, by simp, by simp⟩

theorem commandsOf_rechoke (unchoked : List PeerId) (peer : PeerState) :
    commandsOf (rechoke unchoked peer).2 = rechokeCommand unchoked (card peer) := by
  simp only [rechoke, rechokeCommand, wanted, card]
  split_ifs <;> simp_all [commandsOf]

theorem entries_cardsOf (peers : AList fun _ : PeerId => PeerState) :
    (cardsOf peers).entries.map (·.2) = (peers.entries.map (·.2)).map card := by
  rw [cardsOf, AList.mapVal, List.map_map, List.map_map]
  rfl

theorem recalculateChokes_move (seed : ℕ) (told : List (PeerId × ChokeStatus)) :
    Move .rechoke (page s told)
      (page (s.recalculateChokes host seed).1 (told ++ commandsOf (s.recalculateChokes host seed).2)) := by
  obtain ⟨chosen, choice, few, allowed⟩ := unchokeCandidates_chosen seed
  refine ⟨chosen.map card, (host.order.arrange 1 (s.peers.entries.map (·.2))).map card,
    by rwa [length_map], ?_, ?_, ?_⟩
  · intro shown member
    obtain ⟨peer, among, rfl⟩ := mem_map.mp member
    change peer.peerIsInterestedInUs = true ∧ card peer ∈ (cardsOf s.peers).entries.map (·.2)
    rw [entries_cardsOf]
    exact ⟨(allowed peer among).1, mem_map_of_mem (allowed peer among).2⟩
  · change Perm _ ((cardsOf s.peers).entries.map (·.2))
    rw [entries_cardsOf]
    exact (host.order.arrange_perm 1 _).map card
  · have ports : (chosen.map card).map (·.ipPort) = (s.unchokeCandidates host seed).1 := by
      rw [choice, List.map_map]
      rfl
    have commands : commandsOf (s.recalculateChokes host seed).2 =
        ((host.order.arrange 1 (s.peers.entries.map (·.2))).map card).flatMap
          (rechokeCommand (s.unchokeCandidates host seed).1) := by
      have each : commandsOf (s.recalculateChokes host seed).2 =
          commandsOf ((host.order.arrange 1 (s.peers.entries.map (·.2))).flatMap fun peer =>
            (rechoke (s.unchokeCandidates host seed).1 peer).2) := by
        simp only [recalculateChokes]
        split_ifs with nothing
        · rw [nothing]
          rfl
        · rfl
      refine each.trans (flatMap_assoc.trans ?_)
      rw [flatMap_map]
      exact flatMap_congr fun peer _ => commandsOf_rechoke ..
    have cards : cardsOf (s.recalculateChokes host seed).1.peers = (cardsOf s.peers).mapVal fun _ shown =>
        { shown with amChoking := wanted (s.unchokeCandidates host seed).1 shown } := by
      simp only [recalculateChokes, cardsOf, mapVal_mapVal]
      rfl
    rw [ports, commands]
    exact page_eq cards rfl rfl rfl rfl rfl

theorem recalculateChokes_records (seed : ℕ) (admitted : ∀ c, guard c .rechoke) :
    Records guard s (s.recalculateChokes host seed).2 (s.recalculateChokes host seed).1 :=
  fun told => .single (admitted _) (recalculateChokes_move seed told)

theorem peerInterested_records (interest : ∀ c, guard c (.interest k)) (unchoke : ∀ c, guard c (.unchoke k)) :
    Records guard s (s.peerInterested k).2 (s.peerInterested k).1 := by
  dsimp only [peerInterested]
  split
  · exact .of_unrecorded ⟨by simp, rfl⟩
  rename_i peer found
  split_ifs with slot
  · simp only [Bool.and_eq_true, decide_eq_true_eq] at slot
    intro told
    refine .single (unchoke _) ⟨⟨card peer, ?_, slot.2⟩, ?_⟩
    · change (cardsOf s.peers).lookup k = _
      rw [lookup_cardsOf, found, map_some]
    · exact page_eq (cardsOf_modify fun _ => rfl) rfl rfl rfl rfl rfl
  · refine .of_move (.interest k) (by simp) (fun _ => interest _) fun told => ?_
    exact page_eq (cardsOf_modify fun _ => rfl) rfl rfl rfl rfl rfl

theorem removePeer_records (leaves : ∀ c, guard c (.leave k)) : Scheduler.Removes (Records guard) k := by
  intro host round s t effects run
  unfold removePeer at run
  split at run
  · exact .of_unrecorded (.of_some run (by simp) rfl)
  rename_i peer found
  obtain ⟨pm, -, result⟩ := map_eq_some_iff.mp run
  cases result
  refine .of_move (.leave k) (by simp) (fun _ => leaves _) fun told => ?_
  refine ⟨_, host.showSocketAddr, true, ?_, page_eq mapVal_erase rfl rfl rfl rfl rfl⟩
  change (cardsOf s.peers).lookup k = _
  rw [lookup_cardsOf, found]
  split_ifs <;> rfl

theorem insertPeer_move (addr : Option SocketAddr) (unknown : k ∉ s.peers) (told : List (PeerId × ChokeStatus)) :
    Move (.enter k) (page s told) (page (s.insertPeer k addr) told) := by
  refine ⟨fun member => unknown (mem_mapVal.mp member), addr, ?_⟩
  have cards : cardsOf (s.insertPeer k addr).peers = (cardsOf s.peers).insert k (freshCard s.book k addr) := by
    simp only [insertPeer, refreshPeerAdmissionGuard, cardsOf, mapVal_insert, freshCard]
    cases s.book.pendingDepartedPeerTransfers.lookup k <;> rfl
  refine page_eq cards rfl rfl ?_ rfl rfl
  change (s.insertPeer k addr).peers.keys.length = ((cardsOf s.peers).insert k (freshCard s.book k addr)).keys.length
  rw [← cards, cardsOf, keys_mapVal]

section

variable (queues : ∀ c, guard c .queue) (counts : ∀ c, guard c .count)
include queues counts

theorem records_disconnecting : Scheduler.Disconnecting (Records guard) where
  idle := .refl
  compose := .trans
  wait _ := .of_unrecorded ⟨by simp, rfl⟩
  collect _ _ _ _ := .of_move .queue (by simp) (fun _ => queues _) fun _ => ⟨_, rfl⟩
  count _ := .of_move .count (by simp) (fun _ => counts _) fun _ =>
    page_eq rfl rfl rfl (congrArg length keys_mapVal.symm) rfl rfl

theorem registerPeer_records (leaves : ∀ j ∈ Scheduler.releases host s (.registerPeer k addr), ∀ c, guard c (.leave j))
    (enters : ∀ c, guard c (.enter k)) (run : s.registerPeer host k addr = some (t, effects)) :
    Records guard s effects t := by
  obtain ⟨u, before, after, flushed, rfl, ⟨rfl, rfl⟩ | ⟨unknown, rfl, rfl⟩⟩ := Scheduler.registerPeer_rule
    (records_disconnecting queues counts) (fun j member => removePeer_records (leaves j member)) run
  · exact flushed.trans (.of_unrecorded ⟨by simp, rfl⟩)
  · exact flushed.trans (.of_move (.enter k) (by simp) (fun _ => enters _) fun told =>
      insertPeer_move addr unknown told)

end

theorem peerSuccessfullyConnected_records (counts : ∀ c, guard c .count) :
    Records guard s (s.peerSuccessfullyConnected k).2 (s.peerSuccessfullyConnected k).1 := by
  refine .of_move .count (by simp [peerSuccessfullyConnected]) (fun _ => counts _) fun told => ?_
  refine page_eq (cardsOf_modify_of_unseen fun peer => ?_) rfl rfl (congrArg length keys_mapVal.symm)
    rfl rfl
  split_ifs <;> rfl

section Data

variable {offset : ℕ} {data : Bytes}

theorem assembleBlock_unrecorded (run : s.assembleBlock k p offset data = some (t, effects)) :
    Unrecorded s effects t := by
  obtain ⟨⟨pm, complete⟩, -, run⟩ := bind_eq_some_iff.mp run
  dsimp only at run
  split at run
  · exact .of_some run (by simp) rfl
  · refine .from_same ?_ (unrecorded_of_verifying (submitPiece_verifying run))
    rfl

theorem receiveBlock_standing (s : TorrentState) (k : PeerId) (p offset len : ℕ) (unneeded : Bool) :
    standing (s.receiveBlock k p offset len unneeded) =
      if unneeded then standing s
      else { standing s with
        cards := (cardsOf s.peers).modify k fun shown =>
          { shown with totalDownloaded := u64 (shown.totalDownloaded + len) } } := by
  cases unneeded with
  | true => exact standing_of_cards (cardsOf_modify_of_unseen fun _ => rfl) rfl rfl rfl rfl
  | false =>
    have cards : cardsOf (s.receiveBlock k p offset len false).peers = (cardsOf s.peers).modify k fun shown =>
        { shown with totalDownloaded := u64 (shown.totalDownloaded + len) } := cardsOf_modify fun _ => rfl
    simp only [standing, cards]
    rfl

/-- An arriving block is credited to its peer or not counted, and nothing else is recorded. -/
theorem incomingBlock_standing (run : s.incomingBlock host k p offset data = some (t, effects)) :
    (∀ effect ∈ effects, chokes effect = false) ∧ (standing t = standing s ∨ standing t =
      { standing s with
        cards := (cardsOf s.peers).modify k fun shown =>
          { shown with totalDownloaded := u64 (shown.totalDownloaded + data.length) } }) := by
  dsimp only [incomingBlock] at run
  split at run
  · have idle : Unrecorded s effects t := .of_some run (by simp) rfl
    exact ⟨idle.silent, .inl idle.same⟩
  generalize (decide (s.pieceManager.bitfield[p]? = some .done) || decide (p ∈ s.writingPieces)) = unneeded at run
  have received := receiveBlock_standing s k p offset data.length unneeded
  have rest : Unrecorded (s.receiveBlock k p offset data.length unneeded) effects t := by
    refine .andThen run ?_ fun u emitted second => ?_
    · intro u emitted first
      exact .of_some first (by simp) rfl
    · split_ifs at second
      · exact .of_some second (by simp) rfl
      · exact .andThen second (fun _ _ assembled => assembleBlock_unrecorded assembled)
          fun v _ refilled => .of_result (unrecorded_of_aside refillPipeline_aside) refilled
  refine ⟨rest.silent, ?_⟩
  rw [rest.same, received]
  cases unneeded with
  | true => exact .inl rfl
  | false => exact .inr rfl

theorem incomingBlock_records (downloads : ∀ c, guard c (.download k data.length))
    (run : s.incomingBlock host k p offset data = some (t, effects)) : Records guard s effects t := by
  obtain ⟨silent, same | credited⟩ := incomingBlock_standing run
  · exact .of_unrecorded ⟨silent, same⟩
  · refine .of_move (.download k data.length) silent (fun _ => downloads _) fun told => ?_
    exact congrArg (Page.mk · told) credited

theorem pieceVerified_unrecorded (valid : Bool) :
    Unrecorded s (s.pieceVerified host k p valid data).2 (s.pieceVerified host k p valid data).1 := by
  dsimp only [pieceVerified]
  split_ifs
  · exact ⟨by simp, rfl⟩
  · refine .from_same ?_ (unrecorded_of_aside (assignWork_aside _ host k))
    exact congrArg Prod.snd forgetRequest_outlook
  all_goals exact ⟨by simp, rfl⟩

theorem blockSentToPeer_records (count : ℕ) (uploads : ∀ c, guard c (.upload k count)) :
    Records guard s (s.blockSentToPeer k count).2 (s.blockSentToPeer k count).1 :=
  .of_move (.upload k count) (by simp [blockSentToPeer]) (fun _ => uploads _) fun _ =>
    page_eq (cardsOf_modify fun _ => rfl) rfl rfl rfl rfl rfl

end Data

/-- The clock advances, and with it the book. -/
theorem tick_standing (run : s.tick host dtMs = some (t, effects)) :
    (∀ effect ∈ effects, chokes effect = false) ∧ standing t =
      { standing s with
        now := s.now + dtMs
        book := s.book.maintainPeerReconnectBaselines (s.now + dtMs) } := by
  obtain ⟨now, advanced, run⟩ := bind_eq_some_iff.mp run
  obtain rfl : s.now + dtMs = now := by
    unfold instantAdd at advanced
    split_ifs at advanced
    exact some.inj advanced
  obtain ⟨u, before, after, first, second, rfl⟩ := andThen_eq_some.mp run
  cases first
  generalize ticked : refreshPeerAdmissionGuard _ = u at second
  have announced : Unrecorded u after t := by
    split_ifs at second
    · exact .of_some second (by simp) rfl
    · exact .forEach second fun _ _ _ _ _ round => unrecorded_of_aside (aside_of_idle (announceIfDue_idle round))
  refine ⟨?_, announced.same.trans ?_⟩
  · simp only [singleton_append, mem_cons, forall_eq_or_imp]
    exact ⟨rfl, announced.silent⟩
  · rw [← ticked]
    have cards : cardsOf (s.peers.mapVal fun _ peer =>
        { peer with bytesDownloadedInTick := 0, bytesUploadedInTick := 0 }) = cardsOf s.peers :=
      cardsOf_mapVal_of_unseen fun _ => rfl
    simp only [standing, refreshPeerAdmissionGuard, cards]

theorem tick_records (ticks : ∀ c, guard c .tick) (run : s.tick host dtMs = some (t, effects)) :
    Records guard s effects t := by
  obtain ⟨silent, same⟩ := tick_standing run
  refine .of_move .tick silent (fun _ => ticks _) fun told => ⟨s.now + dtMs, Nat.le_add_right _ _, ?_⟩
  exact congrArg (Page.mk · told) same

theorem rebuildMultiFileInfo_standing (s : TorrentState) : standing s.rebuildMultiFileInfo = standing s := by
  unfold rebuildMultiFileInfo
  split
  · split_ifs <;> rfl
  · rfl

theorem metadataReceived_unrecorded {torrent : Torrent} {length : ℤ}
    (run : s.metadataReceived host torrent length = some (t, effects)) : Unrecorded s effects t := by
  dsimp only [metadataReceived] at run
  split at run
  · exact .of_some run (by simp) rfl
  obtain ⟨pm, -, result⟩ := map_eq_some_iff.mp run
  split at result
  · cases result
    refine ⟨by simp, (rebuildMultiFileInfo_standing _).trans ?_⟩
    exact standing_of_cards (cardsOf_mapVal_of_unseen fun _ => rfl) rfl rfl rfl rfl
  · cases result
    exact ⟨by simp, standing_of_cards (cardsOf_mapVal_of_unseen fun _ => rfl) rfl rfl rfl rfl⟩

theorem adoptValidation_standing (run : s.adoptValidation completed = some t) : standing t = standing s := by
  obtain ⟨pm, -, run⟩ := bind_eq_some_iff.mp run
  obtain ⟨need, -, rfl⟩ := map_eq_some_iff.mp run
  exact standing_of_cards (cardsOf_mapVal_of_unseen fun _ => rfl) rfl rfl rfl rfl

theorem validationComplete_records (rechokes : ∀ c, guard c .rechoke)
    (run : s.validationComplete host completed = some (t, effects)) : Records guard s effects t := by
  unfold validationComplete at run
  split_ifs at run
  · exact .of_unrecorded (.of_some run (by simp) rfl)
  obtain ⟨u, adopted, run⟩ := bind_eq_some_iff.mp run
  refine .from_same (adoptValidation_standing adopted) (.andThen run ?_ fun v _ second => ?_)
  · intro v _ first
    exact .of_aside (.of_result (aside_of_idle (announceValidated_idle completed)) first)
  · refine .andThen second (fun _ _ checked => .of_aside (checkCompletion_aside checked)) fun w _ third => ?_
    exact .andThen third (fun _ _ rechoked => .of_result (recalculateChokes_records _ rechokes) rechoked)
      fun _ _ assigned => .of_aside (assignAll_aside assigned)

theorem expireRecords_standing (run : s.expireRecords = some t) : standing t = standing s := by
  dsimp only [expireRecords] at run
  split at run
  · cases run
  · cases run
    rfl

theorem cleanup_records (queues : ∀ c, guard c .queue) (counts : ∀ c, guard c .count)
    (leaves : ∀ j ∈ Scheduler.releases host s .cleanup, ∀ c, guard c (.leave j))
    (run : s.cleanup host = some (t, effects)) : Records guard s effects t := by
  obtain ⟨u, expired, cleaned⟩ := Scheduler.cleanup_rule (records_disconnecting queues counts)
    (fun j member => removePeer_records (leaves j member)) (fun _ _ rest => .of_aside (cleanupSeeding_aside rest)) run
  exact .from_same (expireRecords_standing expired) cleaned

theorem removePausedPeer_records {round : ℕ} (leaves : ∀ c, guard c (.leave k))
    (run : removePausedPeer host round k s = some (t, effects)) : Records guard s effects t := by
  unfold removePausedPeer at run
  split at run
  · exact .of_unrecorded (.of_some run (by simp) rfl)
  rename_i peer found
  obtain ⟨pm, -, result⟩ := map_eq_some_iff.mp run
  cases result
  refine .of_move (.leave k) (by simp) (fun _ => leaves _) fun told => ?_
  refine ⟨peer, host.showSocketAddr, false, ?_, page_eq mapVal_erase rfl rfl rfl rfl rfl⟩
  change (cardsOf s.peers).lookup k = _
  rw [lookup_cardsOf, found, map_some]

theorem pause_records (counts : ∀ c, guard c .count) (leaves : ∀ j ∈ s.peers.keys, ∀ c, guard c (.leave j))
    (run : s.pause host = some (t, effects)) : Records guard s effects t := by
  obtain ⟨⟨u, disconnects⟩, loop, result⟩ := map_eq_some_iff.mp run
  cases result
  have removed := Records.forEach loop fun _ j _ _ _ member round =>
    removePausedPeer_records (leaves j ((Arrangement.mem_arrange _ _).mp member)) round
  have counted : Records guard u []
      { u with
        numberOfSuccessfullyConnectedPeers := u.peers.keys.length
        bytesDownloadedInInterval := 0
        bytesUploadedInInterval := 0 } := by
    refine .of_move .count (by simp) (fun _ => counts _) fun told => ?_
    exact page_eq rfl rfl rfl (congrArg length keys_mapVal.symm) rfl rfl
  have whole := removed.trans counted
  rw [append_nil] at whole
  intro told
  have silent :
      commandsOf [.emitMetrics u.bytesDownloadedInInterval u.bytesUploadedInInterval, .clearAllUploads] = [] :=
    rfl
  rw [commandsOf_append, silent, nil_append]
  exact whole told

theorem delete_records (wipes : ∀ c, guard c .wipe) : Records guard s (s.delete host).2 (s.delete host).1 := by
  refine .of_move .wipe (fun effect member => ?_) (fun _ => wipes _) fun told => ?_
  · simp only [delete, List.cons_append, List.mem_cons, List.mem_append, List.mem_map, List.not_mem_nil,
      or_false] at member
    rcases member with rfl | ⟨entry, -, rfl⟩ | rfl
    · rfl
    · rfl
    · split_ifs <;> rfl
  · refine ⟨(host.order.arrange 0 s.peers.entries).map (·.2), host.showSocketAddr, ?_, page_eq rfl ?_ rfl rfl rfl rfl⟩
    · change Perm _ ((cardsOf s.peers).entries.map (·.2))
      rw [entries_cardsOf]
      exact ((host.order.arrange_perm 0 s.peers.entries).map _).map card
    · simp only [delete, foldl_map]
      rfl

theorem setUserTorrentConfig_unrecorded (run : s.setUserTorrentConfig host path priorities name = some (t, effects)) :
    Unrecorded s effects t := by
  obtain ⟨pm, -, run⟩ := bind_eq_some_iff.mp run
  refine .andThen run ?_ fun _ _ checked => unrecorded_of_aside (checkCompletion_aside checked)
  intro u emitted first
  have rebuilt := rebuildMultiFileInfo_standing { s.configured path priorities name with pieceManager := pm }
  dsimp only at first
  split_ifs at first
  · exact .of_some first (by simp) rebuilt
  · exact .of_some first (by simp) rebuilt
  · exact .of_some first (by simp) rfl

end TorrentState

open TorrentState Ledger in
theorem update_records (run : update host s a = some (t, effects)) :
    Records (fun _ => Permits host s a) s effects t := by
  have queues : ∀ _ : Page, Permits host s a .queue := fun _ => trivial
  have counts : ∀ _ : Page, Permits host s a .count := fun _ => trivial
  have leaves : ∀ j ∈ Scheduler.releases host s a, ∀ _ : Page, Permits host s a (.leave j) := fun j member _ => member
  by_cases stands : a.standsAside = true
  · exact .of_aside (update_aside stands run)
  cases a with
  | peerPolicyUpdated policy =>
    exact Scheduler.peerPolicyUpdated_rule (records_disconnecting queues counts)
      (fun j member => removePeer_records (leaves j member)) run
  | tick dtMs => exact tick_records (fun _ => ⟨dtMs, rfl⟩) run
  | recalculateChokes seed => exact .of_result (recalculateChokes_records seed fun _ => rfl) run
  | registerPeer k addr => exact registerPeer_records queues counts leaves (fun _ => ⟨addr, rfl⟩) run
  | peerSuccessfullyConnected k => exact (peerSuccessfullyConnected_records counts).of_result run
  | peerDisconnected k force =>
    exact Scheduler.peerDisconnected_rule (records_disconnecting queues counts)
      (fun j member => removePeer_records (leaves j member)) run
  | peerInterested k => exact .of_result (peerInterested_records (fun _ => rfl) fun _ => rfl) run
  | incomingBlock k p offset data => exact incomingBlock_records (fun _ => ⟨p, offset, data, rfl, rfl⟩) run
  | pieceVerified k p valid data =>
    exact .of_unrecorded (.of_result (pieceVerified_unrecorded valid) run)
  | metadataReceived torrent length => exact .of_unrecorded (metadataReceived_unrecorded run)
  | merkleProofReceived k p proof => exact .of_unrecorded (unrecorded_of_verifying (merkleProofReceived_verifying run))
  | validationComplete completed => exact validationComplete_records (fun _ => rfl) run
  | blockSentToPeer k count => exact .of_result (blockSentToPeer_records count fun _ => rfl) run
  | cleanup => exact cleanup_records queues counts leaves run
  | pause | fatalError => exact pause_records counts leaves run
  | delete => exact .of_result (delete_records fun _ => rfl) run
  | setUserTorrentConfig path priorities name => exact .of_unrecorded (setUserTorrentConfig_unrecorded run)
  | setDataAvailability available =>
    refine Records.of_result (.from_same ?_ (recalculateChokes_records 0 fun _ => rfl)) run
    rfl
  | _ => exact absurd rfl stands

end Superseedr
