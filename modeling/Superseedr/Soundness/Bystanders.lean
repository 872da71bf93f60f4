import Superseedr.Soundness.PeerLedger

/-! # Handlers that stand aside

Assigning work and storing a piece are moves of the scheduler, but verification and the ledger do not see them. What is
shown here of such handlers holds of both views.
-/

namespace Superseedr

variable {change : PeerState → PeerState} {j : PeerId} {s t : TorrentState} {effects : List Effect} {host : Host}
  {a : Action}

namespace TorrentState

open EmittingStep Ledger List

variable {u : TorrentState} {k : PeerId} {p : ℕ}

theorem untouched_of_aside (aside : Aside s effects t) : Untouched s effects t where
  silent effect member := (Bool.or_eq_false_iff.mp (aside.silent effect member)).1
  same := congrArg Prod.fst aside.same

theorem unrecorded_of_aside (aside : Aside s effects t) : Unrecorded s effects t where
  silent effect member := (Bool.or_eq_false_iff.mp (aside.silent effect member)).2
  same := congrArg Prod.snd aside.same

theorem unrecorded_of_verifying (verifying : Verifying s effects t) : Unrecorded s effects t where
  silent effect member := (Bool.or_eq_false_iff.mp (verifying.silent effect member)).1
  same := congrArg Prod.fst verifying.same

theorem outlook_of_cards (pipeline : t.pipeline = s.pipeline) (cards : cardsOf t.peers = cardsOf s.peers)
    (book : t.book = s.book) (now : t.now = s.now)
    (counted : t.numberOfSuccessfullyConnectedPeers = s.numberOfSuccessfullyConnectedPeers)
    (leaving : t.pendingDisconnects = s.pendingDisconnects) : outlook t = outlook s :=
  Prod.ext pipeline (standing_of_cards cards book now counted leaving)

theorem card_updateInterest (s : TorrentState) (k : PeerId) (peer : PeerState) :
    card (s.updateInterest k peer).1 = card peer := by
  simp only [updateInterest]
  split_ifs <;> rfl

theorem assignWork_aside (s : TorrentState) (host : Host) (k : PeerId) :
    Aside s (s.assignWork host k).2 (s.assignWork host k).1 := by
  have interest : ∀ peer, ∀ effect ∈ (s.updateInterest k peer).2, effect.matters = false := by
    intro peer effect
    simp only [updateInterest]
    split_ifs <;> simp +contextual
  unfold assignWork
  split_ifs
  · exact ⟨by simp, rfl⟩
  split
  · exact ⟨by simp, rfl⟩
  split
  · exact .refl s
  rename_i peer found
  have shown := card_updateInterest s k peer
  dsimp only
  split_ifs
  · exact ⟨interest peer, outlook_of_cards rfl (cardsOf_restore found shown) rfl rfl rfl rfl⟩
  refine ⟨fun effect member => ?_, outlook_of_cards rfl (cardsOf_restore found shown) rfl rfl rfl rfl⟩
  rcases mem_append.mp member with early | late
  · exact interest peer effect early
  simp only [commitAssignment] at late
  split_ifs at late
  · rw [mem_singleton.mp late]
    rfl
  · cases late

theorem forgetRequest_outlook : outlook (s.forgetRequest k p) = outlook s :=
  outlook_of_cards rfl (cardsOf_modify_of_unseen fun _ => rfl) rfl rfl rfl rfl

/-- Taking a piece off a peer and giving it new work. -/
theorem reassign_aside (run : some ((u.forgetRequest k p).assignWork host k) = some (t, effects))
    (same : outlook u = outlook s) : Aside s effects t := by
  have assigned := assignWork_aside (u.forgetRequest k p) host k
  exact .of_some run assigned.silent ((assigned.same.trans forgetRequest_outlook).trans same)

theorem assignAll_aside (run : s.assignAll host = some (t, effects)) : Aside s effects t :=
  .forEach run fun _ k s _ _ round => .of_result (assignWork_aside s _ k) round

theorem finishDownload_aside : Aside s (s.finishDownload host).2 (s.finishDownload host).1 := by
  refine ⟨fun effect member => ?_, outlook_of_cards rfl (cardsOf_mapVal_of_unseen fun _ => rfl) rfl rfl rfl rfl⟩
  simp only [finishDownload, mem_append, mem_map] at member
  rcases member with ⟨peer, -, rfl⟩ | ⟨url, -, rfl⟩
  · rfl
  · split_ifs <;> rfl

theorem checkCompletion_aside (run : s.checkCompletion host = some (t, effects)) : Aside s effects t := by
  unfold checkCompletion at run
  split_ifs at run
  · exact .of_some run (by simp) rfl
  obtain ⟨complete, -, result⟩ := Option.map_eq_some_iff.mp run
  split_ifs at result
  · exact .of_result finishDownload_aside (congrArg some result)
  · exact .of_some (congrArg some result) (by simp) rfl

theorem refillPipeline_aside : Aside s (s.refillPipeline host k).2 (s.refillPipeline host k).1 := by
  unfold refillPipeline
  split
  · split_ifs
    · exact assignWork_aside s host k
    · exact .refl s
  · exact .refl s

theorem peerBitfieldReceived_aside (bits : Bytes) :
    Aside s (s.peerBitfieldReceived host k bits).2 (s.peerBitfieldReceived host k bits).1 := by
  unfold peerBitfieldReceived
  split
  · exact assignWork_aside s host k
  split_ifs
  · exact ⟨by simp, rfl⟩
  all_goals
    refine .from_same ?_ (assignWork_aside _ host k)
    exact outlook_of_cards rfl (cardsOf_modify_of_unseen fun _ => rfl) rfl rfl rfl rfl

theorem peerChoked_aside (run : s.peerChoked host k = some (t, effects)) : Aside s effects t := by
  unfold peerChoked at run
  split at run
  · exact .of_some run (by simp) rfl
  · exact .of_map run (fun _ => by simp) fun _ =>
      outlook_of_cards rfl (cardsOf_modify_of_unseen fun _ => rfl) rfl rfl rfl rfl

theorem withPeer_aside (unseen : ∀ peer, card (change peer) = card peer) :
    Aside s (s.withPeer k change).2 (s.withPeer k change).1 :=
  ⟨by simp [withPeer], outlook_of_cards rfl (cardsOf_modify_of_unseen unseen) rfl rfl rfl rfl⟩

theorem modify_assignWork_aside (unseen : ∀ peer, card (change peer) = card peer) :
    Aside s ({ s with peers := s.peers.modify k change }.assignWork host k).2
      ({ s with peers := s.peers.modify k change }.assignWork host k).1 := by
  refine .from_same ?_ (assignWork_aside _ host k)
  exact outlook_of_cards rfl (cardsOf_modify_of_unseen unseen) rfl rfl rfl rfl

theorem cancelPiece_aside {round : ℕ} (run : cancelPiece host k p round j s = some (t, effects)) :
    Aside s effects t := by
  unfold cancelPiece at run
  split_ifs at run
  · exact .of_some run (by simp) rfl
  have assigned := assignWork_aside (s.forgetRequest j p) (host.sub round) j
  refine .of_some run (fun effect member => ?_) (assigned.same.trans forgetRequest_outlook)
  rcases mem_append.mp member with told | later
  · split_ifs at told
    · rw [mem_singleton.mp told]
      rfl
    · cases told
  · exact assigned.silent effect later

theorem pieceWrittenToDisk_aside (run : s.pieceWrittenToDisk host k p = some (t, effects)) : Aside s effects t := by
  dsimp only [pieceWrittenToDisk] at run
  split_ifs at run
  · exact .of_some run (by simp) rfl
  · exact reassign_aside run rfl
  obtain ⟨⟨pm, cancel⟩, -, run⟩ := Option.bind_eq_some_iff.mp run
  refine .andThen run (fun _ _ first => reassign_aside first rfl) fun u emitted second => ?_
  refine .andThen second ?_ fun v told third => ?_
  · intro v told cancelled
    exact .forEach cancelled fun _ _ _ _ _ round => cancelPiece_aside round
  · refine .andThen third (fun _ _ announced => .of_some announced (by simp) rfl) fun w more last => ?_
    exact .andThen last (fun _ _ checked => checkCompletion_aside checked)
      fun _ _ assigned => assignAll_aside assigned

theorem pieceWriteFailed_aside (run : s.pieceWriteFailed p = some (t, effects)) : Aside s effects t := by
  unfold pieceWriteFailed at run
  split_ifs at run
  · exact .of_some run (by simp) rfl
  · exact .of_map run (fun _ => by simp) fun _ => rfl

theorem cleanupSeeding_aside (run : (if s.amSeeding then
        EmittingStep.andThen
          (if s.torrentStatus ≠ .done then { s with torrentStatus := .done }.checkCompletion (host.sub 2)
            else some (s, []))
          fun s => s.shedPeers (host.sub 3)
      else some (s, [])) = some (t, effects)) : Aside s effects t := by
  split at run
  · refine .andThen run ?_ fun _ _ shed => aside_of_idle (shedPeers_idle shed)
    intro u _ first
    split at first
    · refine .from_same ?_ (checkCompletion_aside first)
      rfl
    · exact .of_some first (by simp) rfl
  · exact .of_some run (by simp) rfl

end TorrentState

open TorrentState

theorem Ledger.Records.of_aside {guard : Page → Label → Prop} (aside : Aside s effects t) : Records guard s effects t :=
  .of_unrecorded (unrecorded_of_aside aside)

def Action.standsAside : Action → Bool
  | .checkCompletion | .assignWork _ | .peerTransportSelected _ _ | .updatePeerId _ _ | .peerBitfieldReceived _ _
  | .peerChoked _ | .peerUnchoked _ | .peerHavePiece _ _ | .pieceWrittenToDisk _ _ | .pieceWriteFailed _ => true
  | a => a.isIdle

theorem update_aside (stands : a.standsAside = true) (run : update host s a = some (t, effects)) :
    Aside s effects t := by
  cases a with
  | checkCompletion => exact checkCompletion_aside run
  | assignWork k => exact .of_result (assignWork_aside s host k) run
  | peerBitfieldReceived k bits => exact .of_result (peerBitfieldReceived_aside bits) run
  | peerChoked k => exact peerChoked_aside run
  | peerTransportSelected | updatePeerId =>
    refine .of_result (withPeer_aside ?_) run
    exact fun _ => rfl
  | peerUnchoked | peerHavePiece =>
    refine .of_result (modify_assignWork_aside ?_) run
    exact fun _ => rfl
  | pieceWrittenToDisk k p => exact pieceWrittenToDisk_aside run
  | pieceWriteFailed p => exact pieceWriteFailed_aside run
  | _ =>
    refine aside_of_idle (update_idle ?_ run)
    exact stands

end Superseedr
