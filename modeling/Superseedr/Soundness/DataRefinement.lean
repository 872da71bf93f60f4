import Superseedr.Soundness.PeerRefinement
import Superseedr.Soundness.Views

/-! # Blocks, verification and writing as runs of moves

A block that arrives is delivered and assembled; submitting a piece for verification is invisible to
the scheduler. A written piece is completed, its owners are told one by one, and everybody gets new
work. While owners are still to be told, the pairs of owner and piece are owed.
-/

namespace Superseedr

open List Option EmittingStep

variable {bm' bm : BlockManager} {complete : Option Bytes} {addr : BlockAddress} {data : Bytes} {p offset size len : ℕ}
  {unneeded valid : Bool} {other : PeerId} {batch : List BlockRequest} {owed : Set (PeerId × ℕ)}
  {rest cancel : List PeerId} {pm' : PieceManager} {u : TorrentState} {emitted : List Effect}

theorem BlockManager.handleV1BlockBuffering_geometry
    (run : bm.handleV1BlockBuffering addr data = some (bm', complete)) : Scheduler.SameGeometry bm bm' := by
  simp only [handleV1BlockBuffering] at run
  split_ifs at run with full
  · cases run
    exact ⟨rfl, rfl, rfl⟩
  obtain ⟨filled, -, stored⟩ := bind_eq_some_iff.mp run
  split_ifs at stored
  all_goals
    cases stored
    exact ⟨rfl, rfl, rfl⟩

namespace PieceManager

/-- The geometry in which a block is handled: without one, it is estimated from the piece. -/
def fitted (pm : PieceManager) (p size : ℕ) : PieceManager :=
  if pm.blockManager.pieceLength = 0 then pm.setGeometry (u32 size) (u64 ((p + 1) * size)) (fun _ => none) false
  else pm

theorem handleBlock_eq (pm : PieceManager) (p offset : ℕ) (data : Bytes) (size : ℕ) :
    pm.handleBlock p offset data size =
      if satAdd32 offset (u32 data.length) > (pm.fitted p size).blockManager.calculatePieceSize p then
        some (pm.fitted p size, none)
      else ((pm.fitted p size).blockManager.handleV1BlockBuffering ⟨p, offset / blockSize, offset,
        p * (pm.fitted p size).blockManager.pieceLength + offset, u32 data.length⟩ data).map
          fun next => ({ pm.fitted p size with blockManager := next.1 }, next.2) := by
  unfold fitted
  simp only [handleBlock]
  generalize (if pm.blockManager.pieceLength = 0 then _ else _) = fitted
  unfold BlockManager.inflateAddressFromOverlay
  split_ifs
  · rfl
  · rw [map_eq_bind]
    rfl

theorem handleBlock_cases {pm : PieceManager} (run : pm.handleBlock p offset data size = some (pm', complete)) :
    ∃ bm', pm' = { pm with blockManager := bm' } ∧
      (Scheduler.SameGeometry pm.blockManager bm' ∨
        (pm.blockManager.pieceLength = 0 ∧
          Scheduler.SameGeometry
            (pm.blockManager.setGeometry (u32 size) (u64 ((p + 1) * size)) (fun _ => none) false) bm')) := by
  have buffered : ∃ bm', pm' = { pm.fitted p size with blockManager := bm' } ∧
      Scheduler.SameGeometry (pm.fitted p size).blockManager bm' := by
    rw [handleBlock_eq] at run
    split_ifs at run
    · cases run
      exact ⟨_, rfl, rfl, rfl, rfl⟩
    · obtain ⟨⟨bm', whole⟩, buffering, result⟩ := map_eq_some_iff.mp run
      cases result
      exact ⟨bm', rfl, BlockManager.handleV1BlockBuffering_geometry buffering⟩
  obtain ⟨bm', rfl, same⟩ := buffered
  unfold fitted at same ⊢
  split_ifs at same ⊢ with unsized
  · exact ⟨bm', rfl, .inr ⟨unsized, same⟩⟩
  · exact ⟨bm', rfl, .inl same⟩

end PieceManager

namespace Scheduler

open TorrentState

variable {host : Host} {s t : TorrentState} {effects : List Effect} {guard : Core → Label → Prop} {k : PeerId}

theorem view_finished (peer : PeerState) :
    view { peer with
      pendingRequests := ∅
      activeBlocks := ∅
      inflightRequests := 0
      amInterested := false } =
      { view peer with
        asks := ∅
        inflight := 0
        active := ∅ } := by
  simp only [view]
  congr 1
  ext q
  simp [AList.notMem_empty]

theorem requestsOf_map_of_silent {α : Type} {f : α → Effect} {l : List α} (silent : ∀ x, requestsOf [f x] = []) :
    requestsOf (l.map f) = [] := by
  rw [requestsOf, flatMap_map]
  refine flatMap_eq_nil_iff.mpr fun x _ => ?_
  simpa [requestsOf] using silent x

theorem checkCompletion_simulates (finishes : ∀ c, guard c .finish) (run : s.checkCompletion host = some (t, effects)) :
    Simulates guard s effects t := by
  unfold checkCompletion at run
  split_ifs at run with beyond
  · exact .of_result (.of_unseen rfl fun _ _ => rfl) run
  obtain ⟨complete, checked, result⟩ := map_eq_some_iff.mp run
  split_ifs at result with finished
  · simp only [finishDownload] at result
    cases result
    refine .of_move .finish ?_ (fun _ => finishes _) fun sent => ?_
    · rw [requestsOf_append, requestsOf_map_of_silent fun _ => rfl, requestsOf_map_of_silent, append_nil]
      intro url
      split_ifs <;> rfl
    simp only [Bool.and_eq_true, decide_eq_true_eq] at finished
    have downloading : s.torrentStatus = .standard ∨ s.torrentStatus = .endgame := by
      cases status : s.torrentStatus <;> simp_all
    have peers := peersView_mapVal s.peers _
      (fun seen => { seen with asks := ∅, inflight := 0, active := ∅ }) view_finished
    have moved : Move .finish (abs s sent ∅) _ := .finish downloading (finished.1 ▸ checked)
    simpa only [abs, Core.adjustAll, peers] using moved
  · cases result
    exact .of_unseen rfl fun _ _ => rfl

theorem receiveBlock_move (p offset len : ℕ) (unneeded : Bool) (sent : List (PeerId × BlockRequest)) :
    Move (.deliver k (p, offset, u32 len)) (abs s sent ∅) (abs (s.receiveBlock k p offset len unneeded) sent ∅) := by
  have moved : Move (.deliver k (p, offset, u32 len)) (abs s sent ∅) _ := .deliver
  simp only [abs, receiveBlock]
  rw [peersView_modify _ _ _ (fun seen =>
    { seen with inflight := seen.inflight - 1, active := seen.active.erase (p, offset, u32 len) }) fun _ => rfl]
  exact moved

theorem receiveBlock_simulates (delivers : ∀ c, guard c (.deliver k (p, offset, u32 len))) :
    Simulates guard s [] (s.receiveBlock k p offset len unneeded) :=
  .of_move (.deliver k (p, offset, u32 len)) rfl (fun _ => delivers _) (receiveBlock_move p offset len unneeded)

theorem assembleBlock_simulates (inside : p < s.pieceManager.bitfield.length) (assembles : ∀ c, guard c .assemble)
    (run : s.assembleBlock k p offset data = some (t, effects)) : Simulates guard s effects t := by
  obtain ⟨⟨pm', complete⟩, handled, run⟩ := bind_eq_some_iff.mp run
  obtain ⟨bm', rfl, geometry⟩ := PieceManager.handleBlock_cases handled
  have assembled : Simulates guard s []
      { s with
        lastActivity := .downloadingPiece p
        pieceManager := { s.pieceManager with blockManager := bm' } } := by
    refine .of_move .assemble rfl (fun _ => assembles _) fun sent => ?_
    refine Move.assemble (c := abs s sent ∅) ?_
    rcases geometry with same | ⟨unsized, estimated⟩
    · exact .inl same
    · exact .inr ⟨p, inside, unsized, estimated⟩
  cases complete with
  | none =>
    cases run
    exact assembled
  | some piece =>
    have submitted : Simulates guard _ effects t := .of_verifying (submitPiece_verifying run)
    refine assembled.trans (.after_unseen ?_ submitted)
    exact fun _ _ => rfl

theorem refillPipeline_simulates (host : Host) (employs : Employs guard k) :
    Simulates guard s (s.refillPipeline host k).2 (s.refillPipeline host k).1 := by
  unfold refillPipeline
  cases s.peers.lookup k with
  | none => exact .refl s
  | some peer =>
    dsimp only
    split_ifs
    · exact assignWork_simulates host employs
    · exact .refl s

section

variable (run : s.incomingBlock host k p offset data = some (t, effects))
include run

theorem incomingBlock_received (inside : p < s.pieceManager.bitfield.length) (assembles : ∀ c, guard c .assemble)
    (employs : Employs guard k) :
    ∃ unneeded, Simulates guard (s.receiveBlock k p offset data.length unneeded) effects t := by
  rw [incomingBlock, if_neg (not_le.mpr inside)] at run
  obtain ⟨u, before, after, received, rest, rfl⟩ := andThen_eq_some.mp run
  cases received
  refine ⟨s.pieceManager.bitfield[p]? = some .done || p ∈ s.writingPieces, ?_⟩
  suffices later : Simulates guard _ after t from later.with_effects rfl
  split_ifs at rest with unneeded
  · exact .of_result (.refl _) rest
  refine .andThen rest ?_ ?_
  · intro v emitted assembled
    exact assembleBlock_simulates inside assembles assembled
  · rintro v emitted - refilled
    simp only [some.injEq] at refilled
    have refill := refillPipeline_simulates (s := v) host employs
    rwa [refilled] at refill

theorem incomingBlock_outside (outside : s.pieceManager.bitfield.length ≤ p) : Simulates guard s effects t := by
  rw [incomingBlock, if_pos outside] at run
  exact .of_result (.of_unseen rfl fun _ _ => rfl) run

theorem incomingBlock_simulates (delivers : ∀ c, guard c (.deliver k (p, offset, u32 data.length)))
    (assembles : ∀ c, guard c .assemble) (employs : Employs guard k) : Simulates guard s effects t := by
  rcases le_or_gt s.pieceManager.bitfield.length p with outside | inside
  · exact incomingBlock_outside run outside
  · obtain ⟨unneeded, rest⟩ := incomingBlock_received run inside assembles employs
    exact ((receiveBlock_simulates delivers).trans rest).with_effects rfl

end

theorem peersView_forgetRequest :
    peersView (s.forgetRequest k p).peers =
      Function.update (peersView s.peers) k
        ((peersView s.peers k).map fun seen => { seen with asks := seen.asks \ {p} }) := by
  refine peersView_modify _ _ _ _ fun peer => ?_
  simp only [view]
  congr 1
  ext q
  simp only [Set.mem_sdiff, Set.mem_ofPred_eq, Set.mem_singleton_iff, AList.mem_erase]
  exact and_comm

theorem forgetRequest_move (s : TorrentState) (k : PeerId) (p : ℕ) (sent : List (PeerId × BlockRequest))
    (owed : Set (PeerId × ℕ)) :
    Move (.forget k p) (abs s sent owed) (abs (s.forgetRequest k p) sent (owed \ {(k, p)})) := by
  have moved : Move (.forget k p) (abs s sent owed) _ := .forget
  simp only [abs, Core.unask, Core.adjust] at moved
  simp only [abs, peersView_forgetRequest]
  exact moved

theorem forgetRequest_simulates (forgets : ∀ sent, guard (abs s sent ∅) (.forget k p)) :
    Simulates guard s [] (s.forgetRequest k p) := by
  refine .of_move (.forget k p) rfl forgets fun sent => ?_
  have moved := forgetRequest_move s k p sent ∅
  rwa [Set.empty_sdiff] at moved

theorem pieceVerified_simulates
    (forgets : valid = true → ∀ c, c.pm.bitfield[p]? = some .done ∨ (AtStart s c ∧ p ∈ s.writingPieces) →
      guard c (.forget k p)) (assembles : valid = false → ∀ c, guard c .assemble) (employs : Employs guard k) :
    Simulates guard s (s.pieceVerified host k p valid data).2 (s.pieceVerified host k p valid data).1 := by
  dsimp only [pieceVerified]
  split_ifs with outside accepted redundant
  · exact .of_unseen rfl fun _ _ => rfl
  · refine .after_unseen (t := { s with
        verifyingPieces := s.verifyingPieces.erase p
        v2Proofs := Function.update s.v2Proofs p none
        v2PendingData := s.v2PendingData.erase p }) (fun _ _ => rfl) ?_
    refine .trans (forgetRequest_simulates fun sent => forgets accepted _ ?_)
      (assignWork_simulates host employs)
    exact redundant.imp id fun writing => ⟨⟨rfl, rfl, rfl⟩, writing⟩
  · exact .of_unseen rfl fun _ _ => rfl
  · exact .of_unseen rfl fun _ _ => rfl
  · refine .of_move .assemble rfl (fun _ => assembles (Bool.eq_false_iff.mpr accepted) _) fun sent => ?_
    exact .assemble (c := abs s sent ∅) (.inl ⟨rfl, rfl, rfl⟩)

def stillOwed (p : ℕ) (k : PeerId) (rest : List PeerId) : Set (PeerId × ℕ) :=
  {pair | pair.1 ∈ rest ∧ pair.1 ≠ k ∧ pair.2 = p}

theorem requestsOf_cancel (told : Prop) [Decidable told] :
    requestsOf (if told then [.sendToPeer other (.bulkCancel batch)] else []) = [] := by
  split_ifs <;> rfl

theorem cancelPiece_steps {round : ℕ} (forgets : Forgets guard) (employs : ∀ k, Employs guard k)
    (done : s.pieceManager.bitfield[p]? = some .done) (within : owed ⊆ stillOwed p k rest)
    (run : forEachFrom (cancelPiece host k p) round rest s = some (t, effects)) (sent : List (PeerId × BlockRequest)) :
    Steps Move guard (abs s sent owed) (abs t (sent ++ requestsOf effects) ∅) := by
  induction rest generalizing s round effects sent owed with
  | nil =>
    simp only [forEachFrom_nil] at run
    cases run
    have nothing : owed = ∅ := by
      refine Set.subset_empty_iff.mp fun pair member => ?_
      simpa [stillOwed] using within member
    exact .refl_of_eq (by simp [nothing])
  | cons other rest ih =>
    obtain ⟨mid, before, after, first, others, rfl⟩ := andThen_eq_some.mp run
    unfold cancelPiece at first
    split_ifs at first with self
    · cases first
      refine ih done (fun pair member => ?_) others sent
      obtain ⟨among, differ, piece⟩ := within member
      rcases mem_cons.mp among with same | later
      · exact absurd (same.trans self) differ
      · exact ⟨later, differ, piece⟩
    cases first
    have forgotten := Steps.single (forgets other _ p done) (forgetRequest_move s other p sent owed)
    have assigned := assignWork_steps (s := s.forgetRequest other p) (host.sub round)
      (employs other) sent (owed \ {(other, p)})
    have fewer : owed \ {(other, p)} ⊆ stillOwed p k rest := by
      rintro pair ⟨owes, elsewhere⟩
      obtain ⟨among, differ, piece⟩ := within owes
      rcases mem_cons.mp among with same | later
      · exact absurd (Prod.ext same piece) elsewhere
      · exact ⟨later, differ, piece⟩
    have stillDone := congrArg (·[p]?) (bitfield_assignWork (s.forgetRequest other p) (host.sub round) other)
    have later := ih (stillDone.trans done) fewer others
      (sent ++ requestsOf ((s.forgetRequest other p).assignWork (host.sub round) other).2)
    rw [requestsOf_append, requestsOf_append, requestsOf_cancel, nil_append, ← append_assoc]
    exact forgotten.trans (assigned.trans later)

theorem assignAll_simulates (employs : ∀ k, Employs guard k) (run : s.assignAll host = some (t, effects)) :
    Simulates guard s effects t := by
  refine .forEach run fun i k s t effects _ round => ?_
  simp only [some.injEq] at round
  have assigned := assignWork_simulates (s := s) ((host.sub 1).sub i) (employs k)
  rwa [round] at assigned

theorem completePiece_simulates (running : s.torrentStatus ≠ .validating ∧ s.torrentStatus ≠ .awaitingMetadata)
    (completes : ∀ c, guard c (.complete p)) (forgets : Forgets guard) (employs : ∀ k, Employs guard k)
    (missing : s.pieceManager.Missing p) (marked : s.pieceManager.markAsComplete p = some (pm', cancel))
    (given : ({ s with pieceManager := pm' }.forgetRequest k p).assignWork (host.sub 0) k = (u, emitted))
    (told : forEach cancel (cancelPiece (host.sub 1) k p) u = some (t, effects)) :
    Simulates guard s (emitted ++ effects) t := by
  intro sent
  have done : pm'.bitfield[p]? = some .done := by
    have completed := missing.completed marked
    rw [completed.bitfield, getElem?_set_self missing.lt_length]
  have completed := Steps.single (completes _)
    (Move.complete (c := abs s sent ∅) running missing marked)
  have forgotten := Steps.single (forgets k _ p done) (forgetRequest_move { s with pieceManager := pm' } k p sent
    (∅ ∪ {pair | pair.1 ∈ cancel ∧ pair.2 = p}))
  have assigned := assignWork_steps (s := { s with pieceManager := pm' }.forgetRequest k p) (host.sub 0)
    (employs k) sent ((∅ ∪ {pair | pair.1 ∈ cancel ∧ pair.2 = p}) \ {(k, p)})
  have within : (∅ ∪ {pair | pair.1 ∈ cancel ∧ pair.2 = p}) \ {(k, p)} ⊆ stillOwed p k cancel := by
    rintro pair ⟨nothing | ⟨among, piece⟩, elsewhere⟩
    · exact nothing.elim
    · exact ⟨among, fun same => elsewhere (Prod.ext same piece), piece⟩
  have stillDone := congrArg (·[p]?)
    (bitfield_assignWork ({ s with pieceManager := pm' }.forgetRequest k p) (host.sub 0) k)
  rw [given] at assigned stillDone
  have cancelled := cancelPiece_steps forgets employs (stillDone.trans done) within told
    (sent ++ requestsOf emitted)
  rw [requestsOf_append, ← append_assoc]
  exact completed.trans (forgotten.trans (assigned.trans cancelled))

theorem pieceWrittenToDisk_simulates (completes : ∀ c, guard c (.complete p)) (forgets : Forgets guard)
    (finishes : ∀ c, guard c .finish) (employs : ∀ k, Employs guard k)
    (run : s.pieceWrittenToDisk host k p = some (t, effects)) : Simulates guard s effects t := by
  dsimp only [pieceWrittenToDisk] at run
  split_ifs at run with refused done
  · exact .of_result (.of_unseen rfl fun _ _ => rfl) run
  · refine .after_unseen (t := { s with writingPieces := s.writingPieces.erase p }) (fun _ _ => rfl) ?_
    have assigned := assignWork_simulates
      (s := { s with writingPieces := s.writingPieces.erase p }.forgetRequest k p) host (employs k)
    simp only [some.injEq] at run
    rw [run] at assigned
    exact .trans (forgetRequest_simulates fun sent => forgets k _ p done) assigned
  simp only [not_or, not_le] at refused
  obtain ⟨inside, running⟩ := refused
  obtain ⟨⟨pm', cancel⟩, marked, run⟩ := bind_eq_some_iff.mp run
  obtain ⟨u, given, afterWork, assigned, telling, rfl⟩ := andThen_eq_some.mp run
  obtain ⟨v, told, afterTold, cancelled, announcing, rfl⟩ := andThen_eq_some.mp telling
  obtain ⟨w, broadcast, afterHave, announced, checking, rfl⟩ := andThen_eq_some.mp announcing
  obtain ⟨x, checked, last, completion, assigning, rfl⟩ := andThen_eq_some.mp checking
  simp only [some.injEq, Prod.mk.injEq] at assigned announced
  obtain ⟨rfl, rfl⟩ := announced
  have missing : s.pieceManager.Missing p := PieceManager.missing_of_not_done inside done
  have completed := completePiece_simulates (s := { s with writingPieces := s.writingPieces.erase p })
    running completes forgets employs missing marked assigned cancelled
  have finished := (checkCompletion_simulates finishes completion).trans
    (assignAll_simulates employs assigning)
  rw [← append_assoc]
  exact .after_unseen (fun _ _ => rfl) (completed.trans (finished.with_effects rfl))

theorem pieceWriteFailed_simulates (requeues : ∀ c, AtStart s c → guard c (.requeue p))
    (run : s.pieceWriteFailed p = some (t, effects)) : Simulates guard s effects t := by
  unfold pieceWriteFailed at run
  split_ifs at run with outside
  · exact .of_result (.of_unseen rfl fun _ _ => rfl) run
  obtain ⟨pm', requeued, result⟩ := map_eq_some_iff.mp run
  cases result
  refine .of_move (.requeue p) rfl (fun sent => requeues _ ⟨rfl, rfl, rfl⟩) fun sent => ?_
  exact .requeue (c := abs s sent ∅) (not_le.mp outside) requeued

end Scheduler

end Superseedr
