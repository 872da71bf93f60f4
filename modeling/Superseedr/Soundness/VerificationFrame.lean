import Superseedr.Soundness.Bystanders

/-! # Which handlers touch verification

The pieces being verified, the data kept for want of a hash and the proofs received are changed by few
handlers, and only the arrival of a block or of a proof submits a piece or asks for a hash. Every other
handler leaves all of this alone. The user's settings and the file layout that follows from them change
only with metadata and with the user's configuration.
-/

namespace Superseedr

open List Option

namespace TorrentState

open EmittingStep

variable {addr : Option SocketAddr} {dtMs : ℕ} {host : Host} {s t : TorrentState} {effects : List Effect} {k : PeerId}
  {p : ℕ} {data : Bytes}

theorem recalculateChokes_untouched (s : TorrentState) (host : Host) (seed : ℕ) :
    Untouched s (s.recalculateChokes host seed).2 (s.recalculateChokes host seed).1 := by
  refine ⟨fun effect member => ?_, rfl⟩
  simp only [recalculateChokes] at member
  split_ifs at member
  · rw [mem_singleton.mp member]
    rfl
  obtain ⟨peer, -, told⟩ := mem_flatMap.mp member
  simp only [rechoke] at told
  split_ifs at told
  all_goals simp_all

theorem removePeer_untouched (k : PeerId) : Scheduler.Removes Untouched k := by
  intro host round s t effects run
  unfold removePeer at run
  split at run
  · exact .of_some run (by simp) rfl
  · exact .of_map run (fun _ => by simp) fun _ => rfl

theorem untouched_disconnecting : Scheduler.Disconnecting Untouched where
  idle := .refl
  compose := .trans
  wait _ := ⟨by simp, rfl⟩
  collect _ _ _ _ := ⟨by simp, rfl⟩
  count _ := ⟨by simp, rfl⟩

theorem registerPeer_untouched (run : s.registerPeer host k addr = some (t, effects)) : Untouched s effects t := by
  obtain ⟨u, before, after, flushed, rfl, outcome⟩ :=
    Scheduler.registerPeer_rule untouched_disconnecting (fun j _ => removePeer_untouched j) run
  rcases outcome with ⟨rfl, rfl⟩ | ⟨-, rfl, rfl⟩
  · exact flushed.trans ⟨by simp, rfl⟩
  · exact flushed.trans ⟨by simp, rfl⟩

theorem peerInterested_untouched (s : TorrentState) (k : PeerId) :
    Untouched s (s.peerInterested k).2 (s.peerInterested k).1 := by
  dsimp only [peerInterested]
  split
  · exact ⟨by simp, rfl⟩
  · split_ifs <;> exact ⟨by simp, rfl⟩

theorem tick_untouched (run : s.tick host dtMs = some (t, effects)) : Untouched s effects t := by
  obtain ⟨now, -, run⟩ := bind_eq_some_iff.mp run
  refine .andThen run ?_ ?_
  · intro u emitted first
    exact .of_some first (by simp) rfl
  · intro u emitted second
    split_ifs at second
    · exact .of_some second (by simp) rfl
    · exact .forEach second fun _ _ _ _ _ round => untouched_of_aside (aside_of_idle (announceIfDue_idle round))

/-- The settings are changed at most by making the layout known, and the persisted flag is kept. -/
structure Reconfigured (s t : TorrentState) : Prop where
  validated : t.torrentValidationStatus = s.torrentValidationStatus
  layout : ∀ layout, s.multiFileInfo = some layout → t.multiFileInfo = some layout

theorem Reconfigured.of_settings (same : t.settings = s.settings) : Reconfigured s t where
  validated := congrArg PipelineSettings.validated same
  layout _ known := (congrArg PipelineSettings.layout same).trans known

theorem rebuildMultiFileInfo_pipeline (s : TorrentState) :
    s.rebuildMultiFileInfo.pipeline = { s.pipeline with settings := s.rebuildMultiFileInfo.settings } := by
  unfold rebuildMultiFileInfo
  split
  · split_ifs <;> rfl
  · rfl

theorem validated_rebuildMultiFileInfo (s : TorrentState) :
    s.rebuildMultiFileInfo.torrentValidationStatus = s.torrentValidationStatus := by
  unfold rebuildMultiFileInfo
  split
  · split_ifs <;> rfl
  · rfl

theorem setUserTorrentConfig_pipeline {path : String} {priorities : AList fun _ : ℕ => FilePriority}
    {name : Option String} (run : s.setUserTorrentConfig host path priorities name = some (t, effects)) :
    (∀ effect ∈ effects, effect.verifies = false) ∧ t.pipeline = { s.pipeline with settings := t.settings } ∧
      Reconfigured s t := by
  obtain ⟨pm, -, run⟩ := bind_eq_some_iff.mp run
  obtain ⟨u, before, after, first, second, rfl⟩ := andThen_eq_some.mp run
  have checked := untouched_of_aside (checkCompletion_aside second)
  have settings : t.settings = u.settings := congrArg Pipeline.settings checked.same
  have begun : (∀ effect ∈ before, effect.verifies = false) ∧
      u.pipeline = { s.pipeline with settings := u.settings } ∧ Reconfigured s u := by
    have rebuilt := rebuildMultiFileInfo_pipeline { s.configured path priorities name with pieceManager := pm }
    have validated := validated_rebuildMultiFileInfo { s.configured path priorities name with pieceManager := pm }
    dsimp only at first
    split_ifs at first with starts known
    · cases first
      exact ⟨by simp, rebuilt, validated, fun _ isKnown => by simp [configured, isKnown] at starts⟩
    · cases first
      exact ⟨by simp, rebuilt, validated, fun _ isKnown => by simp [configured, isKnown] at starts⟩
    · cases first
      exact ⟨by simp, rfl, rfl, fun _ isKnown => isKnown⟩
  refine ⟨forall_mem_append.mpr ⟨begun.1, checked.silent⟩, ?_, ?_⟩
  · rw [checked.same, begun.2.1, settings]
  · have later := Reconfigured.of_settings settings
    exact ⟨later.validated.trans begun.2.2.validated, fun layout known =>
      later.layout layout (begun.2.2.layout layout known)⟩

theorem removePausedPeer_untouched {round : ℕ} (run : removePausedPeer host round k s = some (t, effects)) :
    Untouched s effects t := by
  unfold removePausedPeer at run
  split at run
  · exact .of_some run (by simp) rfl
  · exact .of_map run (fun _ => by simp) fun _ => rfl

theorem pause_untouched (run : s.pause host = some (t, effects)) : Untouched s effects t := by
  obtain ⟨⟨u, disconnects⟩, loop, result⟩ := map_eq_some_iff.mp run
  have removed := Frame.forEach loop fun _ _ _ _ _ round => removePausedPeer_untouched round
  exact .of_some (congrArg some result) (forall_mem_append.mpr ⟨by simp, removed.silent⟩) removed.same

inductive Completes (s : TorrentState) (k : PeerId) (p offset : ℕ) (data : Bytes) (t : TorrentState)
    (effects : List Effect) : Prop where
  | intro {piece pm submitted buffered} (inside : p < s.pieceManager.bitfield.length)
      (notDone : s.pieceManager.bitfield[p]? ≠ some .done)
      (handled : s.pieceManager.handleBlock p offset data (s.getPieceSize p) = some (pm, some piece))
      (after : t.pipeline = { s.pipeline with verifying := insert p s.verifyingPieces, buffered })
      (submits : Submits s k p offset piece buffered submitted)
      (sent : effects.filter Effect.verifies = submitted.filter Effect.verifies)

theorem incomingBlock_submits {offset : ℕ} (run : s.incomingBlock host k p offset data = some (t, effects)) :
    Untouched s effects t ∨ Completes s k p offset data t effects := by
  rcases le_or_gt s.pieceManager.bitfield.length p with outside | inside
  · rw [incomingBlock, if_pos outside] at run
    exact .inl (.of_some run (by simp) rfl)
  rw [incomingBlock, if_neg (not_le.mpr inside)] at run
  obtain ⟨u, before, after, received, rest, rfl⟩ := andThen_eq_some.mp run
  cases received
  split_ifs at rest with unneeded
  · cases rest
    exact .inl ⟨by simp, rfl⟩
  obtain ⟨v, assembled, refilled, first, second, rfl⟩ := andThen_eq_some.mp rest
  have refill : Untouched v refilled t := untouched_of_aside (.of_result refillPipeline_aside second)
  have quiet : ∀ effects : List Effect, (∀ effect ∈ effects, effect.verifies = false) →
      effects.filter Effect.verifies = [] := by
    intro effects silent
    rw [filter_eq_nil_iff]
    exact fun effect member => ne_true_of_eq_false (silent effect member)
  obtain ⟨⟨pm, complete⟩, handled, first⟩ := bind_eq_some_iff.mp first
  cases complete with
  | none =>
    cases first
    refine .inl ⟨fun effect member => ?_, refill.same⟩
    simp only [singleton_append, nil_append, mem_cons] at member
    rcases member with rfl | later
    · rfl
    · exact refill.silent effect later
  | some piece =>
    have notDone : s.pieceManager.bitfield[p]? ≠ some .done := by
      intro done
      simp [done] at unneeded
    obtain ⟨buffered, activity, rfl, submits⟩ := submitPiece_submits first
    -- The state that submits the piece has the metadata and the proofs of the state before.
    have moved : Submits s k p offset piece buffered assembled := by
      cases submits with
      | bySha1 => exact .bySha1
      | byMerkleRoot mapped matching params source => exact .byMerkleRoot mapped matching params source
      | afterHash mapped matching unknown => exact .afterHash mapped matching unknown
    refine .inr (.intro inside notDone handled refill.same moved ?_)
    rw [filter_append, filter_append, quiet refilled refill.silent, append_nil]
    rfl

/-- The submission that follows a proof: against a hash of the metadata or the proof itself when it is a single
hash, and along the proof otherwise. -/
structure SubmitsProof (s : TorrentState) (k : PeerId) (p : ℕ) (proof : Bytes) (offset : ℕ) (data : Bytes)
    (effect : Effect) : Prop where
  submitted : ∃ roots root pieceLen validLength relative contextLen known,
    s.pieceToRoots p = some roots ∧ pieceLen = (s.torrent.map (·.pieceLen)).getD 65536 ∧ pieceLen ≠ 0 ∧
      matchingRootInfo roots (u64 (u64 (p * pieceLen) + offset)) = some root ∧
      s.calculateV2VerifyParams p data.length = some (validLength, relative, contextLen) ∧
      s.localLayerHash (u32 ((u64 (u64 (p * pieceLen) + offset) - root.fileOffset) / pieceLen)) root = some known ∧
      effect = .verifyPieceV2 k p (if proof.length = 32 then [] else proof) data
        (if proof.length = 32 then known.getD proof else root.rootHash) root.fileOffset validLength
        (u32 ((u64 (u64 (p * pieceLen) + offset) - root.fileOffset) / pieceLen)) contextLen

inductive Answers (s : TorrentState) (k : PeerId) (p : ℕ) (proof : Bytes) (t : TorrentState) (effects : List Effect) :
    Prop where
  | intro {offset : ℕ} {data : Bytes} (pending : s.v2PendingData.lookup p = some (offset, data))
      (after : t.pipeline = { s.pipeline with buffered := s.v2PendingData.erase p })
      (sent : effects = [.doNothing] ∧ (∀ roots, s.pieceToRoots p = some roots →
          matchingRootInfo roots (u64 (u64 (p * (s.torrent.map (·.pieceLen)).getD 65536) + offset)) = none) ∨
        ∃ effect, effects = [effect] ∧ SubmitsProof s k p proof offset data effect)

theorem merkleProofReceived_submits {proof : Bytes} (run : s.merkleProofReceived k p proof = some (t, effects)) :
    (Untouched s effects t ∧ (s.pieceManager.bitfield[p]? = some .done ∨ s.v2PendingData.lookup p = none)) ∨
      Answers s k p proof t effects := by
  unfold merkleProofReceived at run
  by_cases done : s.pieceManager.bitfield[p]? = some .done
  · rw [if_pos done] at run
    exact .inl ⟨.of_some run (by simp) rfl, .inl done⟩
  rw [if_neg done] at run
  cases found : s.v2PendingData.lookup p with
  | none =>
    simp only [found] at run
    exact .inl ⟨.of_some run (by simp) rfl, .inr rfl⟩
  | some kept =>
    obtain ⟨offset, data⟩ := kept
    simp only [found] at run
    right
    obtain ⟨pieceLen, isPieceLen⟩ : ∃ n, n = (s.torrent.map (·.pieceLen)).getD 65536 := ⟨_, rfl⟩
    rw [← isPieceLen] at run
    cases matched : (s.pieceToRoots p).bind fun roots =>
        matchingRootInfo roots (u64 (u64 (p * pieceLen) + offset)) with
    | none =>
      simp only [matched] at run
      cases run
      refine .intro found rfl (.inl ⟨rfl, fun roots mapped => ?_⟩)
      rwa [mapped, bind_some, isPieceLen] at matched
    | some root =>
      obtain ⟨roots, mapped, matching⟩ := bind_eq_some_iff.mp matched
      simp only [matched, bind_eq_some_iff] at run
      obtain ⟨⟨validLength, relative, contextLen⟩, params, run⟩ := run
      by_cases unsized : pieceLen = 0
      · rw [if_pos unsized] at run
        cases run
      rw [if_neg unsized] at run
      obtain ⟨known, localHash, run⟩ := map_eq_some_iff.mp run
      cases run
      refine .intro found rfl (.inr ⟨_, rfl, ⟨roots, root, pieceLen, validLength, relative, contextLen, known, mapped,
        isPieceLen, unsized, matching, params, localHash, ?_⟩⟩)
      split_ifs <;> rfl

def Ignored (s : TorrentState) : Action → Prop
  | .pieceVerified _ p _ _ => s.pieceManager.bitfield.length ≤ p
  | .merkleProofReceived _ p _ => s.pieceManager.bitfield[p]? = some .done ∨ s.v2PendingData.lookup p = none
  | .delete => False
  | _ => True

inductive Verification (s : TorrentState) : Action → TorrentState → List Effect → Prop where
  | untouched {a t effects} (ignored : Ignored s a) (untouched : Untouched s effects t) : Verification s a t effects
  | block {k p offset data t effects} (completes : Completes s k p offset data t effects) :
      Verification s (.incomingBlock k p offset data) t effects
  | proof {k p proof t effects} (answers : Answers s k p proof t effects) :
      Verification s (.merkleProofReceived k p proof) t effects
  /-- A verdict is in. -/
  | verdict {k p valid data t effects} (stored : ∀ effect ∈ effects, effect.verifies = true →
        valid = true ∧ effect = .writeToDisk k p data)
      (after : t.pipeline =
        ⟨s.verifyingPieces.erase p, s.v2PendingData.erase p, Function.update s.v2Proofs p none, s.settings⟩) :
      Verification s (.pieceVerified k p valid data) t effects
  /-- Verification starts again. -/
  | reset {a t effects buffered proofs} (silent : ∀ effect ∈ effects, effect.verifies = false)
      (after : t.pipeline = ⟨∅, buffered, proofs, t.settings⟩)
      (data : buffered = s.v2PendingData ∨ buffered = ∅) (known : proofs = s.v2Proofs ∨ proofs = fun _ => none)
      (settings : Reconfigured s t ∨ ((∃ torrent length, a = .metadataReceived torrent length) ∧ s.torrent = none ∧
        t.torrentValidationStatus = s.torrentValidationStatus)) : Verification s a t effects
  /-- Kept data is over the limit. -/
  | dropped {t : TorrentState} {effects : List Effect} (silent : ∀ effect ∈ effects, effect.verifies = false)
      (beyond : 1024 * 1024 * 1024 / (s.torrent.map (·.pieceLen)).getD 16384 < s.v2PendingData.keys.length)
      (after : t.pipeline = { s.pipeline with buffered := ∅ }) : Verification s .cleanup t effects
  | configured {path priorities name t effects} (silent : ∀ effect ∈ effects, effect.verifies = false)
      (after : t.pipeline = { s.pipeline with settings := t.settings }) (settings : Reconfigured s t) :
      Verification s (.setUserTorrentConfig path priorities name) t effects

variable {valid : Bool} {completed : List ℕ}

theorem pieceVerified_verification (run : some (s.pieceVerified host k p valid data) = some (t, effects)) :
    Verification s (.pieceVerified k p valid data) t effects := by
  obtain ⟨rfl, rfl⟩ := Prod.ext_iff.mp (some.inj run)
  dsimp only [pieceVerified]
  split_ifs with outside
  · exact .untouched outside ⟨by simp, rfl⟩
  · have assigned := untouched_of_aside (assignWork_aside
      ({ s with
          verifyingPieces := s.verifyingPieces.erase p
          v2Proofs := Function.update s.v2Proofs p none
          v2PendingData := s.v2PendingData.erase p }.forgetRequest k p) host k)
    refine .verdict (fun effect member verifies => ?_) assigned.same
    cases (assigned.silent effect member).symm.trans verifies
  · exact .verdict (fun effect member _ => ⟨by assumption, mem_singleton.mp member⟩) rfl
  all_goals exact .verdict (by simp) rfl

theorem metadataReceived_verification {torrent : Torrent} {length : ℤ}
    (run : s.metadataReceived host torrent length = some (t, effects)) :
    Verification s (.metadataReceived torrent length) t effects := by
  unfold metadataReceived at run
  cases known : s.torrent with
  | some old =>
    simp only [known, isSome_some, if_true] at run
    exact .untouched trivial (.of_some run (by simp) rfl)
  | none =>
    simp only [known, isSome_none, Bool.false_eq_true, if_false] at run
    obtain ⟨pm, -, result⟩ := map_eq_some_iff.mp run
    split_ifs at result
    · cases result
      exact .reset (by simp) (rebuildMultiFileInfo_pipeline _) (.inl rfl) (.inl rfl)
        (.inr ⟨⟨_, _, rfl⟩, known, validated_rebuildMultiFileInfo _⟩)
    · cases result
      exact .reset (by simp) rfl (.inl rfl) (.inl rfl) (.inr ⟨⟨_, _, rfl⟩, known, rfl⟩)

theorem validationComplete_verification (run : s.validationComplete host completed = some (t, effects)) :
    Verification s (.validationComplete completed) t effects := by
  unfold validationComplete at run
  split_ifs at run
  · exact .untouched trivial (.of_some run (by simp) rfl)
  obtain ⟨u, adopted, run⟩ := bind_eq_some_iff.mp run
  have begun : u.pipeline = { s.pipeline with verifying := ∅ } := by
    obtain ⟨pm, -, adopted⟩ := bind_eq_some_iff.mp adopted
    obtain ⟨need, -, rfl⟩ := map_eq_some_iff.mp adopted
    rfl
  have rest : Untouched u effects t := by
    refine .andThen run ?_ ?_
    · intro v emitted first
      exact untouched_of_aside (.of_result (aside_of_idle (announceValidated_idle completed)) first)
    · intro v emitted second
      refine .andThen second (fun _ _ checked => untouched_of_aside (checkCompletion_aside checked)) ?_
      intro w told third
      exact .andThen third (fun _ _ choked => .of_result (recalculateChokes_untouched w _ _) choked)
        fun _ _ assigned => untouched_of_aside (assignAll_aside assigned)
  have after := rest.same.trans begun
  have settings : t.settings = s.settings := congrArg Pipeline.settings after
  exact .reset rest.silent (settings ▸ after) (.inl rfl) (.inl rfl) (.inl (.of_settings settings))

theorem cleanup_verification (run : s.cleanup host = some (t, effects)) : Verification s .cleanup t effects := by
  obtain ⟨u, expired, rest⟩ := Scheduler.cleanup_rule untouched_disconnecting (fun j _ => removePeer_untouched j)
    (fun _ _ second => untouched_of_aside (cleanupSeeding_aside second)) run
  dsimp only [expireRecords] at expired
  split_ifs at expired with unsized limit
  · cases expired
    exact .dropped rest.silent limit rest.same
  · cases expired
    refine .untouched trivial (.from_same ?_ rest)
    rfl

theorem delete_pipeline (run : some (s.delete host) = some (t, effects)) :
    (∀ effect ∈ effects, effect.verifies = false) ∧ t.pipeline = ⟨∅, ∅, fun _ => none, s.settings⟩ := by
  obtain ⟨rfl, rfl⟩ := Prod.ext_iff.mp (some.inj run)
  refine ⟨fun effect member => ?_, rfl⟩
  simp only [delete, List.cons_append, List.mem_cons, List.mem_append, List.mem_map, List.not_mem_nil, or_false]
    at member
  rcases member with rfl | ⟨entry, -, rfl⟩ | rfl
  · rfl
  · rfl
  · split_ifs <;> rfl

end TorrentState

open TorrentState

def Action.touchesVerification : Action → Bool
  | .incomingBlock _ _ _ _ | .merkleProofReceived _ _ _ | .pieceVerified _ _ _ _ | .metadataReceived _ _
  | .validationComplete _ | .cleanup | .delete | .setUserTorrentConfig _ _ _ => true
  | _ => false

variable {host : Host} {s t : TorrentState} {a : Action} {effects : List Effect}
  (run : update host s a = some (t, effects))
include run

theorem update_untouched (other : a.touchesVerification = false) : Untouched s effects t := by
  by_cases stands : a.standsAside = true
  · exact untouched_of_aside (update_aside stands run)
  cases a with
  | peerPolicyUpdated policy =>
    exact Scheduler.peerPolicyUpdated_rule untouched_disconnecting (fun j _ => removePeer_untouched j) run
  | tick dtMs => exact tick_untouched run
  | recalculateChokes seed => exact .of_result (recalculateChokes_untouched s host seed) run
  | registerPeer k addr => exact registerPeer_untouched run
  | peerDisconnected k force =>
    exact Scheduler.peerDisconnected_rule untouched_disconnecting (fun j _ => removePeer_untouched j) run
  | peerInterested k => exact .of_result (peerInterested_untouched s k) run
  | pause | fatalError => exact pause_untouched run
  | setDataAvailability available =>
    have choked := recalculateChokes_untouched { s with dataAvailable := available } host 0
    exact .of_some run choked.silent choked.same
  | incomingBlock | merkleProofReceived | pieceVerified | metadataReceived | validationComplete | cleanup | delete
  | setUserTorrentConfig => simp [Action.touchesVerification] at other
  | peerSuccessfullyConnected | blockSentToPeer =>
    exact .of_some run (by simp [peerSuccessfullyConnected, blockSentToPeer]) rfl
  | _ => exact absurd rfl stands

theorem update_verification : Verification s a t effects := by
  cases a with
  | incomingBlock k p offset data => exact (incomingBlock_submits run).elim (.untouched trivial) .block
  | merkleProofReceived k p proof =>
    exact (merkleProofReceived_submits run).elim (fun idle => .untouched idle.2 idle.1) .proof
  | pieceVerified k p valid data => exact pieceVerified_verification run
  | metadataReceived torrent length => exact metadataReceived_verification run
  | validationComplete completed => exact validationComplete_verification run
  | cleanup => exact cleanup_verification run
  | delete =>
    obtain ⟨silent, after⟩ := delete_pipeline run
    have settings : t.settings = s.settings := congrArg Pipeline.settings after
    exact .reset silent (settings ▸ after) (.inr rfl) (.inr rfl) (.inl (.of_settings settings))
  | setUserTorrentConfig path priorities name =>
    obtain ⟨silent, after, settings⟩ := setUserTorrentConfig_pipeline run
    exact .configured silent after settings
  | _ => exact .untouched trivial (update_untouched run rfl)

/-- The persisted flag never changes, and the layout stays once it is known. Only the metadata itself may bring a new
layout. -/
theorem update_reconfigured : Reconfigured s t ∨
      ((∃ torrent length, a = .metadataReceived torrent length) ∧ s.torrent = none ∧
        t.torrentValidationStatus = s.torrentValidationStatus) := by
  have of_pipeline : ∀ {verifying buffered proofs}, t.pipeline = ⟨verifying, buffered, proofs, s.settings⟩ →
      Reconfigured s t := fun same => .of_settings (congrArg Pipeline.settings same)
  cases update_verification run with
  | untouched _ untouched => exact .inl (of_pipeline untouched.same)
  | block completes =>
    obtain ⟨-, -, -, after, -, -⟩ := completes
    exact .inl (of_pipeline after)
  | proof answers =>
    obtain ⟨-, after, -⟩ := answers
    exact .inl (of_pipeline after)
  | verdict _ after | dropped _ _ after => exact .inl (of_pipeline after)
  | reset _ _ _ _ settings => exact settings
  | configured _ _ settings => exact .inl settings

theorem update_keeps_validated : t.torrentValidationStatus = s.torrentValidationStatus := by
  rcases update_reconfigured run with reconfigured | ⟨-, -, validated⟩
  · exact reconfigured.validated
  · exact validated

end Superseedr
