import Superseedr.Soundness.Abstraction

/-! # Three views of the torrent state

The scheduler sees the pieces and what the peers are asked for. Verification sees the pieces that are being verified and
the settings. The ledger sees addresses, choke and interest flags and transferred bytes. Announcing, connecting and
reading from disk leave all three as they are and emit nothing of concern to any of them.
-/

namespace Superseedr

open List Option Scheduler

variable {interval : ℕ} {minInterval : Option ℕ} {host : Host} {a : Action}

@[simp] def Effect.verifies : Effect → Bool
  | .verifyPiece _ _ _ => true
  | .verifyPieceV2 _ _ _ _ _ _ _ _ _ => true
  | .requestHashes _ _ _ _ _ _ => true
  | .writeToDisk _ _ _ => true
  | _ => false

structure PipelineSettings where
  validated : Bool
  dataPath : Option String
  containerName : Option String
  priorities : AList fun _ : ℕ => FilePriority
  layout : Option MultiFileInfo

structure Pipeline where
  verifying : Finset ℕ
  buffered : AList fun _ : ℕ => ℕ × Bytes
  proofs : ℕ → Option Bytes
  settings : PipelineSettings

namespace Ledger

structure Card where
  ipPort : PeerId
  peerAddr : Option SocketAddr
  amChoking : ChokeStatus
  interested : Bool
  totalDownloaded : ℕ
  totalUploaded : ℕ
  baseDownloaded : ℕ
  baseUploaded : ℕ

def card (peer : PeerState) : Card where
  ipPort := peer.ipPort
  peerAddr := peer.peerAddr
  amChoking := peer.amChoking
  interested := peer.peerIsInterestedInUs
  totalDownloaded := peer.totalBytesDownloaded
  totalUploaded := peer.totalBytesUploaded
  baseDownloaded := peer.transferBaseDownloaded
  baseUploaded := peer.transferBaseUploaded

def cardsOf (peers : AList fun _ : PeerId => PeerState) : AList fun _ : PeerId => Card :=
  peers.mapVal fun _ => card

structure Standing where
  cards : AList fun _ : PeerId => Card
  book : PeerBook
  now : ℕ
  counted : ℕ
  leaving : List PeerId

def standing (s : TorrentState) : Standing where
  cards := cardsOf s.peers
  book := s.book
  now := s.now
  counted := s.numberOfSuccessfullyConnectedPeers
  leaving := s.pendingDisconnects

@[simp] def chokes : Effect → Bool
  | .sendToPeer _ .peerChoke => true
  | .sendToPeer _ .peerUnchoke => true
  | _ => false

end Ledger

@[simp] def Effect.matters (effect : Effect) : Bool := effect.verifies || Ledger.chokes effect

@[simp] def Effect.requests : Effect → Bool
  | .sendToPeer _ (.bulkRequest _) => true
  | _ => false

@[simp] def Effect.noticed (effect : Effect) : Bool := effect.matters || effect.requests

variable {s t : TorrentState} {effects : List Effect}

namespace TorrentState

open EmittingStep Ledger

variable {k : PeerId} {url : String}

def settings (s : TorrentState) : PipelineSettings :=
  ⟨s.torrentValidationStatus, s.torrentDataPath, s.containerName, s.filePriorities, s.multiFileInfo⟩

def pipeline (s : TorrentState) : Pipeline := ⟨s.verifyingPieces, s.v2PendingData, s.v2Proofs, s.settings⟩

variable {x : Pipeline}

theorem verifyingPieces_eq (same : s.pipeline = x) : s.verifyingPieces = x.verifying :=
  congrArg Pipeline.verifying same

theorem v2PendingData_eq (same : s.pipeline = x) : s.v2PendingData = x.buffered :=
  congrArg Pipeline.buffered same

abbrev Untouched := Frame Effect.verifies pipeline

def outlook (s : TorrentState) : Pipeline × Standing := (s.pipeline, standing s)

/-- A handler that neither sees. -/
abbrev Aside := Frame Effect.matters outlook

def panorama (s : TorrentState) : (Pipeline × Standing) × Core := (outlook s, abs s [] ∅)

/-- A handler that none sees. -/
abbrev Idle := Frame Effect.noticed panorama

def dealings (s : TorrentState) : Standing × Core := (standing s, abs s [] ∅)

/-- A handler that at most verification sees. -/
abbrev Verifying := Frame (fun effect => chokes effect || effect.requests) dealings

theorem aside_of_idle (idle : Idle s effects t) : Aside s effects t where
  silent effect member := (Bool.or_eq_false_iff.mp (idle.silent effect member)).1
  same := congrArg Prod.fst idle.same

theorem silent_announceEffects : ∀ effect ∈ s.announceEffects host, effect.noticed = false := by
  simp [announceEffects]

theorem silent_connectToWebSeeds : ∀ effect ∈ s.connectToWebSeeds, effect.noticed = false := by
  simp [connectToWebSeeds]

theorem torrentManagerInit_idle (isPaused announce : Bool) :
    Idle s (s.torrentManagerInit host isPaused announce).2 (s.torrentManagerInit host isPaused announce).1 := by
  unfold torrentManagerInit
  split_ifs
  · exact ⟨by simp, rfl⟩
  · exact ⟨forall_mem_append.mpr ⟨silent_connectToWebSeeds, silent_announceEffects⟩, rfl⟩
  · exact ⟨silent_connectToWebSeeds, rfl⟩

theorem announceIfDue_idle (run : announceIfDue url s = some (t, effects)) : Idle s effects t := by
  unfold announceIfDue at run
  split at run
  · exact .of_some run (by simp) rfl
  · split_ifs at run
    · exact .of_map run (fun _ => by simp) fun _ => rfl
    · exact .of_some run (by simp) rfl

theorem trackerResponse_idle {peers : List SocketAddr}
    (run : s.trackerResponse host url peers interval minInterval = some (t, effects)) : Idle s effects t := by
  have silent : ∀ connect : SocketAddr → Option Effect,
      (∀ addr effect, connect addr = some effect → effect = .connectToPeer addr) →
      ∀ effect ∈ peers.filterMap connect, effect.noticed = false := by
    intro connect only effect member
    obtain ⟨addr, -, made⟩ := mem_filterMap.mp member
    rw [only addr effect made]
    rfl
  dsimp only [trackerResponse] at run
  split_ifs at run
  all_goals first
    | refine .of_map run (fun _ => silent _ fun addr effect made => ?_) fun _ => rfl
    | refine .of_some run (silent _ fun addr effect made => ?_) rfl
  all_goals
    split at made
    · split_ifs at made
      exact (some.inj made).symm
    · exact (some.inj made).symm

theorem trackerError_idle (run : s.trackerError url = some (t, effects)) : Idle s effects t := by
  unfold trackerError at run
  split at run
  · exact .of_some run (by simp) rfl
  · obtain ⟨delay, -, run⟩ := bind_eq_some_iff.mp run
    exact .of_map run (fun _ => by simp) fun _ => rfl

theorem recordFailures_panorama {failures : List PeerId} (run : failures.foldlM recordFailure s = some t) :
    panorama t = panorama s := by
  induction failures generalizing s with
  | nil =>
    obtain rfl : s = t := some.inj run
    rfl
  | cons addr rest ih =>
    rw [foldlM_cons, bind_eq_bind, bind_eq_some_iff] at run
    obtain ⟨mid, first, others⟩ := run
    obtain ⟨next, -, rfl⟩ := map_eq_some_iff.mp first
    rw [ih others]
    rfl

theorem peerConnectionFailed_idle (run : s.peerConnectionFailed k = some (t, effects)) : Idle s effects t := by
  dsimp only [peerConnectionFailed] at run
  split_ifs at run
  · obtain ⟨u, recorded, result⟩ := map_eq_some_iff.mp run
    have same := recordFailures_panorama recorded
    exact .of_some (congrArg some result) (by simp) same
  · exact .of_some run (by simp) rfl

theorem announceValidated_idle (completed : List ℕ) :
    Idle s (s.announceValidated host completed).2 (s.announceValidated host completed).1 := by
  refine ⟨fun effect member => ?_, rfl⟩
  rcases mem_append.mp member with told | announced
  · split_ifs at told
    · cases told
    · exact silent_announceEffects effect told
    · rw [mem_singleton.mp told]
      rfl
  · obtain ⟨p, -, rfl⟩ := mem_map.mp announced
    rfl

theorem shedPeers_idle (run : s.shedPeers host = some (t, effects)) : Idle s effects t := by
  dsimp only [shedPeers] at run
  split_ifs at run
  · refine .of_some run (fun effect member => ?_) rfl
    obtain ⟨entry, -, rfl⟩ := mem_map.mp member
    rfl
  · refine .of_map run (fun _ effect member => ?_) fun _ => rfl
    obtain ⟨entry, -, rfl⟩ := mem_map.mp member
    rfl

theorem announceAll_idle (run : s.announceAll host = some (t, effects)) : Idle s effects t := by
  unfold announceAll at run
  split_ifs at run
  · exact .of_some run (by simp) rfl
  · exact .of_map run (fun _ => silent_announceEffects) fun _ => rfl

theorem resume_idle (run : s.resume host = some (t, effects)) : Idle s effects t := by
  dsimp only [resume] at run
  split_ifs at run
  · exact .of_some run (by simp) rfl
  refine .andThen run ?_ ?_
  · intro u emitted first
    exact .of_some first silent_connectToWebSeeds rfl
  · intro u emitted second
    refine .andThen second (fun _ _ announced => announceAll_idle announced) ?_
    intro v told third
    refine .of_some third (fun effect member => ?_) rfl
    obtain ⟨addr, -, made⟩ := mem_filterMap.mp member
    obtain ⟨parsed, -, rfl⟩ := map_eq_some_iff.mp made
    rfl

theorem requestUpload_idle (p offset length : ℕ) :
    Idle s (s.requestUpload k p offset length).2 (s.requestUpload k p offset length).1 := by
  unfold requestUpload
  split_ifs
  · exact ⟨by simp, rfl⟩
  refine ⟨fun effect member => ?_, rfl⟩
  dsimp only at member
  split_ifs at member
  all_goals
    rw [mem_singleton.mp member]
    rfl

section Submission

variable {p offset : ℕ} {data proof : Bytes}

inductive Submits (s : TorrentState) (k : PeerId) (p offset : ℕ) (data : Bytes) :
    (AList fun _ : ℕ => ℕ × Bytes) → List Effect → Prop where
  /-- By SHA-1. -/
  | bySha1 : Submits s k p offset data s.v2PendingData [.verifyPiece k p data]
  /-- Against a hash of the metadata, or along a proof received before. -/
  | byMerkleRoot {roots root proof target validLength relativeIndex contextLen}
      (mapped : s.pieceToRoots p = some roots)
      (matching : matchingRootInfo roots
        (u64 (u64 (p * (s.torrent.map (·.pieceLen)).getD 0) + offset)) = some root)
      (params : s.calculateV2VerifyParams p data.length = some (validLength, relativeIndex, contextLen))
      (source : (proof = [] ∧ s.localLayerHash p root = some (some target)) ∨
        (s.localLayerHash p root = some none ∧ s.v2Proofs p = some proof ∧ target = root.rootHash)) :
      Submits s k p offset data s.v2PendingData
        [.verifyPieceV2 k p proof data target root.fileOffset validLength relativeIndex contextLen]
  /-- Not before the hash has been asked of the peer. -/
  | afterHash {roots root} (mapped : s.pieceToRoots p = some roots)
      (matching : matchingRootInfo roots
        (u64 (u64 (p * (s.torrent.map (·.pieceLen)).getD 0) + offset)) = some root)
      (unknown : s.localLayerHash p root = some none) :
      Submits s k p offset data (s.v2PendingData.insert p (offset, data)) (s.hashRequest k p)

theorem submitPiece_submits (run : s.submitPiece k p offset data = some (t, effects)) :
    ∃ v2PendingData lastActivity, t = { s with v2PendingData, lastActivity } ∧
      Submits s k p offset data v2PendingData effects := by
  have plain : ∀ t effects, s.submitV1 k p data = (t, effects) →
      ∃ v2PendingData lastActivity, t = { s with v2PendingData, lastActivity } ∧
        Submits s k p offset data v2PendingData effects := by
    intro t effects submitted
    cases submitted
    exact ⟨_, _, rfl, .bySha1⟩
  unfold submitPiece at run
  cases mapped : s.pieceToRoots p with
  | none =>
    simp only [mapped, some.injEq] at run
    exact plain t effects run
  | some roots =>
    simp only [mapped, bind_eq_some_iff] at run
    obtain ⟨⟨validLength, relativeIndex, contextLen⟩, params, run⟩ := run
    cases matching : matchingRootInfo roots
        (u64 (u64 (p * (s.torrent.map (·.pieceLen)).getD 0) + offset)) with
    | none =>
      simp only [matching, some.injEq] at run
      exact plain t effects run
    | some root =>
      simp only [matching, map_eq_some_iff] at run
      obtain ⟨known, localHash, run⟩ := run
      split at run
      · cases run
        exact ⟨_, _, rfl, .byMerkleRoot mapped matching params (.inl ⟨rfl, localHash⟩)⟩
      · rename_i proof received
        cases run
        exact ⟨_, _, rfl, .byMerkleRoot mapped matching params (.inr ⟨localHash, received, rfl⟩)⟩
      split_ifs at run
      · exact plain t effects run
      · cases run
        exact ⟨_, _, rfl, .afterHash mapped matching localHash⟩

theorem submitPiece_verifying (run : s.submitPiece k p offset data = some (t, effects)) : Verifying s effects t := by
  obtain ⟨buffered, activity, rfl, submits⟩ := submitPiece_submits run
  refine ⟨fun effect member => ?_, rfl⟩
  cases submits with
  | bySha1 | byMerkleRoot =>
    rw [mem_singleton.mp member]
    rfl
  | afterHash =>
    unfold hashRequest at member
    split at member <;> simp_all

theorem merkleProofReceived_verifying (run : s.merkleProofReceived k p proof = some (t, effects)) :
    Verifying s effects t := by
  unfold merkleProofReceived at run
  split at run
  · exact .of_some run (by simp) rfl
  split at run
  · exact .of_some run (by simp) rfl
  dsimp only at run
  split at run
  · exact .of_some run (by simp) rfl
  obtain ⟨⟨validLength, relativeIndex, contextLen⟩, -, run⟩ := bind_eq_some_iff.mp run
  split at run
  · cases run
  · exact .of_map run (fun _ => by simp) fun _ => rfl

end Submission

end TorrentState

open TorrentState

def Action.isIdle : Action → Bool
  | .torrentManagerInit _ _ | .connectToWebSeeds | .requestUpload _ _ _ _ | .trackerResponse _ _ _ _ | .trackerError _
  | .peerConnectionFailed _ | .cancelUpload _ _ _ _ | .resume | .updateListenPort | .validationProgress _
  | .shutdown => true
  | _ => false

theorem update_idle (idle : a.isIdle = true) (run : update host s a = some (t, effects)) : Idle s effects t := by
  cases a with
  | torrentManagerInit isPaused announce => exact .of_result (torrentManagerInit_idle isPaused announce) run
  | connectToWebSeeds => exact .of_some run silent_connectToWebSeeds rfl
  | requestUpload k p offset length => exact .of_result (requestUpload_idle p offset length) run
  | trackerResponse url peers interval minInterval => exact trackerResponse_idle run
  | trackerError url => exact trackerError_idle run
  | peerConnectionFailed k => exact peerConnectionFailed_idle run
  | resume => exact resume_idle run
  | updateListenPort => exact announceAll_idle run
  | cancelUpload | validationProgress | shutdown =>
    exact .of_some run
      (by simp [shutdown]) rfl
  | _ => cases idle

namespace Scheduler.Simulates

variable {guard : Core → Label → Prop}

theorem of_same (silent : ∀ effect ∈ effects, effect.requests = false) (same : abs t [] ∅ = abs s [] ∅) :
    Simulates guard s effects t := by
  refine .of_unseen (flatMap_eq_nil_iff.mpr fun effect member => ?_) fun sent owed => ?_
  · have quiet := silent effect member
    split
    · cases quiet
    · rfl
  · exact congrArg (fun c : Core => { c with sent, owed }) same

theorem of_verifying (verifying : Verifying s effects t) : Simulates guard s effects t :=
  .of_same (fun effect member => (Bool.or_eq_false_iff.mp (verifying.silent effect member)).2)
    (congrArg Prod.snd verifying.same)

theorem of_idle (idle : Idle s effects t) : Simulates guard s effects t :=
  .of_same (fun effect member => (Bool.or_eq_false_iff.mp (idle.silent effect member)).2) (congrArg Prod.snd idle.same)

end Scheduler.Simulates

end Superseedr
