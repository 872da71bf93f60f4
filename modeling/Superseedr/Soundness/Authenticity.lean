import Superseedr.Soundness.HashLayers
import Superseedr.Soundness.VerificationFrame

/-! # Only authentic pieces are accepted

A piece of version 2 is accepted when its hash is the one that the metadata fixes for it. The hash is looked
up in a stored piece layer, or it is reached by a climb to the root of the file. Where neither is at hand a
single hash sent by a peer is taken for the hash of the piece, without any link to the metadata: everything
a peer sends is then accepted along with its hash. In runs in which peers send no wrong hash and no proof of
a wrong height, whatever else they send, only authentic pieces are accepted.
-/

namespace Superseedr

open List Function

open Scheduler TorrentState Option Torrent Event Sha256

variable {offset p size len position dataLen : ℕ} {data piece block answer : Bytes} {verifying : Finset ℕ}
  {found root : V2RootInfo} {pm : PieceManager}

namespace PieceManager

theorem offset_of_complete {pm' : PieceManager} (run : pm.handleBlock p offset data size = some (pm', some piece)) :
    satAdd32 offset (u32 data.length) ≤ max (pm.blockManager.calculatePieceSize p) size := by
  have cut : (pm.fitted p size).blockManager.calculatePieceSize p ≤
      max (pm.blockManager.calculatePieceSize p) size := by
    unfold fitted
    split_ifs
    · refine le_trans ?_ (le_max_right _ _)
      exact (Nat.min_le_left _ _).trans (Nat.mod_le _ _)
    · exact le_max_left _ _
  refine le_trans ?_ cut
  by_contra outside
  rw [handleBlock_eq, if_pos (not_le.mp outside)] at run
  cases run

end PieceManager

theorem tailOverrides_le (torrent : Torrent) (cut : tailOverrides torrent p = some len) : len ≤ torrent.pieceLen := by
  unfold tailOverrides at cut
  split_ifs at cut with version
  refine foldlRecOn
    (motive := fun acc : (ℕ → Option ℕ) × ℕ => ∀ p len, acc.1 p = some len → len ≤ torrent.pieceLen)
    torrent.sortedV2Roots _ (fun _ _ found => by simp at found) ?_ p len cut
  rintro ⟨overrides, next⟩ short ⟨path, length, hash⟩ - q len found
  dsimp only at found
  split_ifs at found with nonempty tail
  · change Function.update overrides _ _ q = some len at found
    rw [update_apply] at found
    split_ifs at found
    · rw [← some.inj found]
      exact (Nat.mod_le _ _).trans (Nat.mod_lt _ nonempty.2).le
    · exact short q len found
  · exact short q len found
  · exact short q len found

namespace Scheduler

structure Mapped (good : Torrent → Prop) (c : Core) : Prop where
  roots : (∀ p, c.roots p = none) ∨
    ∃ torrent, c.torrent = some torrent ∧ c.roots = torrent.calculateV2Mapping.pieceToRoots
  good : ∀ torrent, c.torrent = some torrent → good torrent
  short : ∀ torrent, c.torrent = some torrent → ∀ p, c.pm.blockManager.calculatePieceSize p ≤ torrent.pieceLen

variable {good : Torrent → Prop} {c d : Core} {label : Label}

theorem Move.roots (move : Move label c d) (loaded : ∀ torrent, label ≠ .load torrent) (wiped : label ≠ .wipe) :
    d.roots = c.roots := by
  cases move with
  | load => exact absurd rfl (loaded _)
  | wipe => exact absurd rfl wiped
  | _ => rfl

theorem calculatePieceSize_loadedPieces_le (torrent : Torrent) (validated : Bool) (p : ℕ) :
    (loadedPieces torrent validated).blockManager.calculatePieceSize p ≤ torrent.pieceLen := by
  have narrow : asU32 torrent.info.pieceLength ≤ torrent.pieceLen := by
    simp only [pieceLen, asU64, asU32]
    omega
  simp only [loadedPieces, PieceManager.setGeometry, BlockManager.setGeometry, BlockManager.calculatePieceSize]
  cases cut : tailOverrides torrent p with
  | some len => exact tailOverrides_le torrent cut
  | none => exact (Nat.min_le_left _ _).trans narrow

theorem Mapped.move (mapped : Mapped good c) (sound : Sound c) (addressable : label.Addressable)
    (loads : ∀ torrent, label = .load torrent → good torrent) (move : Move label c d) : Mapped good d := by
  by_cases reshapes : label.Reshapes
  · cases move with
    | @load c torrent validated pm unloaded loadsAs =>
      refine ⟨.inr ⟨torrent, rfl, rfl⟩, fun other loaded => ?_, fun other loaded p => ?_⟩
      all_goals cases loaded
      · exact loads torrent rfl
      · change pm.blockManager.calculatePieceSize p ≤ torrent.pieceLen
        rw [LoadsAs.blockManager loadsAs addressable]
        exact calculatePieceSize_loadedPieces_le torrent validated p
    | wipe fresh =>
      subst fresh
      exact ⟨.inl fun _ => rfl, mapped.good, fun torrent _ p => (Nat.min_le_left _ _).trans (Nat.zero_le _)⟩
    | @assemble c blockManager assembles =>
      refine ⟨mapped.roots, mapped.good, fun torrent loaded p => ?_⟩
      rcases assembles with same | ⟨q, -, -, estimate⟩
      · rw [same.calculatePieceSize]
        exact mapped.short torrent loaded p
      have size : c.pieceSize q ≤ torrent.pieceLen := by
        rw [Core.pieceSize, (loaded : c.torrent = some torrent)]
        exact pieceSizeOf_le c.roots
      rw [estimate.calculatePieceSize]
      exact (Nat.min_le_left _ _).trans ((Nat.mod_le _ _).trans size)
    | _ => exact reshapes.elim
  · have notLoad : ∀ torrent, label ≠ .load torrent := by
      rintro torrent rfl
      exact reshapes trivial
    obtain ⟨same, roots⟩ := move.geometry sound.consistent reshapes
    refine ⟨?_, ?_, ?_⟩
    · rw [roots, move.torrent notLoad]
      exact mapped.roots
    · rw [move.torrent notLoad]
      exact mapped.good
    · intro torrent loaded p
      rw [move.torrent notLoad] at loaded
      rw [same.calculatePieceSize]
      exact mapped.short torrent loaded p

end Scheduler

variable {torrent : Torrent} {sha : Sha256} {layers : Bytes → List Bytes} {host : Host} {s t : TorrentState}
  {a : Action} {effects : List Effect}

theorem update_keeps_files (loaded : s.torrent = some torrent) (kept : a ≠ .delete)
    (run : update host s a = some (t, effects)) : t.torrent = some torrent ∧ t.pieceToRoots = s.pieceToRoots := by
  refine update_preserves (fun c => c.torrent = some torrent ∧ c.roots = s.pieceToRoots)
    (fun c d label permits move before => ?_) run ⟨loaded, rfl⟩
  have notWipe : label ≠ .wipe := by
    rintro rfl
    exact kept permits
  have notLoad : ∀ other, label ≠ .load other := by
    rintro other rfl
    cases move with
    | load unloaded => exact absurd (unloaded.symm.trans before.1) (by simp)
  exact ⟨(move.torrent notLoad).trans before.1, (move.roots notLoad notWipe).trans before.2⟩

structure Drains (s t : TorrentState) : Prop where
  buffered : ∀ p kept, t.v2PendingData.lookup p = some kept → s.v2PendingData.lookup p = some kept
  proofs : ∀ p, s.v2Proofs p = none → t.v2Proofs p = none

theorem Drains.of_pipeline {buffered : AList fun _ : ℕ => ℕ × Bytes} {proofs : ℕ → Option Bytes}
    {settings : PipelineSettings} (same : t.pipeline = ⟨verifying, buffered, proofs, settings⟩)
    (fewer : ∀ p kept, buffered.lookup p = some kept → s.v2PendingData.lookup p = some kept)
    (unproved : ∀ p, s.v2Proofs p = none → proofs p = none) : Drains s t := by
  have isBuffered : t.v2PendingData = buffered := congrArg Pipeline.buffered same
  have isProofs : t.v2Proofs = proofs := congrArg Pipeline.proofs same
  exact ⟨isBuffered ▸ fewer, isProofs ▸ unproved⟩

theorem Drains.of_same (same : t.pipeline = s.pipeline) : Drains s t :=
  .of_pipeline (same.trans rfl) (fun _ _ found => found) fun _ unproved => unproved

def Action.Quiet (a : Action) (effects : List Effect) : Prop :=
  ∀ effect ∈ effects, effect.verifies = true →
    ∃ k p data, a = .pieceVerified k p true data ∧ effect = .writeToDisk k p data

theorem Action.Quiet.of_silent (silent : ∀ effect ∈ effects, effect.verifies = false) : a.Quiet effects :=
  fun effect member verifies => absurd ((silent effect member).symm.trans verifies) Bool.false_ne_true

/-- Only the arrival of a block or of a proof submits anything, and only that of a block keeps data. -/
theorem update_quiet (run : update host s a = some (t, effects)) :
    (∃ k p offset data, a = .incomingBlock k p offset data ∧ Completes s k p offset data t effects) ∨
      (a.Quiet effects ∨ ∃ k p proof, a = .merkleProofReceived k p proof ∧ Answers s k p proof t effects) ∧
      Drains s t := by
  cases update_verification run with
  | untouched _ untouched => exact .inr ⟨.inl (.of_silent untouched.silent), .of_same untouched.same⟩
  | block completes => exact .inl ⟨_, _, _, _, rfl, completes⟩
  | proof answers =>
    refine .inr ⟨.inr ⟨_, _, _, rfl, answers⟩, ?_⟩
    obtain ⟨-, after, -⟩ := answers
    exact .of_pipeline after (fun _ _ found => AList.lookup_of_erase found) fun _ unproved => unproved
  | @verdict k p valid data _ _ stored after =>
    refine .inr ⟨.inl fun effect member verifies => ?_,
      .of_pipeline after (fun _ _ found => AList.lookup_of_erase found) fun q unproved => ?_⟩
    · obtain ⟨rfl, written⟩ := stored effect member verifies
      exact ⟨k, p, data, rfl, written⟩
    · rcases eq_or_ne q p with rfl | other
      · exact update_self ..
      · rwa [update_of_ne other]
  | dropped silent _ after =>
    exact .inr ⟨.inl (.of_silent silent), .of_pipeline after (fun _ _ found => by simp at found) fun _ same => same⟩
  | configured silent after _ =>
    exact .inr ⟨.inl (.of_silent silent), .of_pipeline after (fun _ _ found => found) fun _ same => same⟩
  | reset silent after data known _ =>
    refine .inr ⟨.inl (.of_silent silent), .of_pipeline after ?_ ?_⟩
    · rcases data with rfl | rfl
      · exact fun _ _ found => found
      · exact fun _ _ found => by simp at found
    · rcases known with rfl | rfl
      · exact fun _ unproved => unproved
      · exact fun _ _ => rfl

section Trust

variable {roots : List V2RootInfo}

def KeptFor (s : TorrentState) (p offset : ℕ) : Prop :=
  ∃ torrent root, s.torrent = some torrent ∧ s.pieceToRoots p = some [root] ∧ offset < torrent.pieceLen ∧
    torrent.getLayerHashes root.rootHash = none ∧ torrent.pieceLen < root.length

structure Trusted (sha : Sha256) (layers : Bytes → List Bytes) (s : TorrentState) : Prop where
  sound : Sound (abs s [] ∅)
  mapped : Mapped (Authored sha layers) (abs s [] ∅)
  proofs : ∀ p, s.v2Proofs p = none
  kept : ∀ p offset data, s.v2PendingData.lookup p = some (offset, data) → KeptFor s p offset

/-- Metadata is made from content, blocks are not empty, and what peers send in answer to requests for hashes is
either the hash of the piece or as long as a climb to the root of its file. -/
def Event.Honest (sha : Sha256) (layers : Bytes → List Bytes) (s : TorrentState) : Event → Prop
  | .handle _ (.metadataReceived torrent _) => torrent.numPieces ≤ 2 ^ 32 ∧ torrent.Authored sha layers
  | .handle _ (.incomingBlock _ _ _ data) => 0 < data.length ∧ data.length < 2 ^ 32
  | .handle _ (.merkleProofReceived _ p proof) =>
    p ∈ s.v2PendingData → ∀ torrent root, s.torrent = some torrent →
      torrent.calculateV2Mapping.pieceToRoots p = some [root] →
        if proof.length = 32 then
          (fixedLayer layers torrent.pieceLen root)[p - root.fileOffset / torrent.pieceLen]? = some proof
        else proof.length = 32 * treeHeight (fixedLayer layers torrent.pieceLen root).length
  | _ => True

theorem Event.Honest.addressable {event : Event} (honest : event.Honest sha layers s) : event.Addressable := by
  unfold Addressable
  split
  · exact honest.1
  · trivial

theorem Trusted.single (trusted : Trusted sha layers s) (found : s.pieceToRoots p = some roots) :
    ∃ torrent root, s.torrent = some torrent ∧ torrent.Authored sha layers ∧ roots = [root] ∧
      torrent.calculateV2Mapping.pieceToRoots p = some [root] ∧ root.Covers torrent.pieceLen p ∧
      p * torrent.pieceLen + torrent.pieceLen < 2 ^ 32 ∧
      divCeil root.length torrent.pieceLen * torrent.pieceLen < 2 ^ 32 := by
  rcases trusted.mapped.roots with unmapped | ⟨torrent, loaded, isMapping⟩
  · exact absurd ((unmapped p).symm.trans found) (by simp)
  have authored := trusted.mapped.good torrent loaded
  have mapped : torrent.calculateV2Mapping.pieceToRoots p = some roots := by rwa [← isMapping]
  obtain ⟨root, rfl, covers⟩ := authored.single mapped
  exact ⟨torrent, root, loaded, authored, rfl, mapped, covers⟩

theorem matchingRootInfo_singleton (matching : matchingRootInfo [root] position = some found) : found = root := by
  unfold matchingRootInfo at matching
  by_cases before : root.fileOffset ≤ position
  · simpa [before, eq_comm] using matching
  · simp [before] at matching

theorem trusted_initial (initial : Initial s) : Trusted sha layers s := by
  have sound := sound_initial initial
  obtain ⟨_, _, _, _, _, rfl⟩ := initial
  refine ⟨sound, ⟨.inl fun _ => rfl, fun torrent loaded => ?_, fun torrent loaded => ?_⟩, fun _ => rfl,
    fun p offset data found => ?_⟩
  · exact absurd loaded (by simp [Scheduler.abs, new])
  · exact absurd loaded (by simp [Scheduler.abs, new])
  · exact absurd found (by simp [new])

theorem Trusted.keptFor (trusted : Trusted sha layers s) (nonempty : 0 < data.length) (short : data.length < 2 ^ 32)
    (handled : s.pieceManager.handleBlock p offset data (s.getPieceSize p) = some (pm, some piece))
    (found : s.pieceToRoots p = some roots) (matching : matchingRootInfo roots position = some root)
    (unknown : s.localLayerHash p root = some none) : KeptFor s p offset := by
  obtain ⟨torrent, file, loaded, authored, rfl, mapped, -, -, bytes⟩ := trusted.single found
  obtain rfl := matchingRootInfo_singleton matching
  simp only [localLayerHash, loaded] at unknown
  rcases authored.getV2HashLayer mapped unknown with ⟨target, impossible, -⟩ | ⟨-, missing, long⟩
  · cases impossible
  refine ⟨torrent, root, loaded, found, ?_, missing, long⟩
  have size : s.getPieceSize p ≤ torrent.pieceLen := by
    rw [getPieceSize, loaded]
    exact pieceSizeOf_le s.pieceToRoots
  have cut := trusted.mapped.short torrent loaded p
  have inside := PieceManager.offset_of_complete handled
  have several : 2 * torrent.pieceLen < 2 ^ 32 := by
    have pieces : 2 ≤ divCeil root.length torrent.pieceLen := by
      rw [divCeil, Nat.le_div_iff_mul_le authored.space.positive]
      omega
    exact lt_of_le_of_lt (Nat.mul_le_mul_right _ pieces) bytes
  have bound := inside.trans (max_le cut size)
  rw [u32_of_lt short, satAdd32] at bound
  omega

section

variable (trusted : Trusted sha layers s) (honest : (handle host a).Honest sha layers s)
  (run : update host s a = some (t, effects))
include trusted honest run

theorem update_mapped : Sound (abs t [] ∅) ∧ Mapped (Authored sha layers) (abs t [] ∅) := by
  have both := update_preserves (fun c => Sound c ∧ Mapped (Authored sha layers) c)
    (fun c d label permits move before => ?_) run ⟨trusted.sound, trusted.mapped⟩
  · exact ⟨both.1.of_abs [] ∅, both.2.roots, both.2.good, both.2.short⟩
  have addressable := permits.addressable honest.addressable
  refine ⟨before.1.move addressable move, before.2.move before.1 addressable (fun torrent isLoad => ?_) move⟩
  subst isLoad
  obtain ⟨length, rfl⟩ := permits
  exact honest.2

/-- Deletion keeps nothing, and every other update keeps the files. -/
theorem Trusted.of_drains (drains : Drains s t) : Trusted sha layers t := by
  obtain ⟨sound, mapped⟩ := update_mapped trusted honest run
  refine ⟨sound, mapped, fun p => drains.proofs p (trusted.proofs p), fun p offset data found => ?_⟩
  rcases eq_or_ne a .delete with rfl | deleted
  · rw [v2PendingData_eq (delete_pipeline run).2] at found
    simp at found
  · obtain ⟨torrent, root, loaded, rest⟩ := trusted.kept p offset data (drains.buffered p _ found)
    obtain ⟨stays, files⟩ := update_keeps_files loaded deleted run
    exact ⟨torrent, root, stays, files ▸ rest⟩

theorem Trusted.update : Trusted sha layers t := by
  rcases update_quiet run with ⟨k, p, offset, data, rfl, completes⟩ | ⟨-, drains⟩
  · obtain ⟨-, -, handled, after, submits, -⟩ := completes
    cases submits with
    | bySha1 | byMerkleRoot =>
      exact trusted.of_drains honest run (.of_pipeline after (fun _ _ found => found) fun _ unproved => unproved)
    | afterHash mapped matching unknown =>
      obtain ⟨sound, stillMapped⟩ := update_mapped trusted honest run
      have proofs : t.v2Proofs = s.v2Proofs := congrArg Pipeline.proofs after
      refine ⟨sound, stillMapped, fun q => proofs ▸ trusted.proofs q, fun q otherOffset otherData found => ?_⟩
      have keptBefore : ∀ q kept, t.v2PendingData.lookup q = some kept → KeptFor s q kept.1 := by
        rw [v2PendingData_eq after]
        exact AList.forall_insert (fun q kept => trusted.kept q kept.1 kept.2)
          (trusted.keptFor honest.1 honest.2 handled mapped matching unknown)
      obtain ⟨torrent, root, loaded, rest⟩ := keptBefore q _ found
      obtain ⟨stays, same⟩ := update_keeps_files loaded (by simp) run
      exact ⟨torrent, root, stays, same ▸ rest⟩
  · exact trusted.of_drains honest run drains

end

theorem Reachable.trusted (reachable : Reachable (Honest sha layers) s) : Trusted sha layers s := by
  refine reachable.invariant (Trusted sha layers) (fun s => trusted_initial) ?_ ?_
  · exact fun host a s t effects honest run trusted => trusted.update honest run
  · intro s trusted
    have small : Label.recount.Addressable := trivial
    have move := updateRarity_move s
    exact ⟨trusted.sound.move small move, trusted.mapped.move trusted.sound small (by simp) move, trusted.proofs,
      trusted.kept⟩

end Trust

section Acceptance

variable {k : PeerId} {fileOffset validLength relativeIndex contextLen : ℕ} {proof target accepted : Bytes}

/-- Data hashes to the entry that the metadata fixes for a piece: the root of a file of one piece, or an entry of
the layer that hashes up to the root of its file. -/
def Authentic (sha : Sha256) (layers : Bytes → List Bytes) (s : TorrentState) (p contextLen : ℕ) (data : Bytes) :
    Prop :=
  ∃ torrent root, s.torrent = some torrent ∧ torrent.calculateV2Mapping.pieceToRoots p = some [root] ∧
    contextLen = min root.length torrent.pieceLen ∧
    (fixedLayer layers torrent.pieceLen root)[p - root.fileOffset / torrent.pieceLen]? =
      some (sha.computeV2PieceRoot data contextLen)

/-- No two of the inputs hashed for a piece have the same digest, neither in the tree of its file nor on the climb
from its data. -/
def SecureClimb (sha : Sha256) (layers : Bytes → List Bytes) (s : TorrentState) (p relativeIndex contextLen : ℕ)
    (data proof : Bytes) : Prop :=
  ∀ torrent root, s.torrent = some torrent → torrent.calculateV2Mapping.pieceToRoots p = some [root] →
    sha.CollisionFree
      (sha.layerInputs torrent.pieceLen (fixedLayer layers torrent.pieceLen root)
          (p - root.fileOffset / torrent.pieceLen) ++
        sha.climbInputs (sha.computeV2PieceRoot data contextLen) relativeIndex proof)

theorem contextLen_of_params (loaded : s.torrent = some torrent) (found : s.pieceToRoots p = some [root])
    (params : s.calculateV2VerifyParams p dataLen = some (validLength, relativeIndex, contextLen)) :
    contextLen = min root.length torrent.pieceLen := by
  simp only [calculateV2VerifyParams, found, loaded, map_some, getD_some] at params
  split_ifs at params with unsized long
  all_goals
    simp only [some.injEq, Prod.mk.injEq] at params
    omega

section

variable {j : PeerId} {q : ℕ} (trusted : Trusted sha layers s)
  (submitted : .verifyPieceV2 j q proof data target fileOffset validLength relativeIndex contextLen ∈ effects)
  (accepts : sha.verifyPieceV2 proof data target validLength relativeIndex contextLen = some accepted)
include trusted submitted accepts

/-- A piece submitted when its last block arrived. -/
theorem Trusted.accepts_block (completes : Completes s k p offset block t effects) :
    Authentic sha layers s q contextLen accepted := by
  obtain ⟨-, -, -, -, submits, same⟩ := completes
  have member := mem_filter.mpr ⟨submitted, (rfl : Effect.verifies _ = true)⟩
  rw [same] at member
  have sends := (mem_filter.mp member).1
  cases submits with
  | bySha1 => simp at sends
  | afterHash =>
    unfold hashRequest at sends
    split at sends <;> simp at sends
  | @byMerkleRoot roots root _ _ _ _ _ mapped matching params source =>
    simp only [mem_singleton, Effect.verifyPieceV2.injEq] at sends
    obtain ⟨rfl, rfl, rfl, rfl, rfl, rfl, rfl, rfl, rfl⟩ := sends
    rcases source with ⟨rfl, localHash⟩ | ⟨-, received, -⟩
    · obtain ⟨torrent, file, loaded, authored, rfl, inTorrent, -⟩ := trusted.single mapped
      obtain rfl := matchingRootInfo_singleton matching
      refine ⟨torrent, root, loaded, inTorrent, contextLen_of_params loaded mapped params, ?_⟩
      simp only [localLayerHash, loaded] at localHash
      rcases authored.getV2HashLayer inTorrent localHash with ⟨hash, isHash, entry⟩ | ⟨impossible, -⟩
      · rw [entry, verifyPieceV2_direct accepts, some.inj isHash]
      · cases impossible
    · cases (trusted.proofs _).symm.trans received

/-- A piece submitted when a proof arrived. -/
theorem Trusted.accepts_proof (honest : (handle host (.merkleProofReceived k p answer)).Honest sha layers s)
    (answers : Answers s k p answer t effects)
    (secure : SecureClimb sha layers s q relativeIndex contextLen accepted proof) :
    Authentic sha layers s q contextLen accepted := by
  obtain @⟨offset, piece, pending, -, sent⟩ := answers
  rcases sent with ⟨nothing, -⟩ | ⟨effect, only, roots, found, pieceLen, valid, relative, context, known, mapped,
    isPieceLen, -, matching, params, localHash, isEffect⟩
  · simp [nothing] at submitted
  rw [only, mem_singleton, isEffect, Effect.verifyPieceV2.injEq] at submitted
  obtain ⟨rfl, rfl, rfl, rfl, rfl, rfl, rfl, isRelative, rfl⟩ := submitted
  obtain ⟨torrent, root, loaded, hasRoot, inside, missing, long⟩ := trusted.kept q offset data pending
  obtain rfl : roots = [root] := mem_unique mapped hasRoot
  obtain rfl := matchingRootInfo_singleton matching
  obtain ⟨torrent', root', loaded', authored, single, inTorrent, covers, position, -⟩ := trusted.single hasRoot
  obtain rfl := mem_unique loaded loaded'
  obtain rfl : found = root' := by simpa using single
  rw [loaded, map_some, getD_some] at isPieceLen
  subst isPieceLen
  have index : u32 ((u64 (u64 (q * torrent.pieceLen) + offset) - found.fileOffset) / torrent.pieceLen) =
      q - found.fileOffset / torrent.pieceLen := by
    have few : q ≤ q * torrent.pieceLen := Nat.le_mul_of_pos_right _ authored.space.positive
    have start : u64 (q * torrent.pieceLen) = q * torrent.pieceLen := u64_of_lt (by omega)
    rw [start, u64_of_lt (by omega), covers.relative inside]
    exact u32_of_lt (lt_of_le_of_lt (Nat.sub_le _ _) (by omega))
  simp only [localLayerHash, loaded] at localHash
  have nothingKnown := getV2HashLayer_of_unknown missing long localHash
  have file := authored.files q found inTorrent
  refine ⟨torrent, found, loaded, inTorrent, contextLen_of_params loaded hasRoot params, ?_⟩
  have answered := honest (AList.lookup_isSome.mp (by rw [pending]; rfl)) torrent found loaded inTorrent
  by_cases single : answer.length = 32
  · rw [if_pos single] at answered
    simp only [if_pos single, nothingKnown, getD_none] at accepts
    rw [answered, verifyPieceV2_direct accepts]
  rw [if_neg single] at answered
  simp only [if_neg single] at accepts secure
  have last := covers.last
  have first := covers.first
  have free := secure torrent found loaded inTorrent
  rw [isRelative, index] at free
  refine getElem?_of_climb file.wide (length_computeV2PieceRoot _ _) ?_ answered free ?_
  · rw [file.complete]
    omega
  · rw [file.top, ← index, ← isRelative]
    exact verifyPieceV2_climbs accepts

end

/-- In every run whose events are honest, whatever verification accepts is authentic. -/
theorem accepted_authentic (reachable : Reachable (Honest sha layers) s) (honest : (handle host a).Honest sha layers s)
    (run : update host s a = some (t, effects))
    (submitted : .verifyPieceV2 k p proof data target fileOffset validLength relativeIndex contextLen ∈ effects)
    (accepts : sha.verifyPieceV2 proof data target validLength relativeIndex contextLen = some accepted)
    (secure : SecureClimb sha layers s p relativeIndex contextLen accepted proof) :
    Authentic sha layers s p contextLen accepted := by
  have trusted := reachable.trusted
  rcases update_quiet run with ⟨j, q, offset, block, rfl, completes⟩ | ⟨quiet | ⟨j, q, answer, rfl, answers⟩, -⟩
  · exact trusted.accepts_block submitted accepts completes
  · obtain ⟨_, _, _, _, written⟩ := quiet _ submitted rfl
    cases written
  · exact trusted.accepts_proof submitted accepts honest answers secure

end Acceptance

/-- The bytes as digits of a number, of which 32 bytes are kept. -/
def toyHash : Sha256 where
  digest input := (range 32).map fun i =>
    UInt8.ofNat (input.foldl (fun acc byte => acc * 257 + byte.toNat + 1) 0 / 256 ^ i)
  width input := by simp

/-- The piece layer of a file of three pieces. -/
def toyLayer : List Bytes := [[1, 1, 1, 1], [2, 2, 2, 2], [3, 3, 3, 3]].map toyHash.digest

def treeTorrent : Torrent where
  info :=
    { pieceLength := 4
      pieces := []
      files := []
      name := "t"
      length := 12
      metaVersion := some 2
      fileTree := some (.dict [([102], .dict [([], .dict
        [([108, 101, 110, 103, 116, 104], .int 12),
          ([112, 105, 101, 99, 101, 115, 32, 114, 111, 111, 116], .bytes (toyHash.layerRoot 4 toyLayer))])])]) }

def treeRoot : V2RootInfo := ⟨0, 12, toyHash.layerRoot 4 toyLayer, 0⟩

theorem pieceToRoots_treeTorrent :
    treeTorrent.calculateV2Mapping.pieceToRoots p = if p < 3 then some [treeRoot] else none := by
  have files : treeTorrent.sortedV2Roots = [([102], 12, toyHash.layerRoot 4 toyLayer)] := by decide +kernel
  rw [calculateV2Mapping, if_pos (by decide), files]
  rcases lt_or_ge p 3 with inside | outside
  · rw [if_pos inside]
    exact if_pos ⟨Nat.zero_le p, inside⟩
  · rw [if_neg (not_lt.mpr outside)]
    exact if_neg fun within => absurd within.2 (not_lt.mpr outside)

theorem authored_treeTorrent : treeTorrent.Authored toyHash fun _ => toyLayer := by
  refine ⟨⟨rfl, by decide, by decide +kernel, by decide +kernel⟩, by decide +kernel, fun p root mapped => ?_⟩
  rw [pieceToRoots_treeTorrent] at mapped
  split_ifs at mapped
  obtain rfl : treeRoot = root := by simpa using mapped
  exact ⟨by decide +kernel, by decide +kernel, by decide +kernel, fun layer stored => by cases stored⟩

def hasTreeFile (p : ℕ) (s : TorrentState) : Bool :=
  s.torrent.any fun torrent =>
    torrent.pieceLen = 4 && torrent.calculateV2Mapping.pieceToRoots p = some [treeRoot]

theorem of_hasTreeFile (has : hasTreeFile p s = true) (loaded : s.torrent = some torrent)
    (mapped : torrent.calculateV2Mapping.pieceToRoots p = some [root]) : torrent.pieceLen = 4 ∧ root = treeRoot := by
  simp only [hasTreeFile, loaded, any_some, Bool.and_eq_true, decide_eq_true_eq, mapped, some.injEq,
    cons.injEq, and_true] at has
  exact has

def blockOfTree (p : ℕ) (data : Bytes) : List Event :=
  downloadOf treeTorrent ++ newPeer "p" [0xE0] ++ [.handle {} (.incomingBlock "p" p 0 data)]

theorem exists_submission (p relativeIndex : ℕ) (data answer proof target : Bytes)
    (nonempty : 0 < data.length ∧ data.length < 2 ^ 32)
    (checked : (runChecked (fun _ _ => true) emptyState (blockOfTree p data)).any (fun s => decide (
      hasTreeFile p s = true ∧ ∃ result ∈ update {} s (.merkleProofReceived "p" p answer),
        .verifyPieceV2 "p" p proof data target 0 4 relativeIndex 4 ∈ result.2)) = true) :
    ∃ s t effects, Reachable (Honest toyHash fun _ => toyLayer) s ∧ hasTreeFile p s = true ∧
      update {} s (.merkleProofReceived "p" p answer) = some (t, effects) ∧
      .verifyPieceV2 "p" p proof data target 0 4 relativeIndex 4 ∈ effects := by
  have pieces : treeTorrent.numPieces = 3 := by decide +kernel
  have small : data.length < 4294967296 := nonempty.2
  obtain ⟨s, -, reachable, has, ⟨t, effects⟩, answered, submitted⟩ := exists_reachable
    (Honest toyHash fun _ => toyLayer) (fun _ _ => true) (blockOfTree p data) _
    (by simp [blockOfTree, downloadOf, newPeer, Honest, authored_treeTorrent, pieces, nonempty.1, small]) checked
  exact ⟨s, t, effects, reachable, has, answered, submitted⟩

/-- A single hash from a peer is believed: data of its own making is accepted along with its hash, although the metadata
is made from content, nothing collides, and the data is not the piece. -/
theorem forged_piece_accepted : ∃ s t effects data hash,
    Reachable (Honest toyHash fun _ => toyLayer) s ∧
    update {} s (.merkleProofReceived "p" 0 hash) = some (t, effects) ∧
    .verifyPieceV2 "p" 0 [] data hash 0 4 0 4 ∈ effects ∧
    toyHash.verifyPieceV2 [] data hash 4 0 4 = some data ∧
    SecureClimb toyHash (fun _ => toyLayer) s 0 0 4 data [] ∧
    ¬Authentic toyHash (fun _ => toyLayer) s 0 4 data := by
  obtain ⟨s, t, effects, reachable, has, run, submitted⟩ := exists_submission 0 0 [9, 9, 9, 9]
    (toyHash.digest [9, 9, 9, 9]) [] (toyHash.digest [9, 9, 9, 9]) (by decide) (by decide +kernel)
  refine ⟨s, t, effects, _, _, reachable, run, submitted, by decide +kernel, ?_, ?_⟩
  · intro torrent root loaded mapped
    obtain ⟨size, rfl⟩ := of_hasTreeFile has loaded mapped
    rw [size]
    unfold CollisionFree
    decide +kernel
  · rintro ⟨torrent, root, loaded, mapped, -, entry⟩
    obtain ⟨size, rfl⟩ := of_hasTreeFile has loaded mapped
    rw [size] at entry
    revert entry
    decide +kernel

/-- The siblings of the middle piece. -/
def toyProof : Bytes :=
  toyHash.leafOf 4 toyLayer 0 ++ toyHash.combine (toyHash.leafOf 4 toyLayer 2) (toyHash.leafOf 4 toyLayer 3)

theorem accepted_authentic_middle : ∃ s, Reachable (Honest toyHash fun _ => toyLayer) s ∧
    toyHash.verifyPieceV2 toyProof [2, 2, 2, 2] treeRoot.rootHash 4 1 4 = some [2, 2, 2, 2] ∧
    Authentic toyHash (fun _ => toyLayer) s 1 4 [2, 2, 2, 2] := by
  obtain ⟨s, t, effects, reachable, has, run, submitted⟩ := exists_submission 1 1 [2, 2, 2, 2] toyProof
    toyProof treeRoot.rootHash (by decide) (by decide +kernel)
  have accepts : toyHash.verifyPieceV2 toyProof [2, 2, 2, 2] treeRoot.rootHash 4 1 4 = some [2, 2, 2, 2] := by
    decide +kernel
  refine ⟨s, reachable, accepts, accepted_authentic reachable ?_ run submitted accepts ?_⟩
  · intro _ torrent root loaded mapped
    obtain ⟨size, rfl⟩ := of_hasTreeFile has loaded mapped
    rw [size]
    decide +kernel
  · intro torrent root loaded mapped
    obtain ⟨size, rfl⟩ := of_hasTreeFile has loaded mapped
    rw [size]
    unfold CollisionFree
    decide +kernel

end Superseedr
