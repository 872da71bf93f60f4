import Superseedr.Soundness.Authenticity
import Superseedr.Soundness.DiskReads
import Superseedr.Soundness.PieceSizes

/-! # Validation and download of version 2 pieces

A piece that is downloaded is compared with the hash that the metadata fixes for its position, in a tree that is as
high as its file needs if the file fits into a piece. Validation finds the root of a file by the end of its path, and
hashes every piece in a tree as high as a whole piece needs. Both accept the same data exactly if they find the same
hashes and, for files that fit into a piece, the trees are of the same height.
-/

namespace Superseedr

open List TorrentState Sha256

variable {digest data : Bytes} {expectedLen k n offset p a b : ℕ} {raw torrent : Torrent} {sha : Sha256} {disk : Disk}
  {layout : MultiFileInfo} {order : Arrangement}

section Spine

variable {top : ℕ}

theorem computeV2PieceRoot_spine (spine : ℕ → Bytes)
    (step : ∀ k < top, ∀ sibling, sha.combine (spine k) sibling = spine (k + 1)) (nonempty : 0 < data.length)
    (short : data.length ≤ expectedLen) (first : sha.digest (data.take blockSize) = spine 0)
    (inside : treeHeight (divCeil expectedLen blockSize) ≤ top) :
    sha.computeV2PieceRoot data expectedLen = spine (treeHeight (divCeil expectedLen blockSize)) := by
  have block : (chunks blockSize data)[0]? = some (data.take blockSize) := by
    rw [chunks, getElem?_map, getElem?_range (divCeil_pos nonempty (by decide)), Option.map_some,
      Nat.zero_mul, drop_zero]
  rw [computeV2PieceRoot_eq short]
  refine MerkleTree.node_zero ?_ fun k below => step k (below.trans_le inside)
  rw [getElem?_map, block]
  exact first

def constantHash (digest : Bytes) (width : digest.length = 32) : Sha256 := ⟨fun _ => digest, fun _ => width⟩

theorem computeV2PieceRoot_constantHash (width : digest.length = 32) (nonempty : 0 < data.length)
    (short : data.length ≤ expectedLen) : (constantHash digest width).computeV2PieceRoot data expectedLen = digest :=
  computeV2PieceRoot_spine (fun _ => digest) (fun _ _ _ => rfl) nonempty short rfl le_rfl

/-- A byte that is neither zero nor the first byte of a digest. -/
def markOf (digest : Bytes) : UInt8 := if digest.headD 0 = 1 then 2 else 1

/-- The first nodes of a tree whose root is a given digest at one height only. -/
def chainNode (digest : Bytes) (top k : ℕ) : Bytes :=
  if k = top then digest else markOf digest :: UInt8.ofNat k :: replicate 30 0

theorem length_chainNode (width : digest.length = 32) (top k : ℕ) : (chainNode digest top k).length = 32 := by
  unfold chainNode
  split_ifs
  · exact width
  · simp

theorem chainNode_ne (below : k < top) : chainNode digest top k ≠ digest := by
  intro same
  rw [chainNode, if_neg (by omega)] at same
  have first : digest.headD 0 = markOf digest := (congrArg (headD · 0) same).symm
  unfold markOf at first
  split_ifs at first with isOne
  · rw [isOne] at first
    cases first
  · exact isOne first

/-- The hash function that counts the height of a tree over zeros. -/
def chainHash (digest : Bytes) (width : digest.length = 32) (top : ℕ) : Sha256 where
  digest input :=
    match input with
    | first :: second :: _ =>
      if first = markOf digest then chainNode digest top (second.toNat + 1) else chainNode digest top 0
    | _ => chainNode digest top 0
  width input := by
    split
    · split_ifs <;> exact length_chainNode width _ _
    · exact length_chainNode width _ _

theorem combine_chainHash (width : digest.length = 32) (small : top < 256) (below : k < top) (sibling : Bytes) :
    (chainHash digest width top).combine (chainNode digest top k) sibling = chainNode digest top (k + 1) := by
  have back : (UInt8.ofNat k).toNat = k := by
    rw [UInt8.toNat_ofNat']
    omega
  have input : chainNode digest top k = markOf digest :: UInt8.ofNat k :: replicate 30 0 := if_neg (by omega)
  rw [combine, input]
  simp only [chainHash, cons_append, if_true, back]

theorem computeV2PieceRoot_chainHash (width : digest.length = 32) (small : top < 256) (nonempty : 0 < n)
    (short : n ≤ expectedLen) (inside : treeHeight (divCeil expectedLen blockSize) ≤ top) :
    (chainHash digest width top).computeV2PieceRoot (replicate n 0) expectedLen =
      chainNode digest top (treeHeight (divCeil expectedLen blockSize)) := by
  refine computeV2PieceRoot_spine _ (fun k below sibling => combine_chainHash width small below sibling)
    (by rwa [length_replicate]) (by rwa [length_replicate]) ?_ inside
  have unmarked : ¬(0 : UInt8) = markOf digest := by
    unfold markOf
    split_ifs <;> decide
  rw [take_replicate]
  match min blockSize n with
  | 0 => rfl
  | 1 => rfl
  | m + 2 => exact if_neg unmarked

end Spine

section Folds

variable {run next : ValidationRun} {completed : List ℕ} {accepts : ℕ → Prop} {decided : Prop}

structure ValidationRun.Extends (run next : ValidationRun) (accepts : ℕ → Prop) (decided : Prop) : Prop where
  members : ∀ completed, next.outcome = some completed → ∃ before, run.outcome = some before ∧
    ∀ p, p ∈ completed ↔ p ∈ before ∨ accepts p
  ends : run.outcome.isSome → decided → next.outcome.isSome

theorem extends_refl (nothing : ∀ p, ¬accepts p) : run.Extends run accepts decided where
  members completed ended := ⟨completed, ended, fun p => by simp [nothing]⟩
  ends started _ := started

theorem check_extends (piece : ℕ) (verdict : Option Bool) :
    run.Extends (run.check piece verdict) (fun p => p = piece ∧ verdict = some true) verdict.isSome := by
  unfold ValidationRun.check
  cases started : run.outcome with
  | none => exact ⟨fun completed ended => (nomatch started.symm.trans ended), by simp [started]⟩
  | some before =>
    rcases verdict with _ | _ | _
    · exact ⟨nofun, fun _ => nofun⟩
    all_goals
      refine ⟨fun completed ended => ⟨before, started, fun p => ?_⟩, fun _ _ => rfl⟩
      cases ended
      simp

theorem foldl_extends {α : Type*} {step : ValidationRun → α → ValidationRun} {accepts : α → ℕ → Prop}
    {decided : α → Prop} {l : List α}
    (each : ∀ (run : ValidationRun), ∀ a ∈ l, run.Extends (step run a) (accepts a) (decided a)) :
    run.Extends (l.foldl step run) (fun p => ∃ a ∈ l, accepts a p) (∀ a ∈ l, decided a) := by
  induction l generalizing run with
  | nil => exact extends_refl (by simp)
  | cons a rest ih =>
    have first := each run a (.head _)
    have later := @ih (step run a) fun run a member => each run a (.tail _ member)
    refine ⟨fun completed ended => ?_, fun started all => ?_⟩
    · obtain ⟨middle, checked, added⟩ := later.members completed ended
      obtain ⟨before, started, members⟩ := first.members middle checked
      exact ⟨before, started, fun p => by simp [added, members, or_assoc]⟩
    · rw [forall_mem_cons] at all
      exact later.ends (first.ends started all.1) all.2

def pieceOfFile (torrent : Torrent) (file : FileInfo) (i : ℕ) : ℕ :=
  u32 (u32 (file.globalStartOffset / torrent.pieceLen) + u32 i)

def Validates (disk : Disk) (layout : MultiFileInfo) (torrent : Torrent) (sha : Sha256) (order : Arrangement)
    (file : FileInfo) (p : ℕ) : Prop :=
  file.isPadding = false ∧ ∃ rootHash, rootOfFile torrent order file = some rootHash ∧
    ∃ i < filePieceCount torrent file, p = pieceOfFile torrent file i ∧
      verdictV2 disk layout torrent sha file rootHash i = some true

variable (positive : 0 < torrent.pieceLen)
include positive

theorem validateFileV2_extends (file : FileInfo) :
    run.Extends (validateFileV2 disk layout torrent sha order run file) (Validates disk layout torrent sha order file)
      (file.isPadding = false → ∀ rootHash, ∀ i < filePieceCount torrent file,
        (verdictV2 disk layout torrent sha file rootHash i).isSome) := by
  unfold validateFileV2 Validates
  cases file.isPadding with
  | true => exact extends_refl (by simp)
  | false =>
    cases rootOfFile torrent order file with
    | none => exact extends_refl (by simp)
    | some rootHash =>
      simp only [Bool.false_eq_true, if_false, if_neg positive.ne']
      have rounds := @foldl_extends run _ _ _ _ (range (filePieceCount torrent file)) fun run i _ =>
        @check_extends run (pieceOfFile torrent file i) (verdictV2 disk layout torrent sha file rootHash i)
      simp only [mem_range] at rounds
      refine ⟨fun completed ended => ?_, fun started all => rounds.ends started (all trivial rootHash)⟩
      simpa using rounds.members completed ended

theorem mem_validateV2 (ended : (validateV2 disk layout torrent sha order).outcome = some completed) (p : ℕ) :
    p ∈ completed ↔ ∃ file ∈ layout.files, Validates disk layout torrent sha order file p := by
  unfold validateV2 at ended
  dsimp only at ended
  split at ended
  case h_1 failed =>
    rw [failed] at ended
    cases ended
  case h_2 listed isListed =>
    obtain ⟨before, started, members⟩ :=
      (foldl_extends fun _ file _ => validateFileV2_extends positive file).members listed isListed
    cases started
    cases ended
    rw [mem_dedup, mem_insertionSort, members]
    simp

end Folds

/-- The download of a piece ends with its data being accepted, on the strength of the metadata and of the proofs that
the state has. -/
def TorrentState.AcceptsPiece (sha : Sha256) (s : TorrentState) (p : ℕ) (data : Bytes) : Prop :=
  ∃ k offset t effects proof target fileOffset validLength relativeIndex contextLen, offset < data.length ∧
    s.submitPiece k p offset data = some (t, effects) ∧
    .verifyPieceV2 k p proof data target fileOffset validLength relativeIndex contextLen ∈ effects ∧
    (sha.verifyPieceV2 proof data target validLength relativeIndex contextLen).isSome

/-- The state knows what the metadata says and nothing else about hashes. -/
structure TorrentState.Knows (s : TorrentState) (torrent : Torrent) : Prop where
  loaded : s.torrent = some torrent
  roots : s.pieceToRoots = torrent.calculateV2Mapping.pieceToRoots
  proofs : ∀ p, s.v2Proofs p = none

namespace Torrent

open Placement MultiFileInfo

variable {x : Placement} {i : ℕ} {s : TorrentState} {allocated : Disk} {rootDir : String}
  {filePriorities : ℕ → Option FilePriority}

def downloadHash (torrent : Torrent) (x : Placement) (i : ℕ) : Option Bytes :=
  (torrent.getV2HashLayer (x.first + i) (x.first * torrent.pieceLen) x.length 1 x.file.2.2).getD none

def contextLength (torrent : Torrent) (x : Placement) : ℕ :=
  if x.length ≤ torrent.pieceLen then x.length else torrent.pieceLen

def pieceOnDisk (torrent : Torrent) (layout : MultiFileInfo) (disk : Disk) (p : ℕ) : Option Bytes :=
  match createAndAllocateFiles disk layout with
  | some (disk, false) =>
    readDataFromDisk disk layout (u64 (p * torrent.pieceLen))
      (pieceSizeOf torrent torrent.calculateV2Mapping.pieceToRoots p)
  | _ => none

def readPiece (torrent : Torrent) (disk : Disk) (layout : MultiFileInfo) (x : Placement) (i : ℕ) : Option Bytes :=
  readDataFromDisk disk layout ((x.first + i) * torrent.pieceLen)
    (min torrent.pieceLen (x.length - i * torrent.pieceLen))

def validationHash (torrent : Torrent) (order : Arrangement) (file : FileInfo) (i : ℕ) : Option Bytes :=
  (rootOfFile torrent order file).bind fun rootHash => expectedHashV2 torrent file rootHash i

section Download

theorem pieceSize_pos (positive : 0 < torrent.pieceLen) (inside : i < x.pieces torrent.pieceLen) :
    0 < min torrent.pieceLen (x.length - i * torrent.pieceLen) := by
  rw [min_sub_eq positive inside]
  split_ifs with tail
  · exact tail.1
  · exact positive

variable (placed : x ∈ torrent.placed) (inside : i < x.pieces torrent.pieceLen)
include placed inside

theorem piece_end_le :
    (x.first + i) * torrent.pieceLen + torrent.pieceLen ≤
      filePieces torrent.pieceLen torrent.sortedV2Roots * torrent.pieceLen := by
  have total := (placements_bounds placed).2
  rw [← Nat.succ_mul]
  exact Nat.mul_le_mul_right _ (by omega)

theorem exists_piece_iff {holds : Placement → ℕ → Prop} :
    (∃ y ∈ torrent.placed, ∃ j < y.pieces torrent.pieceLen, x.first + i = y.first + j ∧ holds y j) ↔ holds x i := by
  constructor
  · rintro ⟨y, other, j, within, same, holdsThere⟩
    obtain rfl : x = y := placements_disjoint placed other (Nat.le_add_right _ i) (by omega) (by omega) (by omega)
    obtain rfl : i = j := by omega
    exact holdsThere
  · exact fun holdsHere => ⟨x, placed, i, inside, rfl, holdsHere⟩

variable (space : torrent.Space)
include space

theorem pieceOfFile_info : pieceOfFile torrent (x.info rootDir filePriorities torrent.pieceLen) i = x.first + i := by
  have total := (placements_bounds placed).2
  have pieces := space.pieces
  simp only [pieceOfFile, Placement.info, Nat.mul_div_cancel _ space.positive]
  rw [u32_of_lt (show x.first < 2 ^ 32 by omega), u32_of_lt (show i < 2 ^ 32 by omega), u32_of_lt (by omega)]

theorem verdictV2_info (rootHash : Bytes) :
    verdictV2 disk layout torrent sha (x.info rootDir filePriorities torrent.pieceLen) rootHash i =
      (torrent.readPiece disk layout x i).map fun data =>
          decide (expectedHashV2 torrent (x.info rootDir filePriorities torrent.pieceLen) rootHash i =
            some (sha.computeV2PieceRoot data torrent.pieceLen)) := by
  have bytes := space.bytes
  have endOfPiece := piece_end_le placed inside
  have split : (x.first + i) * torrent.pieceLen = x.first * torrent.pieceLen + i * torrent.pieceLen := Nat.add_mul ..
  have offset : u64 (i * torrent.pieceLen) = i * torrent.pieceLen := u64_of_lt (by omega)
  have start : u64 (x.first * torrent.pieceLen + i * torrent.pieceLen) = (x.first + i) * torrent.pieceLen := by
    rw [← split]
    exact u64_of_lt (by omega)
  have size := pieceSize_pos space.positive inside
  have isStart : (x.info rootDir filePriorities torrent.pieceLen).globalStartOffset = x.first * torrent.pieceLen := rfl
  have isLength : (x.info rootDir filePriorities torrent.pieceLen).length = x.length := rfl
  rw [verdictV2, readPiece]
  simp only [offset, isStart, isLength, start]
  cases read : readDataFromDisk disk layout ((x.first + i) * torrent.pieceLen) _ with
  | none => rfl
  | some data =>
    have nonempty : data ≠ [] := by
      rintro rfl
      have length := length_readDataFromDisk read
      rw [length_nil] at length
      omega
    rw [Option.map_some, Option.map_some]
    congr 1
    cases expectedHashV2 torrent (x.info rootDir filePriorities torrent.pieceLen) rootHash i with
    | none => simp
    | some want => simp [nonempty, verifyMerkleProof, eq_comm]

theorem pieceOnDisk_placed (found : createAndAllocateFiles disk layout = some (allocated, false)) :
    torrent.pieceOnDisk layout disk (x.first + i) = torrent.readPiece allocated layout x i := by
  have bytes := space.bytes
  have endOfPiece := piece_end_le placed inside
  have start : u64 ((x.first + i) * torrent.pieceLen) = (x.first + i) * torrent.pieceLen := u64_of_lt (by omega)
  simp only [pieceOnDisk, found, readPiece]
  rw [start, space.pieceSizeOf_placed placed (Nat.le_add_right _ _) (Nat.add_lt_add_left inside _),
    Nat.add_sub_cancel_left]

theorem submitPiece_placed (knows : s.Knows torrent) (k : PeerId) (within : offset < data.length)
    (length : data.length = min torrent.pieceLen (x.length - i * torrent.pieceLen)) :
    ∃ validLength relativeIndex, data.length ≤ validLength ∧ s.submitPiece k (x.first + i) offset data =
      (torrent.getV2HashLayer (x.first + i) (x.first * torrent.pieceLen) x.length 1 x.file.2.2).map fun known =>
        match known with
        | some target => (s, [.verifyPieceV2 k (x.first + i) [] data target (x.first * torrent.pieceLen) validLength
            relativeIndex (torrent.contextLength x)])
        | none =>
          if s.torrent.any fun torrent => torrent.info.pieces ≠ [] then s.submitV1 k (x.first + i) data
          else
            ({ s with v2PendingData := s.v2PendingData.insert (x.first + i) (offset, data) },
              s.hashRequest k (x.first + i)) := by
  have bytes := space.bytes
  have endOfPiece := piece_end_le placed inside
  have split : (x.first + i) * torrent.pieceLen = x.first * torrent.pieceLen + i * torrent.pieceLen := Nat.add_mul ..
  have start : u64 ((x.first + i) * torrent.pieceLen) = (x.first + i) * torrent.pieceLen := u64_of_lt (by omega)
  have position : u64 ((x.first + i) * torrent.pieceLen + offset) = (x.first + i) * torrent.pieceLen + offset :=
    u64_of_lt (by omega)
  have mapped : s.pieceToRoots (x.first + i) = some [x.root torrent.pieceLen] := by
    rw [knows.roots]
    exact space.pieceToRoots_placed placed (Nat.le_add_right _ _) (Nat.add_lt_add_left inside _)
  have matching : matchingRootInfo [x.root torrent.pieceLen] ((x.first + i) * torrent.pieceLen + offset) =
      some (x.root torrent.pieceLen) := by
    have before : (x.root torrent.pieceLen).fileOffset ≤ (x.first + i) * torrent.pieceLen + offset := by
      simp only [root]
      omega
    simp [matchingRootInfo, before]
  refine ⟨min data.length (x.length - ((x.first + i) * torrent.pieceLen - x.first * torrent.pieceLen)),
    u32 (((x.first + i) * torrent.pieceLen - x.first * torrent.pieceLen) / torrent.pieceLen), by omega, ?_⟩
  unfold submitPiece
  simp only [mapped, knows.loaded, Option.map_some, Option.getD_some, start, position, matching,
    calculateV2VerifyParams, if_neg space.positive.ne', Option.bind_some, localLayerHash,
    knows.proofs]
  congr 1
  funext known
  cases known <;> rfl

theorem acceptsPiece_placed (knows : s.Knows torrent) (nonempty : 0 < data.length)
    (length : data.length = min torrent.pieceLen (x.length - i * torrent.pieceLen)) :
    s.AcceptsPiece sha (x.first + i) data ↔
      torrent.downloadHash x i = some (sha.computeV2PieceRoot data (torrent.contextLength x)) := by
  have direct : ∀ {target : Bytes} {validLength relativeIndex : ℕ}, data.length ≤ validLength →
      ((sha.verifyPieceV2 [] data target validLength relativeIndex (torrent.contextLength x)).isSome ↔
        sha.computeV2PieceRoot data (torrent.contextLength x) = target) := by
    intro target validLength relativeIndex whole
    simp [verifyPieceV2, verifyMerkleProof, if_neg (not_lt.mpr whole)]
  constructor
  · rintro ⟨k, offset, t, effects, proof, target, fileOffset, validLength, relativeIndex, contextLen, within, run,
      emitted, accepted⟩
    obtain ⟨valid, relative, whole, result⟩ := submitPiece_placed placed inside space knows k within length
    rw [result] at run
    obtain ⟨known, isKnown, run⟩ := Option.map_eq_some_iff.mp run
    cases known with
    | none =>
      split_ifs at run
      · cases run
        simp at emitted
      cases run
      unfold hashRequest at emitted
      split at emitted
      · simp at emitted
      · simp at emitted
    | some want =>
      cases run
      simp only [mem_singleton, Effect.verifyPieceV2.injEq, true_and] at emitted
      obtain ⟨rfl, rfl, -, rfl, rfl, rfl⟩ := emitted
      rw [downloadHash, isKnown, (direct whole).mp accepted]
      rfl
  · intro expected
    obtain ⟨valid, relative, whole, result⟩ := submitPiece_placed placed inside space knows "" nonempty length
    unfold downloadHash at expected
    cases known : torrent.getV2HashLayer (x.first + i) (x.first * torrent.pieceLen) x.length 1 x.file.2.2 with
    | none =>
      rw [known] at expected
      cases expected
    | some hash =>
      rw [known, Option.getD_some] at expected
      rw [known, expected] at result
      refine ⟨"", 0, s, _, [], _, _, valid, relative, _, nonempty, result, mem_singleton_self _, ?_⟩
      exact (direct whole).mpr rfl

end Download

theorem filePieceCount_info (positive : 0 < torrent.pieceLen) :
    filePieceCount torrent (x.info rootDir filePriorities torrent.pieceLen) = x.pieces torrent.pieceLen := by
  rw [filePieceCount]
  split_ifs with nonempty
  · rfl
  · have empty : x.length = 0 := Nat.eq_zero_of_not_pos nonempty
    rw [pieces, empty, divCeil_zero positive]

theorem validates_iff (space : torrent.Space)
    (files : layout.files = torrent.placed.flatMap (entries rootDir filePriorities torrent.pieceLen)) :
    (∃ file ∈ layout.files, Validates disk layout torrent sha order file p) ↔
      ∃ x ∈ torrent.placed, ∃ i < x.pieces torrent.pieceLen, p = x.first + i ∧ ∃ data,
        torrent.readPiece disk layout x i = some data ∧
        torrent.validationHash order (x.info rootDir filePriorities torrent.pieceLen) i =
          some (sha.computeV2PieceRoot data torrent.pieceLen) := by
  have real : ∀ file, (file ∈ layout.files ∧ file.isPadding = false) ↔
      ∃ x ∈ torrent.placed, x.info rootDir filePriorities torrent.pieceLen = file := by
    intro file
    rw [← mem_map, ← filter_entries, ← files, mem_filter, Bool.not_eq_true']
  constructor
  · rintro ⟨file, listed, notPadding, rootHash, known, i, inside, rfl, accepted⟩
    obtain ⟨x, placed, rfl⟩ := (real file).mp ⟨listed, notPadding⟩
    rw [filePieceCount_info space.positive] at inside
    rw [verdictV2_info placed inside space] at accepted
    obtain ⟨data, read, same⟩ := Option.map_eq_some_iff.mp accepted
    refine ⟨x, placed, i, inside, pieceOfFile_info placed inside space, data, read, ?_⟩
    rw [validationHash, known, Option.bind_some]
    exact of_decide_eq_true same
  · rintro ⟨x, placed, i, inside, rfl, data, read, expected⟩
    obtain ⟨rootHash, known, isHash⟩ := Option.bind_eq_some_iff.mp expected
    obtain ⟨listed, notPadding⟩ := (real _).mpr ⟨x, placed, rfl⟩
    refine ⟨_, listed, notPadding, rootHash, known, i, ?_, (pieceOfFile_info placed inside space).symm, ?_⟩
    · rw [filePieceCount_info space.positive]
      exact inside
    · rw [verdictV2_info placed inside space, read, isHash]
      simp

theorem consecutive_entries (positive : 0 < torrent.pieceLen) {roots : List (Bytes × ℕ × Bytes)}
    {index first slot : ℕ} :
    Consecutive (first * torrent.pieceLen) ((placements torrent.pieceLen roots index first slot).flatMap
      (entries rootDir filePriorities torrent.pieceLen))
      ((first + filePieces torrent.pieceLen roots) * torrent.pieceLen) := by
  induction roots generalizing index first slot with
  | nil => rfl
  | cons file rest ih =>
    have filled := @divCeil_mul_eq_add file.2.1 torrent.pieceLen positive
    rw [filePieces_cons, ← Nat.add_assoc, placements, flatMap_cons]
    refine Consecutive.append ⟨rfl, ?_⟩ ih
    rw [Nat.add_mul, filled, Placement.padding, Placement.length]
    by_cases tail : file.2.1 % torrent.pieceLen > 0
    · rw [if_pos tail, if_pos tail]
      exact ⟨rfl, Nat.add_assoc ..⟩
    · rw [if_neg tail, if_neg tail]
      rfl

/-- Only hashes of 32 bytes can be met. -/
def digestOf (hash : Option Bytes) : Option Bytes := hash.filter fun digest => digest.length = 32

theorem digestOf_eq_some_iff (hash : Option Bytes) (width : digest.length = 32) :
    digestOf hash = some digest ↔ hash = some digest := by
  unfold digestOf
  rw [Option.filter_eq_some_iff]
  simp [width]

theorem length_of_digestOf {hash : Option Bytes} (met : digestOf hash = some digest) : digest.length = 32 := by
  unfold digestOf at met
  rw [Option.filter_eq_some_iff] at met
  simpa using met.2

/-- Validation and download expect the same hash of every piece, and where there is one to be met, files that fit into
a piece are hashed in trees of the same height. -/
def HashesAlike (torrent : Torrent) (order : Arrangement) (rootDir : String)
    (filePriorities : ℕ → Option FilePriority) : Prop :=
  ∀ x ∈ torrent.placed, ∀ i < x.pieces torrent.pieceLen,
    digestOf (torrent.validationHash order (x.info rootDir filePriorities torrent.pieceLen) i) =
      digestOf (torrent.downloadHash x i) ∧
    ((digestOf (torrent.downloadHash x i)).isSome → x.length ≤ torrent.pieceLen →
      treeHeight (divCeil x.length blockSize) = treeHeight (divCeil torrent.pieceLen blockSize))

theorem computeV2PieceRoot_congr (same : treeHeight (divCeil a blockSize) = treeHeight (divCeil b blockSize)) :
    sha.computeV2PieceRoot data a = sha.computeV2PieceRoot data b := by
  simp only [computeV2PieceRoot, nextPowerOfTwo, same]

theorem treeHeight_pieceLen_lt : treeHeight (divCeil torrent.pieceLen blockSize) < 256 := by
  have small : torrent.pieceLen < 2 ^ 64 := by
    simp only [pieceLen, asU64]
    omega
  have blocks : divCeil torrent.pieceLen blockSize ≤ 2 ^ 64 := by
    simp only [divCeil, blockSize]
    omega
  exact lt_of_le_of_lt ((Nat.clog_le_iff_le_pow Nat.one_lt_two).mpr blocks) (by decide)

theorem HashesAlike.accepts_iff (alike : torrent.HashesAlike order rootDir filePriorities) (placed : x ∈ torrent.placed)
    (inside : i < x.pieces torrent.pieceLen) (data : Bytes) :
    torrent.validationHash order (x.info rootDir filePriorities torrent.pieceLen) i =
        some (sha.computeV2PieceRoot data torrent.pieceLen) ↔
      torrent.downloadHash x i = some (sha.computeV2PieceRoot data (torrent.contextLength x)) := by
  obtain ⟨same, heights⟩ := alike x placed i inside
  rw [← digestOf_eq_some_iff _ (length_computeV2PieceRoot data _),
    ← digestOf_eq_some_iff (torrent.downloadHash x i) (length_computeV2PieceRoot data _), same]
  cases known : digestOf (torrent.downloadHash x i) with
  | none => simp
  | some want =>
    have root : sha.computeV2PieceRoot data (torrent.contextLength x) =
        sha.computeV2PieceRoot data torrent.pieceLen := by
      unfold contextLength
      split_ifs with short
      · exact computeV2PieceRoot_congr (heights (by rw [known]; rfl) short)
      · rfl
    rw [root]

theorem placed_of_acceptsPiece (space : torrent.Space) (knows : s.Knows torrent) (accepts : s.AcceptsPiece sha p data) :
    ∃ x ∈ torrent.placed, ∃ i < x.pieces torrent.pieceLen, p = x.first + i := by
  obtain ⟨k, offset, t, effects, proof, target, fileOffset, validLength, relativeIndex, contextLen, -, run,
    emitted, -⟩ := accepts
  cases mapped : s.pieceToRoots p with
  | none =>
    simp only [submitPiece, mapped, Option.some.injEq] at run
    cases run
    simp at emitted
  | some roots =>
    rw [knows.roots] at mapped
    obtain ⟨x, placed, behind, inside, -⟩ := space.placed_of_mapped mapped
    exact ⟨x, placed, p - x.first, by omega, by omega⟩

theorem accepted_iff (space : torrent.Space) (knows : s.Knows torrent)
    (found : createAndAllocateFiles disk layout = some (allocated, false)) :
    (∃ data, torrent.pieceOnDisk layout disk p = some data ∧ s.AcceptsPiece sha p data) ↔
      ∃ x ∈ torrent.placed, ∃ i < x.pieces torrent.pieceLen, p = x.first + i ∧ ∃ data,
        torrent.readPiece allocated layout x i = some data ∧
        torrent.downloadHash x i = some (sha.computeV2PieceRoot data (torrent.contextLength x)) := by
  constructor
  · rintro ⟨data, onDisk, accepts⟩
    obtain ⟨x, placed, i, inside, rfl⟩ := placed_of_acceptsPiece space knows accepts
    rw [pieceOnDisk_placed placed inside space found] at onDisk
    have length := length_readDataFromDisk onDisk
    have size := pieceSize_pos space.positive inside
    exact ⟨x, placed, i, inside, rfl, data, onDisk,
      (acceptsPiece_placed placed inside space knows (by omega) length).mp accepts⟩
  · rintro ⟨x, placed, i, inside, rfl, data, read, expected⟩
    have length := length_readDataFromDisk read
    have size := pieceSize_pos space.positive inside
    refine ⟨data, ?_, (acceptsPiece_placed placed inside space knows (by omega) length).mpr expected⟩
    rw [pieceOnDisk_placed placed inside space found]
    exact read

/-- Validation lists exactly the pieces whose bytes on disk the download would accept, whatever the disk and the hash
function are. -/
def ValidationAgrees (torrent : Torrent) (s : TorrentState) (layout : MultiFileInfo) (order : Arrangement) : Prop :=
  ∀ sha1 sha disk completed, (performValidation sha1 sha order disk layout torrent false).outcome = some completed →
    ∀ p, p ∈ completed ↔ ∃ data, torrent.pieceOnDisk layout disk p = some data ∧ s.AcceptsPiece sha p data

section Listed

variable (space : torrent.Space)
  (files : layout.files = torrent.placed.flatMap (entries rootDir filePriorities torrent.pieceLen))
include space files

theorem HashesAlike.validationAgrees (alike : torrent.HashesAlike order rootDir filePriorities)
    (knows : s.Knows torrent) : torrent.ValidationAgrees s layout order := by
  intro sha1 sha disk completed ended p
  unfold performValidation at ended
  rw [if_neg Bool.false_ne_true] at ended
  split at ended
  case h_1 => cases ended
  case h_2 found =>
    cases ended
    simp [pieceOnDisk, found]
  case h_3 allocated found =>
    rw [if_pos space.version] at ended
    rw [mem_validateV2 space.positive ended, validates_iff space files, accepted_iff space knows found]
    exact exists_congr fun x => and_congr_right fun placed => exists_congr fun i => and_congr_right fun inside =>
      and_congr_right fun _ => exists_congr fun data => and_congr_right fun _ => alike.accepts_iff placed inside data

theorem exists_validateV2 (sha : Sha256) (order : Arrangement)
    (read : ∀ y ∈ torrent.placed, ∀ j < y.pieces torrent.pieceLen, (torrent.readPiece allocated layout y j).isSome) :
    ∃ completed, (validateV2 allocated layout torrent sha order).outcome = some completed := by
  have decided :
      (layout.files.foldl (validateFileV2 allocated layout torrent sha order) ⟨[], some []⟩).outcome.isSome := by
    refine (foldl_extends fun _ file _ => validateFileV2_extends space.positive file).ends rfl
      fun file listed notPadding rootHash j within => ?_
    obtain ⟨y, placed, rfl⟩ : ∃ y ∈ torrent.placed, y.info rootDir filePriorities torrent.pieceLen = file := by
      rw [← mem_map, ← filter_entries, ← files]
      exact mem_filter.mpr ⟨listed, by simp [notPadding]⟩
    rw [filePieceCount_info space.positive] at within
    rw [verdictV2_info placed within space, Option.isSome_map]
    exact read y placed j within
  obtain ⟨listed, isListed⟩ := Option.isSome_iff_exists.mp decided
  refine ⟨(listed.insertionSort (· ≤ ·)).dedup, ?_⟩
  simp only [validateV2, isListed]

section

variable (agrees : torrent.ValidationAgrees s layout order) (knows : s.Knows torrent)
  (size : layout.totalSize = filePieces torrent.pieceLen torrent.sortedV2Roots * torrent.pieceLen)
include agrees knows size

theorem ValidationAgrees.zeros (placed : x ∈ torrent.placed) (inside : i < x.pieces torrent.pieceLen) (sha : Sha256)
    (zeros : Bytes) (isZeros : zeros = replicate (min torrent.pieceLen (x.length - i * torrent.pieceLen)) 0) :
    torrent.validationHash order (x.info rootDir filePriorities torrent.pieceLen) i =
        some (sha.computeV2PieceRoot zeros torrent.pieceLen) ↔
      torrent.downloadHash x i = some (sha.computeV2PieceRoot zeros (torrent.contextLength x)) := by
  have listed : x.info rootDir filePriorities torrent.pieceLen ∈ layout.files := by
    rw [files]
    exact mem_flatMap.mpr ⟨x, placed, .head _⟩
  obtain ⟨allocated, zeroed, found⟩ := createAndAllocateFiles_zeroDisk listed rfl
  have consecutive : Consecutive 0 layout.files layout.totalSize := by
    have entries := @consecutive_entries torrent rootDir filePriorities space.positive torrent.sortedV2Roots 0 0 0
    rw [Nat.zero_mul, Nat.zero_add] at entries
    rw [files, size]
    exact entries
  have read : ∀ y ∈ torrent.placed, ∀ j < y.pieces torrent.pieceLen, torrent.readPiece allocated layout y j =
      some (replicate (min torrent.pieceLen (y.length - j * torrent.pieceLen)) 0) := by
    intro y other j within
    have endOfPiece := piece_end_le other within
    exact zeroed.readDataFromDisk_eq consecutive (size ▸ space.bytes) (pieceSize_pos space.positive within) (by omega)
  obtain ⟨completed, ended⟩ := exists_validateV2 space files sha order
    fun y other j within => by rw [read y other j within]; rfl
  have same := agrees (fun _ => []) sha zeroDisk completed
    (by simp only [performValidation, Bool.false_eq_true, if_false, found, if_pos space.version, ended]) (x.first + i)
  rw [mem_validateV2 space.positive ended, validates_iff space files, accepted_iff space knows found,
    exists_piece_iff placed inside, exists_piece_iff placed inside, read x placed i inside, ← isZeros] at same
  simpa using same

theorem ValidationAgrees.hashesAlike : torrent.HashesAlike order rootDir filePriorities := by
  intro x placed i inside
  obtain ⟨n, isN⟩ : ∃ n, n = min torrent.pieceLen (x.length - i * torrent.pieceLen) := ⟨_, rfl⟩
  have nonempty : 0 < n := isN ▸ pieceSize_pos space.positive inside
  have fits : n ≤ torrent.contextLength x := by
    unfold contextLength
    split_ifs <;> omega
  have zeros := fun sha => agrees.zeros space files knows size placed inside sha (replicate n 0) (by rw [isN])
  have same : ∀ {digest : Bytes}, digest.length = 32 →
      (torrent.validationHash order (x.info rootDir filePriorities torrent.pieceLen) i = some digest ↔
        torrent.downloadHash x i = some digest) := by
    intro digest width
    have constant := zeros (constantHash digest width)
    have length : 0 < (replicate n (0 : UInt8)).length := by rwa [length_replicate]
    rwa [computeV2PieceRoot_constantHash width length (by rw [length_replicate]; omega),
      computeV2PieceRoot_constantHash width length (by rwa [length_replicate])] at constant
  constructor
  · apply Option.ext
    intro digest
    by_cases width : digest.length = 32
    · exact (digestOf_eq_some_iff _ width).trans ((same width).trans (digestOf_eq_some_iff _ width).symm)
    · exact iff_of_false (fun met => width (length_of_digestOf met)) fun met => width (length_of_digestOf met)
  · intro met short
    obtain ⟨digest, met⟩ := Option.isSome_iff_exists.mp met
    have width := length_of_digestOf met
    have expected := (digestOf_eq_some_iff _ width).mp met
    have isContext : torrent.contextLength x = x.length := if_pos short
    have order : treeHeight (divCeil x.length blockSize) ≤ treeHeight (divCeil torrent.pieceLen blockSize) :=
      Nat.clog_mono_right 2 (Nat.div_le_div_right (by omega))
    by_contra differ
    have counted := zeros (chainHash digest width (treeHeight (divCeil torrent.pieceLen blockSize)))
    have small : treeHeight (divCeil torrent.pieceLen blockSize) < 256 := treeHeight_pieceLen_lt
    rw [computeV2PieceRoot_chainHash width small nonempty (by omega) le_rfl, isContext,
      computeV2PieceRoot_chainHash width small nonempty (by omega) order, chainNode, if_pos rfl, same width,
      expected] at counted
    exact chainNode_ne (lt_of_le_of_ne order differ) (Option.some.inj (counted.mp rfl)).symm

end

end Listed

/-- Without files in the tree nothing is accepted. -/
theorem validationAgrees_of_no_files (none : torrent.sortedV2Roots = []) (space : torrent.Space)
    (knows : s.Knows torrent) : torrent.ValidationAgrees s layout order := by
  have noRoots : torrent.getV2Roots = [] := by
    have perm := perm_insertionSort (fun a b : Bytes × ℕ × Bytes => a.1 ≤ b.1) torrent.getV2Roots
    rw [show torrent.getV2Roots.insertionSort (fun a b => a.1 ≤ b.1) = [] from none] at perm
    exact perm.symm.eq_nil
  have unknown : ∀ file, rootOfFile torrent order file = Option.none := by
    intro file
    have empty : order.arrange 0 (∅ : AList fun _ : Bytes => Bytes).entries = [] := (order.arrange_perm 0 _).eq_nil
    simp only [rootOfFile, noRoots, foldl_nil, empty, find?_nil, Option.map_none]
  have nothing : ∀ {sha : Sha256} {p : ℕ} {data : Bytes}, ¬s.AcceptsPiece sha p data := by
    intro sha p data accepts
    obtain ⟨x, placed, -⟩ := placed_of_acceptsPiece space knows accepts
    rw [Torrent.placed, none] at placed
    cases placed
  intro sha1 sha disk completed ended p
  simp only [nothing, and_false, exists_false, iff_false]
  intro member
  unfold performValidation at ended
  rw [if_neg Bool.false_ne_true] at ended
  split at ended
  case h_1 => cases ended
  case h_2 =>
    cases ended
    cases member
  case h_3 allocated found =>
    rw [if_pos space.version] at ended
    obtain ⟨file, -, -, rootHash, known, -⟩ := (mem_validateV2 space.positive ended p).mp member
    rw [unknown] at known
    cases known

/-- The parser lists the files of the tree. -/
theorem completeMetadata_files (pure : raw.info.files = []) :
    (completeMetadata raw).info.files =
      (completeMetadata raw).sortedV2Roots.flatMap (polyfillFile (completeMetadata raw).pieceLen) := by
  have kept : (completeMetadata raw).sortedV2Roots = raw.sortedV2Roots ∧
      (completeMetadata raw).pieceLen = raw.pieceLen ∧
      (completeMetadata raw).info.files = (polyfillV2Files raw).info.files := by
    unfold completeMetadata polyfillV2Files
    dsimp only
    split_ifs <;> exact ⟨rfl, rfl, rfl⟩
  rw [kept.1, kept.2.1, kept.2.2, polyfillV2Files_files pure]

/-- Validation of a version 2 torrent agrees with the download on every disk exactly if both expect the same hashes, in
trees of the same height. -/
theorem validation_agrees_iff (pure : raw.info.files = []) (parsed : torrent = completeMetadata raw)
    (space : torrent.Space) (knows : s.Knows torrent) {name : String} {length : ℕ}
    (built : layout = new rootDir name torrent.info.files length filePriorities) :
    torrent.ValidationAgrees s layout order ↔ torrent.HashesAlike order rootDir filePriorities := by
  by_cases some : torrent.sortedV2Roots = []
  · refine ⟨fun _ x placed => ?_, fun _ => validationAgrees_of_no_files some space knows⟩
    rw [Torrent.placed, some] at placed
    cases placed
  have listed : torrent.info.files = torrent.sortedV2Roots.flatMap (polyfillFile torrent.pieceLen) := by
    subst parsed
    exact completeMetadata_files pure
  rw [space.layout_eq_of_files some listed] at built
  have files := congrArg files built
  have size := congrArg totalSize built
  constructor
  · exact fun agrees => agrees.hashesAlike space files knows size
  · exact fun alike => alike.validationAgrees space files knows

def singleFileTorrent (pieceLength length : ℤ) (root : Bytes) (layers : List (Bytes × Value)) : Torrent where
  info :=
    { pieceLength
      pieces := []
      files := []
      name := "t"
      length := 0
      metaVersion := some 2
      fileTree := some (.dict [(asciiBytes "f",
        .dict [([], .dict [(asciiBytes "length", .int length), (asciiBytes "pieces root", .bytes root)])])]) }
  pieceLayers := some (.dict layers)

/-- The state after metadata has arrived, as far as hashes are concerned. -/
def knowingState (torrent : Torrent) : TorrentState :=
  { emptyState with
    torrent := some torrent
    pieceToRoots := torrent.calculateV2Mapping.pieceToRoots }

theorem knows_knowingState (torrent : Torrent) : (knowingState torrent).Knows torrent := ⟨rfl, rfl, fun _ => rfl⟩

/-- A file of four bytes in a torrent with pieces of 32 KiB, whose root is the digest of its content. -/
def shortFile : Torrent := singleFileTorrent 32768 4 (toyHash.digest [1, 2, 3, 4]) []

/-- The content of the short file is accepted when it is downloaded, and not found when it is on disk. -/
theorem short_file_not_validated : ∃ torrent layout, shortFile.info.files = [] ∧ torrent = completeMetadata shortFile ∧
    torrent.Space ∧ layout = new "d" "t" torrent.info.files 0 (fun _ => none) ∧
    (performValidation zeroDigest toyHash .stored (fun _ => .file [1, 2, 3, 4]) layout torrent false).outcome =
      some [] ∧
    torrent.pieceOnDisk layout (fun _ => .file [1, 2, 3, 4]) 0 = some [1, 2, 3, 4] ∧
    (knowingState torrent).Knows torrent ∧ (knowingState torrent).AcceptsPiece toyHash 0 [1, 2, 3, 4] := by
  have space : (completeMetadata shortFile).Space := ⟨rfl, by decide, by decide +kernel, by decide +kernel⟩
  have placed :
      ∃ x ∈ (completeMetadata shortFile).placed, x.first = 0 ∧ 0 < x.pieces (completeMetadata shortFile).pieceLen ∧
      [1, 2, 3, 4].length =
        min (completeMetadata shortFile).pieceLen (x.length - 0 * (completeMetadata shortFile).pieceLen) ∧
      (completeMetadata shortFile).downloadHash x 0 = some (toyHash.computeV2PieceRoot [1, 2, 3, 4]
        ((completeMetadata shortFile).contextLength x)) := by decide +kernel
  refine ⟨completeMetadata shortFile, _, rfl, rfl, space, rfl, by decide +kernel, by decide +kernel,
    knows_knowingState _, ?_⟩
  obtain ⟨x, member, first, inside, length, expected⟩ := placed
  have accepts := (acceptsPiece_placed member inside space (knows_knowingState _) (by decide) length).mpr expected
  rwa [first] at accepts

/-- A file of two pieces whose layer is known. -/
def layeredFile : Torrent :=
  singleFileTorrent 4 8 (replicate 32 9) [(replicate 32 9, .bytes (replicate 64 7))]

/-- With stored layers and files longer than a piece, validation agrees with the download. -/
theorem layered_file_validated :
    (completeMetadata layeredFile).ValidationAgrees (knowingState (completeMetadata layeredFile))
      (new "d" "t" (completeMetadata layeredFile).info.files 0 fun _ => none) .stored := by
  refine (validation_agrees_iff rfl rfl ⟨rfl, by decide, by decide +kernel, by decide +kernel⟩
    (knows_knowingState _) rfl).mpr ?_
  unfold HashesAlike
  decide +kernel

end Torrent

end Superseedr
