import Superseedr.Soundness.PieceSizes

/-! # Assembling blocks into pieces

Blocks of a piece are copied into a buffer, and a mask tells which blocks of the grid have arrived. The mask is
indexed by the offset of a block alone. Blocks that fill their place in the grid make it agree with the bytes:
every byte of a completed buffer has been received. Shorter or misaligned blocks complete a piece with bytes that
nobody sent, and an empty block at the end of a piece panics.
-/

namespace Superseedr

open List Option BlockManager

variable {sized : PieceManager} {first : Bytes}

theorem getElem?_splice {α : Type*} {l block : List α} {offset : ℕ} (fits : offset + block.length ≤ l.length) (i : ℕ) :
    (l.take offset ++ block ++ l.drop (offset + block.length))[i]? =
      if offset ≤ i ∧ i < offset + block.length then block[i - offset]? else l[i]? := by
  have front : (l.take offset).length = offset := length_take_of_le (by omega)
  rw [append_assoc, getElem?_append, front, getElem?_append, getElem?_drop, getElem?_take]
  split_ifs <;> first | rfl | omega | skip
  congr 1
  omega

/-- What a method of a piece manager makes of it, other than handling a block. -/
inductive Calls (pm : PieceManager) : PieceManager → Prop where
  | setGeometry (pieceLength totalLength pieceOverrides validationComplete) :
      Calls pm (pm.setGeometry pieceLength totalLength pieceOverrides validationComplete)
  | setInitialFields (numPieces validationComplete) : Calls pm (pm.setInitialFields numPieces validationComplete)
  | applyPriorities {newPriorities pm' cancelled} (run : pm.applyPriorities newPriorities = some (pm', cancelled)) :
      Calls pm pm'
  | markAsComplete {p pm' owners} (run : pm.markAsComplete p = some (pm', owners)) : Calls pm pm'
  | resetPieceAssembly (p) : Calls pm (pm.resetPieceAssembly p)
  | requeuePendingToNeed {p pm'} (run : pm.requeuePendingToNeed p = some pm') : Calls pm pm'
  | releasePendingPeerOrRequeue {p k pm'} (run : pm.releasePendingPeerOrRequeue p k = some pm') : Calls pm pm'
  | updateRarity (peerBitfields) : Calls pm (pm.updateRarity peerBitfields)
  | markAsPending (p k) : Calls pm (pm.markAsPending p k)
  | clearAssemblyBuffers : Calls pm pm.clearAssemblyBuffers

inductive Assembled (allowed : PieceManager → ℕ → ℕ → Bytes → ℕ → Prop) :
    PieceManager → List (ℕ × ℕ × Bytes) → Prop where
  | new : Assembled allowed .new []
  | call {pm pm' blocks} (before : Assembled allowed pm blocks) (call : Calls pm pm') : Assembled allowed pm' blocks
  | handleBlock {pm pm' blocks p offset data size answer} (before : Assembled allowed pm blocks)
      (admitted : allowed pm p offset data size) (handled : pm.handleBlock p offset data size = some (pm', answer)) :
      Assembled allowed pm' ((p, offset, data) :: blocks)

variable {received : ℕ → Bytes → Prop} {a : LegacyAssembler} {bm : BlockManager} {pm pm' : PieceManager}
  {p q offset size : ℕ} {data : Bytes}

/-- A byte of a buffer has been received. -/
def Copied (received : ℕ → Bytes → Prop) (buffer : Bytes) (i : ℕ) : Prop :=
  ∃ offset data, received offset data ∧ offset ≤ i ∧ data[i - offset]? = buffer[i]?

structure LegacyAssembler.Holds (received : ℕ → Bytes → Prop) (a : LegacyAssembler) : Prop where
  cells : a.mask.length = blocksInPiece a.buffer.length
  total : a.totalBlocks = a.mask.length
  counted : a.receivedBlocks = a.mask.count true
  copied : ∀ i < a.buffer.length, a.mask[i / blockSize]? = some true → Copied received a.buffer i

theorem LegacyAssembler.Holds.mono {more : ℕ → Bytes → Prop} (holds : a.Holds received)
    (further : ∀ offset data, received offset data → more offset data) : a.Holds more :=
  { holds with
    copied := fun i inside marked =>
      (holds.copied i inside marked).imp fun _ => .imp fun _ => .imp_left (further _ _) }

/-- A block that fits the buffer and whose place is not marked is not empty, starts on the grid and reaches the next
block or the end. -/
def LegacyAssembler.Takes (a : LegacyAssembler) (offset : ℕ) (data : Bytes) : Prop :=
  offset + data.length ≤ a.buffer.length → a.mask[offset / blockSize]? = some true ∨
    blockSize ∣ offset ∧ 0 < data.length ∧ min blockSize (a.buffer.length - offset) ≤ data.length

theorem LegacyAssembler.holds_assemblerFor (kept : ∀ a, bm.legacyBuffers p = some a → a.Holds received) :
    (bm.assemblerFor p).Holds received := by
  unfold assemblerFor
  cases known : bm.legacyBuffers p with
  | some a => exact kept a known
  | none => exact ⟨by simp, by simp, by simp [count_replicate], by simp +contextual [getElem?_replicate]⟩

theorem LegacyAssembler.Holds.accept (holds : a.Holds received) (whole : a.Takes offset data)
    (among : received offset data) :
    ∃ filled, (∀ position length, acceptBlock a ⟨p, offset / blockSize, offset, position, length⟩ data = some filled) ∧
      filled.Holds received := by
  dsimp only [acceptBlock]
  split_ifs with fits
  · by_cases before : a.mask[offset / blockSize]? = some true
    · exact ⟨a, fun _ _ => by simp only [before], holds⟩
    obtain ⟨⟨k, grid⟩, nonempty, reaches⟩ := (whole fits).resolve_left before
    have slot : offset / blockSize < a.mask.length := by
      rw [holds.cells, ← mul_blockSize_lt]
      exact (Nat.div_mul_le_self _ _).trans_lt (by omega)
    have unmarked : a.mask[offset / blockSize] = false := by
      rwa [getElem?_eq_getElem slot, some_inj, Bool.not_eq_true] at before
    have kept : (a.buffer.take offset ++ data ++ a.buffer.drop (offset + data.length)).length = a.buffer.length := by
      simp only [length_append, length_take, length_drop]
      omega
    simp only [getElem?_eq_getElem slot, unmarked]
    refine ⟨_, fun _ _ => rfl, ?_, ?_, ?_, fun i inside marked => ?_⟩
    · rw [length_set, kept]
      exact holds.cells
    · rw [length_set]
      exact holds.total
    · rw [count_set slot, unmarked, holds.counted]
      rfl
    · simp only [Copied, getElem?_splice fits]
      split_ifs with copied
      · exact ⟨_, _, among, copied.1, rfl⟩
      rw [kept] at inside
      refine holds.copied i inside ?_
      rwa [getElem?_set_ne] at marked
      simp only [grid, blockSize] at copied reaches ⊢
      omega
  · exact ⟨a, fun _ _ => rfl, holds⟩

abbrev LegacyAssembler.Full (a : LegacyAssembler) : Prop := a.receivedBlocks = a.totalBlocks

theorem LegacyAssembler.Holds.full_iff (holds : a.Holds received) :
    a.Full ↔ ∀ j < a.mask.length, a.mask[j]? = some true := by
  rw [Full, holds.counted, holds.total, count_eq_length]
  constructor
  · intro all j inside
    rw [getElem?_eq_getElem inside, ← all _ (getElem_mem inside)]
  · intro all bit member
    obtain ⟨j, inside, rfl⟩ := getElem_of_mem member
    exact (some.inj ((getElem?_eq_getElem inside).symm.trans (all j inside))).symm

theorem LegacyAssembler.Holds.complete (holds : a.Holds received) (full : a.Full) {i : ℕ}
    (inside : i < a.buffer.length) : Copied received a.buffer i := by
  refine holds.copied i inside (holds.full_iff.mp full _ ?_)
  rw [holds.cells, ← mul_blockSize_lt]
  exact (Nat.div_mul_le_self _ _).trans_lt inside

namespace PieceManager

abbrev assembler (pm : PieceManager) (p : ℕ) : LegacyAssembler := pm.blockManager.assemblerFor p

def store (pm : PieceManager) (p : ℕ) (entry : Option LegacyAssembler) : PieceManager :=
  { pm with
    blockManager :=
      { pm.blockManager with legacyBuffers := fun q => if q = p then entry else pm.blockManager.legacyBuffers q } }

theorem handleBlock_accepted {filled : LegacyAssembler} (isSized : pm.fitted p size = sized)
    (inside : ¬satAdd32 offset (u32 data.length) > sized.blockManager.calculatePieceSize p)
    (lacking : ¬(sized.assembler p).Full) (accepted : ∀ position length,
      acceptBlock (sized.assembler p) ⟨p, offset / blockSize, offset, position, length⟩ data = some filled) :
    pm.handleBlock p offset data size = some
      (if filled.Full then (sized.store p none, some filled.buffer) else (sized.store p (some filled), none)) := by
  subst isSized
  rw [handleBlock_eq, if_neg inside]
  simp only [handleV1BlockBuffering]
  rw [if_neg lacking, accepted]
  by_cases done : filled.Full
  · rw [if_pos done]
    exact congrArg _ (if_pos done)
  · rw [if_neg done]
    exact congrArg _ (if_neg done)

theorem handleBlock_whole (isSized : pm.fitted p size = sized) (holds : (sized.assembler p).Holds received)
    (whole : (sized.assembler p).Takes offset data) (among : received offset data)
    (inside : ¬satAdd32 offset (u32 data.length) > sized.blockManager.calculatePieceSize p) :
    ∃ filled : LegacyAssembler, filled.Holds received ∧ pm.handleBlock p offset data size = some
        (if (sized.assembler p).Full ∨ ¬filled.Full then (sized.store p (some filled), none)
        else (sized.store p none, some filled.buffer)) := by
  by_cases full : (sized.assembler p).Full
  · refine ⟨_, holds, ?_⟩
    subst isSized
    rw [handleBlock_eq, if_neg inside]
    simp only [handleV1BlockBuffering]
    rw [if_pos full, if_pos (.inl full)]
    rfl
  obtain ⟨filled, accepted, good⟩ := holds.accept whole among
  refine ⟨filled, good, (handleBlock_accepted isSized inside full accepted).trans ?_⟩
  simp [full, ite_not]

end PieceManager

section Robustness

variable {blocks : List (ℕ × ℕ × Bytes)}

/-- A block fills its place in the buffer of its piece, unless the place is filled already. -/
def PieceManager.Fills (pm : PieceManager) (p offset : ℕ) (data : Bytes) (size : ℕ) : Prop :=
  ((pm.fitted p size).assembler p).Takes offset data

def Agrees (pm : PieceManager) (blocks : List (ℕ × ℕ × Bytes)) : Prop :=
  ∀ q a, pm.blockManager.legacyBuffers q = some a → a.Holds fun offset data => (q, offset, data) ∈ blocks

theorem Agrees.handle (agrees : Agrees pm blocks) (fills : pm.Fills p offset data size) :
    ∃ next answer, pm.handleBlock p offset data size = some (next, answer) ∧ Agrees next ((p, offset, data) :: blocks) ∧
      ∀ buffer ∈ answer, ∀ i < buffer.length,
        Copied (fun start bytes => (p, start, bytes) ∈ (p, offset, data) :: blocks) buffer i := by
  have fitted : Agrees (pm.fitted p size) ((p, offset, data) :: blocks) := by
    unfold PieceManager.fitted
    split_ifs <;> exact fun q a found => (agrees q a found).mono fun _ _ => .tail _
  have stored : ∀ entry : Option LegacyAssembler,
      (∀ a, entry = some a → a.Holds fun start bytes => (p, start, bytes) ∈ (p, offset, data) :: blocks) →
      Agrees ((pm.fitted p size).store p entry) ((p, offset, data) :: blocks) := by
    intro entry good q a found
    dsimp only [PieceManager.store] at found
    split_ifs at found with same
    · exact same ▸ good a found
    · exact fitted q a found
  by_cases outside : satAdd32 offset (u32 data.length) > (pm.fitted p size).blockManager.calculatePieceSize p
  · exact ⟨pm.fitted p size, none, by rw [PieceManager.handleBlock_eq, if_pos outside], fitted, nofun⟩
  obtain ⟨filled, holds, handled⟩ := PieceManager.handleBlock_whole rfl
    (LegacyAssembler.holds_assemblerFor (fitted p)) fills (.head _) outside
  rw [handled]
  split_ifs with unfinished
  · exact ⟨_, _, rfl, stored _ fun a same => some.inj same ▸ holds, nofun⟩
  · refine ⟨_, _, rfl, stored none nofun, ?_⟩
    rintro _ ⟨⟩ i inside
    exact holds.complete (by tauto) inside

/-- No method but the handling of a block makes an assembler. -/
theorem Calls.kept (call : Calls pm pm') (found : pm'.blockManager.legacyBuffers q = some a) :
    pm.blockManager.legacyBuffers q = some a := by
  have dropped : ∀ {pm : PieceManager} {p}, (pm.store p none).blockManager.legacyBuffers q = some a →
      pm.blockManager.legacyBuffers q = some a := by
    intro pm p found
    dsimp only [PieceManager.store] at found
    split_ifs at found
    exact found
  have requeued : ∀ {pm : PieceManager} {p}, pm.requeuePendingToNeed p = some pm' →
      pm.blockManager.legacyBuffers q = some a := by
    intro pm p run
    obtain ⟨skipped, -, rfl⟩ := map_eq_some_iff.mp run
    exact dropped found
  cases call with
  | setGeometry | setInitialFields | updateRarity | markAsPending => exact found
  | clearAssemblyBuffers => cases found
  | applyPriorities run =>
    have same := congrArg Prod.snd (PieceManager.marks_applyPriorities run)
    exact (congrArg (BlockManager.legacyBuffers · q) same).symm.trans found
  | markAsComplete run =>
    unfold PieceManager.markAsComplete at run
    split at run <;> cases run
    · exact found
    · exact dropped found
  | resetPieceAssembly => exact dropped found
  | requeuePendingToNeed run => exact requeued run
  | releasePendingPeerOrRequeue run =>
    unfold PieceManager.releasePendingPeerOrRequeue at run
    dsimp only at run
    split at run
    · exact requeued run
    split_ifs at run
    · cases run
      exact found
    · have kept := requeued run
      exact kept

theorem Assembled.agrees (assembled : Assembled PieceManager.Fills pm blocks) : Agrees pm blocks := by
  induction assembled with
  | new => nofun
  | call _ call ih => exact fun q a found => ih q a (call.kept found)
  | handleBlock _ fills handled ih =>
    obtain ⟨next, answer, run, agrees, -⟩ := ih.handle fills
    cases handled.symm.trans run
    exact agrees

/-- While all blocks fill the places that are free, no block panics and every byte of a completed piece has been
received. -/
theorem assembled_bytes_received (assembled : Assembled PieceManager.Fills pm blocks)
    (fills : pm.Fills p offset data size) :
    ∃ next answer, pm.handleBlock p offset data size = some (next, answer) ∧ ∀ buffer ∈ answer, ∀ i < buffer.length,
      Copied (fun start bytes => (p, start, bytes) ∈ (p, offset, data) :: blocks) buffer i := by
  obtain ⟨next, answer, handled, -, copied⟩ := assembled.agrees.handle fills
  exact ⟨next, answer, handled, copied⟩

/-- A single byte completes a piece of two bytes, and an empty block at the end of a piece panics. -/
theorem unreceived_byte :
    (∃ pm next, Assembled (fun _ _ _ _ _ => True) pm [] ∧ pm.handleBlock 0 0 [7] 2 = some (next, some [7, 0]) ∧
      ¬Copied (fun start bytes => (0, start, bytes) ∈ [(0, 0, [7])]) [7, 0] 1) ∧
    ∃ pm, Assembled (fun _ _ _ _ _ => True) pm [] ∧ pm.handleBlock 0 16384 [] 16384 = none := by
  refine ⟨⟨_, _, .call .new (.setGeometry 2 2 (fun _ => none) false), rfl, ?_⟩,
    _, .call .new (.setGeometry 16384 16384 (fun _ => none) false), ?_⟩
  · rintro ⟨start, bytes, member, -, same⟩
    cases mem_singleton.mp member
    cases same
  · rw [← isNone_iff_eq_none]
    decide +kernel

def twoBlocks : PieceManager := PieceManager.new.setGeometry 16385 16385 (fun _ => none) false

def half (first : Bytes) : LegacyAssembler := ⟨first ++ [0], 1, 2, [true, false]⟩

theorem acceptBlock_both {n : ℕ} (sized : first.length = n) (position length : ℕ) :
    acceptBlock ⟨replicate (n + 1) 0, 0, 2, [false, false]⟩ ⟨0, 0, 0, position, length⟩ first = some (half first) ∧
    acceptBlock (half first) ⟨0, 1, n, position, length⟩ [8] = some ⟨first ++ [8], 2, 2, [true, true]⟩ := by
  subst sized
  simp [acceptBlock, half]

theorem handleBlock_first (sized : first.length = 16384) :
    twoBlocks.handleBlock 0 0 first 16385 = some (twoBlocks.store 0 (some (half first)), none) := by
  refine Eq.trans (PieceManager.handleBlock_accepted rfl ?_ (by decide) fun position length =>
    (acceptBlock_both sized position length).1) rfl
  rw [sized]
  decide

theorem handleBlock_second (sized : first.length = 16384) :
    ∃ next, (twoBlocks.store 0 (some (half first))).handleBlock 0 16384 [8] 16385 = some (next, some (first ++ [8])) :=
  ⟨_, Eq.trans (PieceManager.handleBlock_accepted rfl (not_lt.mpr (le_refl 16385)) (show ¬1 = 2 by decide)
    fun position length => (acceptBlock_both sized position length).2) rfl⟩

theorem half_fills (sized : first.length = 16384) :
    (twoBlocks.store 0 (some (half first))).Fills 0 16384 [8] 16385 := by
  refine fun _ => .inr ⟨⟨1, rfl⟩, Nat.one_pos, (min_le_right _ _).trans ?_⟩
  have short : (first ++ [0]).length ≤ 16384 + 1 := by rw [length_append, sized, length_singleton]
  exact Nat.sub_le_iff_le_add'.mpr short

theorem assembled_bytes_received_pair : ∃ pm next, ∃ first : Bytes,
    Assembled PieceManager.Fills pm [(0, 0, first)] ∧
    pm.handleBlock 0 16384 [8] 16385 = some (next, some (first ++ [8])) ∧ ∀ i < (first ++ [8]).length,
      Copied (fun start bytes => (0, start, bytes) ∈ [(0, 16384, [8]), (0, 0, first)]) (first ++ [8]) i := by
  have sized : (replicate 16384 7 : Bytes).length = 16384 := length_replicate
  have assembled : Assembled PieceManager.Fills _ [(0, 0, replicate 16384 7)] :=
    .handleBlock (.call .new (.setGeometry 16385 16385 (fun _ => none) false))
      (fun _ => .inr ⟨⟨0, rfl⟩, by rw [sized]; decide, by rw [sized]; exact min_le_left _ _⟩) (handleBlock_first sized)
  obtain ⟨next, completed⟩ := handleBlock_second sized
  obtain ⟨_, _, handled, copied⟩ := assembled_bytes_received assembled (half_fills sized)
  cases handled.symm.trans completed
  exact ⟨_, next, _, assembled, completed, copied _ rfl⟩

end Robustness

end Superseedr
