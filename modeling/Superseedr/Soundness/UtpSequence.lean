import Superseedr.Model.Utp

/-! # Sequence numbers and selective acknowledgements

Counted from the start, sequence numbers of 16 bits stand for places in the stream as long as only nearby places
are compared. The mask of a selective acknowledgement says exactly which of the packets in its reach are
buffered.
-/

namespace Superseedr.Utp

open List

variable {i j a : ℕ} {ackNr seqNr first : UInt16} {buffered : List UInt16}

section Numbering

/-- The sequence number of a place. -/
def numbered (first : UInt16) (i : ℕ) : UInt16 := first + UInt16.ofNat i

theorem toNat_numbered : (numbered first i).toNat = (first.toNat + i) % 2 ^ 16 := by
  rw [numbered, UInt16.toNat_add, UInt16.toNat_ofNat']
  omega

theorem numbered_zero : numbered first 0 = first := by
  rw [← UInt16.toNat_inj, toNat_numbered]
  have := first.toNat_lt
  omega

theorem numbered_succ : numbered first (i + 1) = numbered first i + 1 := by
  rw [← UInt16.toNat_inj, UInt16.toNat_add, toNat_numbered, toNat_numbered]
  have : (1 : UInt16).toNat = 1 := rfl
  omega

theorem numbered_inj (same : numbered first i = numbered first j) (before : i < j + 2 ^ 16) (after : j < i + 2 ^ 16) :
    i = j := by
  rw [← UInt16.toNat_inj, toNat_numbered, toNat_numbered] at same
  omega

theorem toNat_numbered_sub : (numbered first i - numbered first j).toNat = (2 ^ 16 - j % 2 ^ 16 + i) % 2 ^ 16 := by
  rw [UInt16.toNat_sub, toNat_numbered, toNat_numbered]
  omega

theorem lt_of_seqGt (greater : seqGt (numbered first i) (numbered first j) = true) (recent : j ≤ i + 2 ^ 15) :
    j < i := by
  simp only [seqGt, Bool.and_eq_true, decide_eq_true_eq, UInt16.lt_iff_toNat_lt, toNat_numbered_sub] at greater
  have half : (0x8000 : UInt16).toNat = 2 ^ 15 := rfl
  rcases Nat.lt_trichotomy i j with before | rfl | after
  · omega
  · exact absurd rfl greater.1
  · exact after

/-- How far a number lies behind an acknowledged one. -/
theorem toNat_ack_sub (first : UInt16) (a i : ℕ) :
    (numbered first a - 1 - numbered first i).toNat = (2 ^ 16 - (i + 1) % 2 ^ 16 + a) % 2 ^ 16 := by
  rw [UInt16.toNat_sub, UInt16.toNat_sub, toNat_numbered, toNat_numbered]
  have : (1 : UInt16).toNat = 1 := rfl
  omega

theorem seqLte_ack (before : i < a) (recent : a ≤ i + 2 ^ 15) :
    seqLte (numbered first i) (numbered first a - 1) = true := by
  simp only [seqLte, Bool.or_eq_true, decide_eq_true_eq, UInt16.lt_iff_toNat_lt, toNat_ack_sub]
  have half : (0x8000 : UInt16).toNat = 2 ^ 15 := rfl
  right
  omega

/-- Places that are not taken are not acknowledged, unless the acknowledgement is too old. -/
theorem not_seqLte_ack (behind : a ≤ i) (recent : i < a + 2 ^ 15) :
    seqLte (numbered first i) (numbered first a - 1) = false := by
  have half : (0x8000 : UInt16).toNat = 2 ^ 15 := rfl
  simp only [seqLte, Bool.or_eq_false_iff, decide_eq_false_iff_not, UInt16.lt_iff_toNat_lt, toNat_ack_sub]
  refine ⟨fun same => ?_, by omega⟩
  have distance := toNat_ack_sub first a i
  rw [← same, UInt16.sub_self] at distance
  have zero : (0 : UInt16).toNat = 0 := rfl
  omega

end Numbering

section Masks

def maskBit (mask : Bytes) (bitIndex : ℕ) : Bool :=
  mask[bitIndex / 8]?.any fun byte => byte &&& (1 <<< UInt8.ofNat (bitIndex % 8)) ≠ 0

theorem shift_and_shift_eq_zero_iff : ∀ i j : Fin 8,
    (1 : UInt8) <<< UInt8.ofNat i.val &&& 1 <<< UInt8.ofNat j.val = 0 ↔ i ≠ j := by
  decide

theorem or_shift_and_shift_eq_zero_iff (byte : UInt8) (iBound : i < 8) (jBound : j < 8) :
    (byte ||| 1 <<< UInt8.ofNat i) &&& 1 <<< UInt8.ofNat j = 0 ↔ byte &&& 1 <<< UInt8.ofNat j = 0 ∧ i ≠ j := by
  have distributes : (byte ||| 1 <<< UInt8.ofNat i) &&& 1 <<< UInt8.ofNat j =
      byte &&& 1 <<< UInt8.ofNat j ||| 1 <<< UInt8.ofNat i &&& 1 <<< UInt8.ofNat j := by
    apply UInt8.eq_of_toBitVec_eq
    ext
    simp [Bool.and_or_distrib_right]
  have apart := shift_and_shift_eq_zero_iff ⟨i, iBound⟩ ⟨j, jBound⟩
  rw [distributes, UInt8.or_eq_zero_iff, apart, ne_eq, Fin.mk.injEq]

theorem maskBit_setBit (mask : Bytes) (inside : i / 8 < mask.length) :
    maskBit (setBit mask i) j = true ↔ maskBit mask j = true ∨ j = i := by
  unfold maskBit setBit
  rw [getElem?_modify]
  by_cases sameByte : i / 8 = j / 8
  · have byte := getElem?_eq_getElem (l := mask) (i := j / 8) (sameByte ▸ inside)
    have same : i % 8 = j % 8 ↔ j = i := by omega
    simp only [byte, sameByte, if_true, Option.map_eq_map, Option.map_some, Option.any_some, decide_eq_true_eq, ne_eq,
      or_shift_and_shift_eq_zero_iff _ (Nat.mod_lt i (by decide : 0 < 8)) (Nat.mod_lt j (by decide : 0 < 8)), same,
      not_and_or, not_not]
  · have apart : j ≠ i := fun same => sameByte (congrArg (· / 8) same.symm)
    simp only [if_neg sameByte, apart, or_false, Option.map_eq_map, Option.map_id']

variable {mask : Bytes}

theorem maskBit_foldl_setBit (bits : List ℕ) (inside : ∀ i ∈ bits, i / 8 < mask.length) :
    maskBit (bits.foldl setBit mask) j = true ↔ maskBit mask j = true ∨ j ∈ bits := by
  induction bits generalizing mask with
  | nil => simp only [foldl_nil, not_mem_nil, or_false]
  | cons i rest ih =>
    have kept : (setBit mask i).length = mask.length := length_modify ..
    rw [foldl_cons, ih fun k member => kept ▸ inside k (.tail i member),
      maskBit_setBit mask (inside i (.head _)), mem_cons, or_assoc]

def reachedBits (ackNr : UInt16) (buffered : List UInt16) : List ℕ :=
  ((buffered.map fun seqNr => (seqNr - ackNr).toNat).filter fun offset =>
    2 ≤ offset && offset < 2 + sackExtensionBytes * 8).map (· - 2)

theorem mem_reachedBits :
    j ∈ reachedBits ackNr buffered ↔ j < 32 ∧ ∃ seqNr ∈ buffered, (seqNr - ackNr).toNat = j + 2 := by
  have reach : 2 + sackExtensionBytes * 8 = 34 := rfl
  simp only [reachedBits, mem_map, mem_filter, Bool.and_eq_true, decide_eq_true_eq]
  constructor
  · rintro ⟨offset, ⟨⟨seqNr, listed, rfl⟩, low, high⟩, rfl⟩
    exact ⟨by omega, seqNr, listed, by omega⟩
  · rintro ⟨bound, seqNr, listed, same⟩
    exact ⟨_, ⟨⟨seqNr, listed, rfl⟩, by omega, by omega⟩, by omega⟩

theorem selectiveAckFor_eq (ackNr : UInt16) (buffered : List UInt16) :
    selectiveAckFor ackNr buffered =
      if reachedBits ackNr buffered = [] then []
      else (reachedBits ackNr buffered).foldl setBit (List.replicate sackExtensionBytes 0) := by
  simp only [selectiveAckFor, reachedBits, map_eq_nil_iff, foldl_map]

theorem maskBit_selectiveAckFor (ackNr : UInt16) (buffered : List UInt16) :
    maskBit (selectiveAckFor ackNr buffered) j = true ↔ j ∈ reachedBits ackNr buffered := by
  rw [selectiveAckFor_eq]
  split_ifs with nothing
  · simp only [maskBit, getElem?_nil, Option.any_none, Bool.false_eq_true, nothing, not_mem_nil]
  have clear : maskBit (replicate sackExtensionBytes 0) j = false := by
    simp only [maskBit, getElem?_replicate]
    split_ifs <;> simp
  rw [maskBit_foldl_setBit, clear, Bool.false_eq_true, false_or]
  intro i member
  rw [length_replicate, sackExtensionBytes]
  have := (mem_reachedBits.mp member).1
  omega

theorem selectiveAckContains_eq (ackNr seqNr : UInt16) :
    selectiveAckContains mask ackNr seqNr =
      (2 ≤ (seqNr - ackNr).toNat && (seqNr - ackNr).toNat < 0x8000 && maskBit mask ((seqNr - ackNr).toNat - 2)) :=
  rfl

/-- What the encoder of a selective acknowledgement says is what its decoder reads. -/
theorem selectiveAckContains_selectiveAckFor (ackNr seqNr : UInt16) (buffered : List UInt16) :
    selectiveAckContains (selectiveAckFor ackNr buffered) ackNr seqNr = true ↔
      seqNr ∈ buffered ∧ 2 ≤ (seqNr - ackNr).toNat ∧ (seqNr - ackNr).toNat < 34 := by
  simp only [selectiveAckContains_eq, Bool.and_eq_true, decide_eq_true_eq, maskBit_selectiveAckFor, mem_reachedBits]
  constructor
  · rintro ⟨⟨low, -⟩, bound, other, listed, same⟩
    have equal : other - ackNr = seqNr - ackNr := UInt16.toNat_inj.mp (by omega)
    rw [(UInt16.sub_left_inj ackNr).mp equal] at listed
    exact ⟨listed, low, by omega⟩
  · rintro ⟨listed, low, high⟩
    exact ⟨⟨low, by omega⟩, by omega, seqNr, listed, by omega⟩

theorem length_selectiveAckFor_le (ackNr : UInt16) (buffered : List UInt16) :
    (selectiveAckFor ackNr buffered).length ≤ sackExtensionBytes := by
  have kept (bits : List ℕ) (mask : Bytes) : (bits.foldl setBit mask).length = mask.length := by
    induction bits generalizing mask with
    | nil => rfl
    | cons i rest ih => rw [foldl_cons, ih, setBit, length_modify]
  rw [selectiveAckFor_eq]
  split_ifs
  · exact Nat.zero_le _
  · rw [kept, length_replicate]

theorem lt_of_selectiveAckContains (short : mask.length ≤ sackExtensionBytes)
    (contained : selectiveAckContains mask ackNr seqNr = true) :
    2 ≤ (seqNr - ackNr).toNat ∧ (seqNr - ackNr).toNat < 34 := by
  rw [selectiveAckContains_eq, Bool.and_eq_true, Bool.and_eq_true, decide_eq_true_eq, decide_eq_true_eq] at contained
  obtain ⟨⟨low, -⟩, bit⟩ := contained
  refine ⟨low, Nat.not_le.mp fun far => ?_⟩
  rw [sackExtensionBytes] at short
  rw [maskBit, getElem?_eq_none (by omega)] at bit
  cases bit

theorem range_of_selectiveAckContains (short : mask.length ≤ sackExtensionBytes) (near : i < a + 2 ^ 15)
    (recent : a ≤ i + 2 ^ 15) (contained : selectiveAckContains mask (numbered first a - 1) (numbered first i) = true) :
    a < i ∧ i < a + 33 := by
  have range := lt_of_selectiveAckContains short contained
  rw [UInt16.toNat_sub, UInt16.toNat_sub, toNat_numbered, toNat_numbered] at range
  have : (1 : UInt16).toNat = 1 := rfl
  omega

end Masks

end Superseedr.Utp
