import Superseedr.Soundness.HashExchange
import Superseedr.Soundness.V2Layout

/-! # Where the lookup finds the hashes of a file

Offsets of files are counted with 64 bits, but the lookup of a hash narrows the offset of its file and the piece
length to 32 bits. It finds the hashes of the files that start within the first 4 GiB: behind them it takes the hash
of another piece or none, and it panics for pieces of 4 GiB and more.
-/

namespace Superseedr

open List

variable {k w start : ℕ} {mapping : V2Mapping} {path rootHash : Bytes}

theorem mul_two_pow_mod (within : k ≤ w) (a : ℕ) : a * 2 ^ k % 2 ^ w = a % 2 ^ (w - k) * 2 ^ k := by
  rw [← Nat.mul_mod_mul_right, ← Nat.pow_add, Nat.sub_add_cancel within]

namespace Torrent

def rootsOf (mapping : V2Mapping) (p : ℕ) : List V2RootInfo := (mapping.pieceToRoots p).getD []

structure Reaches (pieceLen : ℕ) (mapping : V2Mapping) (p : ℕ) (root : V2RootInfo) (start : ℕ) : Prop where
  nonempty : 0 < root.length
  offset : root.fileOffset = u64 (start * pieceLen)
  behind : u32 start ≤ p
  inside : p < u32 (start + divCeil root.length pieceLen)
  first : root ∈ rootsOf mapping (u32 start)

variable {torrent : Torrent} {p : ℕ} {root : V2RootInfo}

theorem mem_rootsOf_mapFile {pieceLen : ℕ} {length index : ℕ} :
    root ∈ rootsOf (mapFile pieceLen mapping ((path, length, rootHash), index)) p ↔
      root ∈ rootsOf mapping p ∨ 0 < length ∧ (u32 mapping.pieceCount ≤ p ∧
        p < u32 (mapping.pieceCount + divCeil length pieceLen)) ∧
        root = ⟨u64 (mapping.pieceCount * pieceLen), length, rootHash, u32 index⟩ := by
  have wrap (x : ℕ) : u32 (u64 x) = u32 x := Nat.mod_mod_of_dvd x (by decide)
  unfold rootsOf mapFile
  by_cases nonempty : 0 < length
  · simp only [gt_iff_lt, if_pos nonempty, wrap]
    split_ifs with inside
    · simp [nonempty, inside]
    · simp [inside]
  · simp [nonempty]

theorem exists_reaches (mapped : root ∈ rootsOf torrent.calculateV2Mapping p) :
    ∃ start, Reaches torrent.pieceLen torrent.calculateV2Mapping p root start := by
  rw [calculateV2Mapping] at mapped ⊢
  split_ifs at mapped ⊢
  · refine foldlRecOn (motive := fun mapping => ∀ p root, root ∈ rootsOf mapping p →
      ∃ start, Reaches torrent.pieceLen mapping p root start) _ _ (by rintro p root ⟨⟩) ?_ p root mapped
    rintro mapping before ⟨⟨path, length, rootHash⟩, index⟩ - p root member
    rcases mem_rootsOf_mapFile.mp member with earlier | ⟨nonempty, inside, rfl⟩
    · obtain ⟨start, reaches⟩ := before p root earlier
      exact ⟨start, { reaches with first := mem_rootsOf_mapFile.mpr (.inl reaches.first) }⟩
    · exact ⟨_, nonempty, rfl, inside.1, inside.2,
        mem_rootsOf_mapFile.mpr (.inr ⟨nonempty, ⟨le_rfl, inside.1.trans_lt inside.2⟩, rfl⟩)⟩
  · cases mapped

theorem Reaches.quotients (reaches : Reaches (2 ^ k) mapping p root start) (small : k < 32) :
    ∃ quotient, root.fileOffset = quotient * 2 ^ k ∧ u32 start = u32 quotient ∧
      narrowedStart (2 ^ k) root.fileOffset = quotient % 2 ^ (32 - k) := by
  have offset := reaches.offset.trans (mul_two_pow_mod (by omega) start)
  refine ⟨_, offset, (Nat.mod_mod_of_dvd start (Nat.pow_dvd_pow 2 (by omega))).symm, ?_⟩
  rw [narrowedStart, offset, u32_of_lt (Nat.pow_lt_pow_right (by decide) small), u32, mul_two_pow_mod small.le,
    Nat.mul_div_cancel _ (Nat.two_pow_pos k)]

def FindsHashes (torrent : Torrent) (root : V2RootInfo) : Prop :=
  ∀ (asked : Torrent) (layer : List Bytes), asked.info = torrent.info →
    asked.getLayerHashes root.rootHash = some layer.flatten → (∀ hash ∈ layer, hash.length = 32) →
    layer.length = divCeil root.length torrent.pieceLen → ∀ p, root ∈ rootsOf torrent.calculateV2Mapping p →
      ∃ n, p = root.fileOffset / torrent.pieceLen + n ∧ ∃ inside : n < layer.length,
        asked.getV2HashLayer p root.fileOffset root.length 1 root.rootHash = some (some layer[n])

/-- The hashes of the pieces of a file are found exactly if the file starts within the first 4 GiB and the pieces
are smaller than that. -/
theorem layer_addressing_iff (power : torrent.pieceLen = 2 ^ k) (mapped : root ∈ rootsOf torrent.calculateV2Mapping p) :
    torrent.FindsHashes root ↔ root.fileOffset < 2 ^ 32 ∧ torrent.pieceLen < 2 ^ 32 := by
  constructor
  · intro finds
    obtain ⟨start, reaches⟩ := exists_reaches mapped
    have pieces := divCeil_pos reaches.nonempty (power ▸ Nat.two_pow_pos k)
    -- The first hash of the layer differs from all others.
    obtain ⟨others, full, uniform⟩ : ∃ others : List Bytes,
        others.length + 1 = divCeil root.length torrent.pieceLen ∧ ∀ hash ∈ others, hash = replicate 32 0 :=
      ⟨replicate _ _, (by rw [length_replicate, Nat.sub_add_cancel pieces]), fun _ => eq_of_mem_replicate⟩
    have wide : ∀ hash ∈ replicate 32 1 :: others, hash.length = 32 :=
      forall_mem_cons.mpr ⟨rfl, fun hash member => uniform hash member ▸ rfl⟩
    obtain ⟨asked, same, stored⟩ : ∃ asked : Torrent, asked.info = torrent.info ∧
        asked.getLayerHashes root.rootHash = some (replicate 32 1 :: others).flatten :=
      ⟨{ torrent with pieceLayers := some (.dict [(root.rootHash, .bytes (replicate 32 1 :: others).flatten)]) }, rfl,
        by simp [getLayerHashes, dictGet]⟩
    obtain ⟨n, isN, inside, found⟩ := finds asked _ same stored wide full _ reaches.first
    have length : asked.pieceLen = 2 ^ k := (pieceLen_congr same).trans power
    have positive : 0 < asked.pieceLen := length ▸ Nat.two_pow_pos k
    have narrow : u32 asked.pieceLen ≠ 0 := by
      intro zero
      rw [getV2HashLayer, if_neg positive.ne', if_pos zero] at found
      cases found
    have small : k < 32 := by
      by_contra large
      exact narrow (length ▸ Nat.mod_eq_zero_of_dvd (Nat.pow_dvd_pow 2 (not_lt.mp large)))
    rw [power] at reaches isN ⊢
    obtain ⟨quotient, offset, begins, narrowed⟩ := reaches.quotients small
    rw [offset, Nat.mul_div_cancel _ (Nat.two_pow_pos k), begins] at isN
    have below : u32 quotient ≤ quotient := Nat.mod_le _ _
    obtain ⟨rfl, whole⟩ : n = 0 ∧ u32 quotient = quotient := by omega
    rw [getV2HashLayer_stored stored wide positive narrow, length, narrowed, begins, whole] at found
    have exact : quotient - quotient % 2 ^ (32 - k) = 0 := by
      cases distance : quotient - quotient % 2 ^ (32 - k) with
      | zero => rfl
      | succ more =>
        rw [distance, if_neg (not_lt.mpr (Nat.mod_le _ _)), getElem?_cons_succ] at found
        cases uniform _ (mem_of_getElem? (Option.some.inj found))
    have bound : quotient < 2 ^ (32 - k) := by
      have remainder := Nat.mod_lt quotient (Nat.two_pow_pos (32 - k))
      omega
    refine ⟨?_, Nat.pow_lt_pow_right (by decide) small⟩
    rw [offset, show 32 = 32 - k + k by omega, Nat.pow_add]
    exact Nat.mul_lt_mul_of_pos_right bound (Nat.two_pow_pos k)
  · rintro ⟨low, short⟩ asked layer same stored wide full p mapped
    obtain ⟨start, reaches⟩ := exists_reaches mapped
    have length : asked.pieceLen = 2 ^ k := (pieceLen_congr same).trans power
    rw [power] at reaches full short ⊢
    have small : k < 32 := (Nat.pow_lt_pow_iff_right (by decide)).mp short
    obtain ⟨quotient, offset, begins, narrowed⟩ := reaches.quotients small
    have bound : quotient < 2 ^ (32 - k) := by
      rw [offset, show 32 = 32 - k + k by omega, Nat.pow_add] at low
      exact Nat.lt_of_mul_lt_mul_right low
    have reach : 2 ^ (32 - k) ≤ 2 ^ 32 := Nat.pow_le_pow_right (by decide) (Nat.sub_le _ _)
    rw [Nat.mod_eq_of_lt bound] at narrowed
    rw [u32_of_lt (x := quotient) (by omega)] at begins
    have behind := reaches.behind
    have last := reaches.inside
    have inside : p - quotient < layer.length := by
      simp only [u32] at begins behind last
      omega
    refine ⟨p - quotient, ?_, inside, ?_⟩
    · rw [offset, Nat.mul_div_cancel _ (Nat.two_pow_pos k)]
      omega
    · rw [getV2HashLayer_stored stored wide (length ▸ Nat.two_pow_pos k) (by rw [length, u32_of_lt short]; exact
        (Nat.two_pow_pos k).ne'), length, narrowed, if_neg (by omega), getElem?_eq_getElem inside]

/-- Behind a file of 4 GiB, the hash of the first piece of the next file is not found. -/
theorem hash_beyond_four_gib : ∃ (torrent : Torrent) (root : V2RootInfo) (layer : List Bytes) (p : ℕ),
    torrent.info.metaVersion = some 2 ∧ torrent.pieceLen = 2 ^ 14 ∧
    (torrent.sortedV2Roots.map fun file => file.2.1).sum ≤ 2 ^ 48 ∧ torrent.Stores root layer ∧
    layer.length = divCeil root.length torrent.pieceLen ∧ root ∈ rootsOf torrent.calculateV2Mapping p ∧
    p = root.fileOffset / torrent.pieceLen ∧
    torrent.getV2HashLayer p root.fileOffset root.length 1 root.rootHash = some none :=
  ⟨twoFiles (2 ^ 32) 49152, secondFile (2 ^ 32) 49152, _, 2 ^ 18, rfl, rfl, by decide +kernel,
    stores_twoFiles (by decide), by decide +kernel, by decide +kernel, by decide +kernel, by decide +kernel⟩

theorem layer_addressing_second_file : (twoFiles 16384 49152).FindsHashes (secondFile 16384 49152) :=
  (layer_addressing_iff (k := 14) (p := 1) rfl (by decide +kernel)).mpr (by decide +kernel)

end Torrent

end Superseedr
