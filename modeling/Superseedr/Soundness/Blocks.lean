import Superseedr.Soundness.Abstraction

/-! # The blocks of a piece

The blocks of a piece lie on the grid of block-sized offsets, start at distinct offsets and end inside
the piece. The blocks selected for a new piece are distinct, not active and as many as slots were
taken.
-/

namespace Superseedr

open List

variable {bm : BlockManager} {pm : PieceManager} {p k size : ℕ} {addr : BlockAddress} {order : Arrangement}
  {isEndgame : Bool} {addrs : List BlockAddress}

namespace BlockManager

def blockAt (bm : BlockManager) (p i : ℕ) : BlockAddress where
  pieceIndex := p
  blockIndex := i
  byteOffset := i * blockSize
  globalOffset := p * bm.pieceLength + i * blockSize
  length := min blockSize (bm.calculatePieceSize p - i * blockSize)

theorem mul_blockSize_lt : k * blockSize < size ↔ k < blocksInPiece size := by
  simp only [blocksInPiece, divCeil, blockSize]
  omega

theorem pieceBlockAddresses_eq :
    bm.pieceBlockAddresses p = (range (blocksInPiece (bm.calculatePieceSize p))).map (bm.blockAt p) := by
  rw [← filterMap_eq_map]
  refine filterMap_congr fun i member => ?_
  have inside := mul_blockSize_lt.mpr (mem_range.mp member)
  have nonempty : min blockSize (bm.calculatePieceSize p - i * blockSize) ≠ 0 := by
    simp only [blockSize] at inside ⊢
    omega
  have fits : ¬satAdd32 (i * blockSize) (min blockSize (bm.calculatePieceSize p - i * blockSize)) >
      bm.calculatePieceSize p := by
    rw [satAdd32]
    omega
  rw [if_neg nonempty, inflateAddressFromOverlay, if_neg fits, Nat.mul_div_cancel i (by decide)]
  rfl

theorem mem_pieceBlockAddresses (member : addr ∈ bm.pieceBlockAddresses p) :
    ∃ i, addr = bm.blockAt p i ∧ i < blocksInPiece (bm.calculatePieceSize p) ∧ addr.length ≠ 0 := by
  rw [pieceBlockAddresses_eq, mem_map] at member
  obtain ⟨i, among, rfl⟩ := member
  have inside := mul_blockSize_lt.mpr (mem_range.mp among)
  refine ⟨i, rfl, mem_range.mp among, ?_⟩
  simp only [blockAt, blockSize] at inside ⊢
  omega

theorem nodup_byteOffset (bm : BlockManager) (p : ℕ) : ((bm.pieceBlockAddresses p).map (·.byteOffset)).Nodup := by
  rw [pieceBlockAddresses_eq, map_map]
  exact nodup_range.map fun _ _ same => Nat.eq_of_mul_eq_mul_right (by decide) same

end BlockManager

theorem PieceManager.mem_requestable (member : addr ∈ pm.requestableBlockAddressesForPiece p) :
    addr ∈ pm.blockManager.pieceBlockAddresses p :=
  mem_of_mem_filter member

theorem requestFor_offset (limit : ℕ → Option ℕ) : (requestFor limit addr).2.1 = addr.byteOffset := rfl

namespace TorrentState

theorem mem_blocksToRequest :
    addr ∈ blocksToRequest order isEndgame pm p ↔ addr ∈ pm.requestableBlockAddressesForPiece p := by
  unfold blocksToRequest
  split_ifs
  · exact Arrangement.mem_arrange ..
  · exact Iff.rfl

theorem nodup_offset_blocksToRequest (order : Arrangement) (isEndgame : Bool) (pm : PieceManager) (p : ℕ) :
    ((blocksToRequest order isEndgame pm p).map (·.byteOffset)).Nodup := by
  have distinct : ((pm.requestableBlockAddressesForPiece p).map (·.byteOffset)).Nodup :=
    (pm.blockManager.nodup_byteOffset p).sublist (filter_sublist.map _)
  unfold blocksToRequest
  split_ifs
  · exact ((order.arrange_perm p _).map _).nodup_iff.mpr distinct
  · exact distinct

end TorrentState

structure Selected (limit : ℕ → Option ℕ) (active : Finset BlockRequest) (addrs : List BlockAddress) (slots : ℕ)
    (acc : List BlockRequest × ℕ) : Prop where
  nodup : acc.1.Nodup
  idle : ∀ t ∈ acc.1, t ∉ active
  nonempty : ∀ t ∈ acc.1, t.2.2 ≠ 0
  source : ∀ t ∈ acc.1, ∃ addr ∈ addrs, t = requestFor limit addr
  length : acc.1.length + acc.2 = slots

theorem selectBlock_foldl (limit : ℕ → Option ℕ) (active : Finset BlockRequest)
    (distinct : (addrs.map (·.byteOffset)).Nodup) (slots : ℕ) :
    Selected limit active addrs slots (addrs.foldl (selectBlock limit active) ([], slots)) := by
  induction addrs using reverseRecOn with
  | nil => exact ⟨nodup_nil, by simp, by simp, by simp, by simp⟩
  | append_singleton front last ih =>
    rw [map_append, nodup_append] at distinct
    obtain ⟨distinctFront, -, separate⟩ := distinct
    have before := ih distinctFront
    rw [foldl_append, foldl_cons, foldl_nil]
    obtain ⟨acc, isAcc⟩ : ∃ acc, acc = front.foldl (selectBlock limit active) ([], slots) := ⟨_, rfl⟩
    rw [← isAcc] at before ⊢
    have widened : ∀ t ∈ acc.1, ∃ addr ∈ front ++ [last], t = requestFor limit addr := by
      intro t member
      obtain ⟨addr, inFront, rfl⟩ := before.source t member
      exact ⟨addr, mem_append_left _ inFront, rfl⟩
    dsimp only [selectBlock]
    split_ifs with skipped
    · exact { before with source := widened }
    simp only [not_or] at skipped
    obtain ⟨room, nonempty, idle⟩ := skipped
    have unseen : requestFor limit last ∉ acc.1 := by
      intro member
      obtain ⟨addr, inFront, same⟩ := before.source _ member
      refine separate addr.byteOffset (mem_map_of_mem inFront) last.byteOffset (by simp) ?_
      rw [← requestFor_offset limit, ← requestFor_offset limit, same]
    refine ⟨?_, ?_, ?_, ?_, ?_⟩
    · rw [← concat_eq_append]
      exact before.nodup.concat unseen
    · exact forall_mem_append.mpr ⟨before.idle, forall_mem_singleton.mpr idle⟩
    · exact forall_mem_append.mpr ⟨before.nonempty, forall_mem_singleton.mpr nonempty⟩
    · exact forall_mem_append.mpr ⟨widened, forall_mem_singleton.mpr ⟨last, by simp, rfl⟩⟩
    · have balance := before.length
      simp only [length_append, length_singleton]
      omega

end Superseedr
