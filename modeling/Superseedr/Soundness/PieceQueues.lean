import Mathlib.Data.List.Count
import Superseedr.Model.PieceManager

/-! # Consistency of the piece queues

A consistent piece manager holds only missing pieces in its queues, none of them twice and none in
both, and counts the missing pieces correctly. It covers its torrent when every missing piece that is
not skipped is in one of the queues. Every operation of the manager keeps both properties; what each
one does to the queues is stated once here and used by name afterwards.
-/

namespace Superseedr.PieceManager

open List AList

variable {pending : AList fun _ : ℕ => List PeerId} {total : ℕ}

def Missing (pm : PieceManager) (p : ℕ) : Prop := pm.bitfield[p]? = some .need

def Skipped (pm : PieceManager) (p : ℕ) : Prop := pm.effectivePriority p = .skip

instance (pm : PieceManager) (p : ℕ) : Decidable (pm.Missing p) :=
  inferInstanceAs (Decidable (_ = _))

instance (pm : PieceManager) (p : ℕ) : Decidable (pm.Skipped p) :=
  inferInstanceAs (Decidable (_ = _))

structure Consistent (pm : PieceManager) : Prop where
  priorities : pm.piecePriorities = [] ∨ pm.piecePriorities.length = pm.bitfield.length
  addressable : pm.bitfield.length ≤ 2 ^ 32
  nodup : pm.needQueue.Nodup
  needMissing : ∀ p ∈ pm.needQueue, pm.Missing p
  pendingMissing : ∀ p ∈ pm.pendingQueue, pm.Missing p
  disjoint : ∀ p ∈ pm.needQueue, p ∉ pm.pendingQueue
  remaining : pm.piecesRemaining = pm.bitfield.count .need

def Covered (pm : PieceManager) : Prop :=
  ∀ p, pm.Missing p → ¬pm.Skipped p → p ∈ pm.needQueue ∨ p ∈ pm.pendingQueue

variable {pm pm' : PieceManager} {p q : ℕ} {k : PeerId}

theorem Missing.lt_length (missing : pm.Missing p) : p < pm.bitfield.length :=
  (List.getElem?_eq_some_iff.mp missing).1

theorem missing_or_done (inside : p < pm.bitfield.length) : pm.Missing p ∨ pm.bitfield[p]? = some .done := by
  rw [Missing, getElem?_eq_getElem inside]
  cases pm.bitfield[p] <;> simp

theorem missing_of_not_done (inside : p < pm.bitfield.length) (notDone : pm.bitfield[p]? ≠ some .done) : pm.Missing p :=
  (missing_or_done inside).resolve_right notDone

theorem Missing.not_done (missing : pm.Missing p) : pm.bitfield[p]? ≠ some .done := by
  rw [Missing] at missing
  simp [missing]

theorem not_skipped_of_priorities_nil (standard : pm.piecePriorities = []) : ¬pm.Skipped p := by
  simp [Skipped, effectivePriority, standard]

/-- Where requeueing can look up the priority, it finds out whether the piece is skipped. -/
theorem isSkipped?_eq_some {skipped : Bool} (found : pm.isSkipped? p = some skipped) :
    skipped = true ↔ pm.Skipped p := by
  unfold isSkipped? at found
  split_ifs at found with standard
  · have notSkipped := not_skipped_of_priorities_nil (p := p) standard
    simp_all
  · obtain ⟨priority, lookup, rfl⟩ := Option.map_eq_some_iff.mp found
    simp [Skipped, effectivePriority, lookup]

@[simp] theorem mem_needQueue_markAsPending : q ∈ (pm.markAsPending p k).needQueue ↔ q ∈ pm.needQueue ∧ q ≠ p := by
  simp [markAsPending]

theorem lookup_pendingQueue_markAsPending (k : PeerId) :
    (pm.markAsPending p k).pendingQueue.lookup q =
      if q = p then some ((pm.pendingQueue.lookup p).getD [] ++ [k]) else pm.pendingQueue.lookup q := by
  rw [markAsPending, lookup_insert_ite]

@[simp] theorem mem_pendingQueue_markAsPending :
    q ∈ (pm.markAsPending p k).pendingQueue ↔ q = p ∨ q ∈ pm.pendingQueue := by
  simp [markAsPending]

theorem Consistent.markAsPending (consistent : pm.Consistent) (missing : pm.Missing p) (k : PeerId) :
    (pm.markAsPending p k).Consistent where
  __ := consistent
  nodup := consistent.nodup.filter _
  needMissing q member := consistent.needMissing q (mem_needQueue_markAsPending.mp member).1
  pendingMissing q member := by
    rcases mem_pendingQueue_markAsPending.mp member with rfl | pending
    · exact missing
    · exact consistent.pendingMissing q pending
  disjoint q member := by
    obtain ⟨needed, differ⟩ := mem_needQueue_markAsPending.mp member
    have notPending := consistent.disjoint q needed
    rw [mem_pendingQueue_markAsPending]
    exact fun either => either.elim differ notPending

theorem Covered.markAsPending (covered : pm.Covered) (p : ℕ) (k : PeerId) : (pm.markAsPending p k).Covered := by
  intro q missing wanted
  rw [mem_needQueue_markAsPending, mem_pendingQueue_markAsPending]
  have queued := covered q missing wanted
  by_cases same : q = p
  · exact .inr (.inl same)
  · exact queued.imp (fun needed => ⟨needed, same⟩) .inr

structure Requeued (pm : PieceManager) (p : ℕ) (pm' : PieceManager) : Prop where
  bitfield : pm'.bitfield = pm.bitfield.set p .need
  lookup : ∀ q, pm'.pendingQueue.lookup q = if q = p then none else pm.pendingQueue.lookup q
  piecePriorities : pm'.piecePriorities = pm.piecePriorities
  needQueue : pm'.needQueue = if ¬pm.Skipped p ∧ p ∉ pm.needQueue then pm.needQueue ++ [p] else pm.needQueue
  piecesRemaining : pm'.piecesRemaining =
    if pm.bitfield[p]? = some .done then pm.piecesRemaining + 1 else pm.piecesRemaining
  blockManager : pm'.blockManager = pm.blockManager.revertV1PieceCompletion p

theorem requeuePendingToNeed_eq_some (run : pm.requeuePendingToNeed p = some pm') : Requeued pm p pm' := by
  obtain ⟨skipped, found, rfl⟩ := Option.map_eq_some_iff.mp run
  have meaning := isSkipped?_eq_some found
  refine ⟨rfl, fun _ => lookup_erase_ite, rfl, ?_, rfl, rfl⟩
  cases skipped <;> simp_all

namespace Requeued

variable (requeued : Requeued pm p pm')
include requeued

theorem mem_needQueue : q ∈ pm'.needQueue ↔ q ∈ pm.needQueue ∨ (q = p ∧ ¬pm.Skipped p) := by
  rw [requeued.needQueue]
  split_ifs with added
  · simp [added.1]
  constructor
  · exact .inl
  · rintro (needed | ⟨rfl, wanted⟩)
    · exact needed
    · exact not_not.mp fun absent => added ⟨wanted, absent⟩

theorem mem_pendingQueue : q ∈ pm'.pendingQueue ↔ q ≠ p ∧ q ∈ pm.pendingQueue := by
  rw [← lookup_isSome, ← lookup_isSome, requeued.lookup]
  split_ifs with same <;> simp [same]

theorem skipped : pm'.Skipped q ↔ pm.Skipped q := by
  rw [Skipped, Skipped, effectivePriority, effectivePriority, requeued.piecePriorities]

theorem missing_of_ne (differ : q ≠ p) : pm'.Missing q ↔ pm.Missing q := by
  rw [Missing, Missing, requeued.bitfield, getElem?_set_ne (Ne.symm differ)]

theorem missing_self (inside : p < pm.bitfield.length) : pm'.Missing p := by
  rw [Missing, requeued.bitfield, getElem?_set_self inside]

theorem missing (missing : pm.Missing q) : pm'.Missing q := by
  by_cases same : q = p
  · rw [same] at missing ⊢
    exact requeued.missing_self missing.lt_length
  · exact (requeued.missing_of_ne same).mpr missing

/-- Requeueing a done piece makes one more piece missing, requeueing a missing piece none. -/
theorem count_need (inside : p < pm.bitfield.length) :
    pm'.bitfield.count .need =
      if pm.bitfield[p]? = some .done then pm.bitfield.count .need + 1 else pm.bitfield.count .need := by
  rw [requeued.bitfield, count_set inside]
  have positive : pm.bitfield[p] = .need → 0 < pm.bitfield.count .need := fun missing =>
    count_pos_iff.mpr (missing ▸ getElem_mem inside)
  rw [getElem?_eq_getElem inside]
  cases status : pm.bitfield[p] with
  | need =>
    have counted := positive status
    simp only [beq_self_eq_true, if_true, Option.some.injEq, reduceCtorEq, if_false]
    omega
  | done => simp

theorem consistent (consistent : pm.Consistent) (inside : p < pm.bitfield.length) : pm'.Consistent where
  priorities := by
    rw [requeued.piecePriorities, requeued.bitfield, length_set]
    exact consistent.priorities
  addressable := by
    rw [requeued.bitfield, length_set]
    exact consistent.addressable
  nodup := by
    rw [requeued.needQueue]
    split_ifs with added
    · rw [← concat_eq_append]
      exact consistent.nodup.concat added.2
    · exact consistent.nodup
  needMissing q member := by
    rcases requeued.mem_needQueue.mp member with needed | ⟨rfl, -⟩
    · exact requeued.missing (consistent.needMissing q needed)
    · exact requeued.missing_self inside
  pendingMissing q member := requeued.missing (consistent.pendingMissing q (requeued.mem_pendingQueue.mp member).2)
  disjoint q member := by
    rw [requeued.mem_pendingQueue]
    rintro ⟨differ, pending⟩
    rcases requeued.mem_needQueue.mp member with needed | ⟨same, -⟩
    · exact consistent.disjoint q needed pending
    · exact differ same
  remaining := by
    rw [requeued.piecesRemaining, requeued.count_need inside, consistent.remaining]

theorem covered (covered : pm.Covered) : pm'.Covered := by
  intro q missing wanted
  rw [requeued.mem_needQueue, requeued.mem_pendingQueue]
  rw [requeued.skipped] at wanted
  by_cases same : q = p
  · exact .inl (.inr ⟨same, same ▸ wanted⟩)
  · have queued := covered q ((requeued.missing_of_ne same).mp missing) wanted
    exact queued.imp .inl fun pending => ⟨same, pending⟩

end Requeued

section Release

def owners (pm : PieceManager) (p : ℕ) : List PeerId := (pm.pendingQueue.lookup p).getD []

/-- Taking owners off pending pieces changes nothing but the owners. -/
theorem Consistent.of_pendingQueue (consistent : pm.Consistent) (subset : ∀ q ∈ pending, q ∈ pm.pendingQueue) :
    { pm with pendingQueue := pending }.Consistent where
  __ := consistent
  pendingMissing q member := consistent.pendingMissing q (subset q member)
  disjoint q needed member := consistent.disjoint q needed (subset q member)

variable (run : pm.releasePendingPeerOrRequeue p k = some pm')
include run

theorem releasePendingPeerOrRequeue_cases :
    ((pm.owners p).filter (· ≠ k) ≠ [] ∧
        pm' = { pm with pendingQueue := pm.pendingQueue.modify p fun _ => (pm.owners p).filter (· ≠ k) }) ∨
      ((pm.owners p).filter (· ≠ k) = [] ∧ Requeued pm p pm') := by
  unfold releasePendingPeerOrRequeue at run
  cases found : pm.pendingQueue.lookup p with
  | none =>
    rw [found] at run
    exact .inr ⟨by simp [owners, found], requeuePendingToNeed_eq_some run⟩
  | some peers =>
    have known : pm.owners p = peers := by rw [owners, found, Option.getD_some]
    rw [known]
    simp only [found] at run
    split_ifs at run with left
    · cases run
      exact .inl ⟨left, rfl⟩
    refine .inr ⟨by simpa using left, ?_⟩
    have requeued := requeuePendingToNeed_eq_some run
    refine { requeued with lookup := fun q => ?_ }
    rw [requeued.lookup]
    split_ifs with same
    · rfl
    · rw [lookup_modify_ne same]

theorem Consistent.release (consistent : pm.Consistent) (inside : p < pm.bitfield.length) : pm'.Consistent := by
  rcases releasePendingPeerOrRequeue_cases run with ⟨-, rfl⟩ | ⟨-, requeued⟩
  · exact consistent.of_pendingQueue fun q member => mem_modify.mp member
  · exact requeued.consistent consistent inside

theorem Covered.release (covered : pm.Covered) : pm'.Covered := by
  rcases releasePendingPeerOrRequeue_cases run with ⟨-, rfl⟩ | ⟨-, requeued⟩
  · intro q missing wanted
    exact (covered q missing wanted).imp id mem_modify.mpr
  · exact requeued.covered covered

theorem length_bitfield_release : pm'.bitfield.length = pm.bitfield.length := by
  rcases releasePendingPeerOrRequeue_cases run with ⟨-, rfl⟩ | ⟨-, requeued⟩
  · rfl
  · rw [requeued.bitfield, length_set]

end Release

section Complete

structure Completed (pm : PieceManager) (p : ℕ) (pm' : PieceManager) : Prop where
  missing : pm.Missing p
  bitfield : pm'.bitfield = pm.bitfield.set p .done
  lookup : ∀ q, pm'.pendingQueue.lookup q = if q = p then none else pm.pendingQueue.lookup q
  piecePriorities : pm'.piecePriorities = pm.piecePriorities
  needQueue : pm'.needQueue = pm.needQueue.filter (· ≠ p)
  piecesRemaining : pm'.piecesRemaining = pm.piecesRemaining - 1
  blockManager : pm'.blockManager = pm.blockManager.commitV1Piece p

variable {cancel : List PeerId}

theorem markAsComplete_cases (run : pm.markAsComplete p = some (pm', cancel)) :
    (pm.bitfield[p]? = some .done ∧ pm' = pm ∧ cancel = []) ∨ (Completed pm p pm' ∧ cancel = pm.owners p) := by
  unfold markAsComplete at run
  split at run
  · simp only [Option.some.injEq, Prod.mk.injEq] at run
    exact .inl ⟨by assumption, run.1.symm, run.2.symm⟩
  · cases run
    exact .inr ⟨⟨by assumption, rfl, fun _ => lookup_erase_ite, rfl, rfl, rfl, rfl⟩, rfl⟩
  · simp at run

theorem Missing.completed (missing : pm.Missing p) (run : pm.markAsComplete p = some (pm', cancel)) :
    Completed pm p pm' :=
  ((markAsComplete_cases run).resolve_left fun done => missing.not_done done.1).1

namespace Completed

variable (completed : Completed pm p pm')
include completed

theorem mem_needQueue : q ∈ pm'.needQueue ↔ q ∈ pm.needQueue ∧ q ≠ p := by
  rw [completed.needQueue]
  simp

theorem mem_pendingQueue : q ∈ pm'.pendingQueue ↔ q ≠ p ∧ q ∈ pm.pendingQueue := by
  rw [← lookup_isSome, ← lookup_isSome, completed.lookup]
  split_ifs with same <;> simp [same]

theorem skipped : pm'.Skipped q ↔ pm.Skipped q := by
  rw [Skipped, Skipped, effectivePriority, effectivePriority, completed.piecePriorities]

theorem done_self : pm'.bitfield[p]? = some .done := by
  rw [completed.bitfield, getElem?_set_self completed.missing.lt_length]

theorem missing_iff : pm'.Missing q ↔ pm.Missing q ∧ q ≠ p := by
  rcases eq_or_ne q p with rfl | same
  · have done := completed.done_self
    simp [Missing, done]
  · rw [Missing, Missing, completed.bitfield, getElem?_set_ne (Ne.symm same)]
    simp [same]

theorem count_need : pm'.bitfield.count .need = pm.bitfield.count .need - 1 := by
  have inside := completed.missing.lt_length
  have status : pm.bitfield[p] = .need := (List.getElem?_eq_some_iff.mp completed.missing).2
  rw [completed.bitfield, List.count_set inside, status]
  simp

theorem consistent (consistent : pm.Consistent) : pm'.Consistent where
  priorities := by
    rw [completed.piecePriorities, completed.bitfield, length_set]
    exact consistent.priorities
  addressable := by
    rw [completed.bitfield, length_set]
    exact consistent.addressable
  nodup := by
    rw [completed.needQueue]
    exact consistent.nodup.filter _
  needMissing q member := by
    obtain ⟨needed, differ⟩ := completed.mem_needQueue.mp member
    exact completed.missing_iff.mpr ⟨consistent.needMissing q needed, differ⟩
  pendingMissing q member := by
    obtain ⟨differ, pending⟩ := completed.mem_pendingQueue.mp member
    exact completed.missing_iff.mpr ⟨consistent.pendingMissing q pending, differ⟩
  disjoint q member pending :=
    consistent.disjoint q (completed.mem_needQueue.mp member).1 (completed.mem_pendingQueue.mp pending).2
  remaining := by
    rw [completed.piecesRemaining, completed.count_need, consistent.remaining]

theorem covered (covered : pm.Covered) : pm'.Covered := by
  intro q missing wanted
  obtain ⟨wasMissing, differ⟩ := completed.missing_iff.mp missing
  rw [completed.skipped] at wanted
  rw [completed.mem_needQueue, completed.mem_pendingQueue]
  exact (covered q wasMissing wanted).imp (fun needed => ⟨needed, differ⟩) fun pending => ⟨differ, pending⟩

end Completed

theorem Consistent.complete (consistent : pm.Consistent) (run : pm.markAsComplete p = some (pm', cancel)) :
    pm'.Consistent := by
  rcases markAsComplete_cases run with ⟨-, rfl, -⟩ | ⟨completed, -⟩
  · exact consistent
  · exact completed.consistent consistent

end Complete

theorem Consistent.emptied (consistent : pm.Consistent) :
    { pm with needQueue := [], pendingQueue := ∅ }.Consistent where
  __ := consistent
  nodup := nodup_nil
  needMissing _ member := absurd member not_mem_nil
  pendingMissing q member := absurd member (notMem_empty q)
  disjoint _ member := absurd member not_mem_nil

theorem Consistent.drained (consistent : pm.Consistent) {drained : List ℕ} (same : drained.Perm pm.pendingQueue.keys) :
    { pm with needQueue := pm.needQueue ++ drained, pendingQueue := ∅ }.Consistent where
  __ := consistent
  nodup := by
    rw [nodup_append]
    refine ⟨consistent.nodup, same.nodup_iff.mpr pm.pendingQueue.keys_nodup, ?_⟩
    rintro q needed _ member rfl
    exact consistent.disjoint q needed (mem_keys.mpr (same.mem_iff.mp member))
  needMissing := forall_mem_append.mpr ⟨consistent.needMissing,
    fun q pending => consistent.pendingMissing q (mem_keys.mpr (same.mem_iff.mp pending))⟩
  pendingMissing q member := absurd member (notMem_empty q)
  disjoint q _ := notMem_empty q

theorem Covered.drained (covered : pm.Covered) {drained : List ℕ} (same : drained.Perm pm.pendingQueue.keys) :
    { pm with needQueue := pm.needQueue ++ drained, pendingQueue := ∅ }.Covered := by
  intro q missing wanted
  rcases covered q missing wanted with needed | pending
  · exact .inl (mem_append_left _ needed)
  · exact .inl (mem_append_right _ (same.mem_iff.mpr (mem_keys.mp pending)))

/-- The pieces of a fresh manager are all wanted, or all done. -/
theorem consistent_setInitialFields (small : total ≤ 2 ^ 32) (validated : Bool) :
    (new.setInitialFields total validated).Consistent := by
  have identity : (range total).map u32 = range total := by
    have pointwise : ∀ q ∈ range total, u32 q = id q := fun q member =>
      u32_of_lt (lt_of_lt_of_le (mem_range.mp member) small)
    rw [map_congr_left pointwise, map_id]
  cases validated with
  | true =>
    refine ⟨.inl rfl, by simpa [setInitialFields], nodup_nil, by simp [setInitialFields], ?_,
      by simp [setInitialFields], by simp [setInitialFields, count_replicate]⟩
    intro q member
    exact absurd member (notMem_empty q)
  | false =>
    refine ⟨.inl rfl, by simpa [setInitialFields], ?_, ?_, ?_, ?_, ?_⟩
    · simp only [setInitialFields, identity, Bool.false_eq_true, if_false]
      exact nodup_range
    · simp only [setInitialFields, identity, Bool.false_eq_true, if_false]
      intro q member
      rw [Missing, getElem?_replicate, if_pos (mem_range.mp member)]
    · intro q member
      exact absurd member (notMem_empty q)
    · intro q _
      exact notMem_empty q
    · simp [setInitialFields]

theorem covered_setInitialFields (small : total ≤ 2 ^ 32) (validated : Bool) :
    (new.setInitialFields total validated).Covered := by
  intro q missing _
  cases validated with
  | true =>
    exfalso
    have outside := missing
    rw [Missing] at outside
    simp only [setInitialFields, if_true, getElem?_replicate] at outside
    split_ifs at outside
    simp at outside
  | false =>
    have inside := missing.lt_length
    simp only [setInitialFields, Bool.false_eq_true, if_false, length_replicate] at inside
    refine .inl ?_
    simp only [setInitialFields, Bool.false_eq_true, if_false, mem_map, mem_range]
    exact ⟨q, inside, u32_of_lt (lt_of_lt_of_le inside small)⟩

end Superseedr.PieceManager
