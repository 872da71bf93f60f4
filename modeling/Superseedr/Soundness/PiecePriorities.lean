import Superseedr.Soundness.PieceQueues

/-! # Changing the priorities of pieces

New priorities move pieces out of the need queue when they become skipped and back into it when they
are wanted again and not pending. Pending pieces stay pending. The loop over all pieces is described
by what it has done to the pieces before its position and what it leaves for those behind.
-/

namespace Superseedr.PieceManager

open List Option

variable {pm mid mid' pm' : PieceManager} {old new rest : List EffectivePiecePriority} {n p : ℕ}
  {cancelled queue cancelled' : List ℕ} {acc acc' : PieceManager × List ℕ} {entry : EffectivePiecePriority × ℕ}

def NeededAfter (pm : PieceManager) (p : ℕ) (before after : EffectivePiecePriority) : Prop :=
  if pm.Missing p ∧ after = .skip ∧ before ≠ .skip then False
  else if pm.Missing p ∧ before = .skip ∧ after ≠ .skip then p ∈ pm.needQueue ∨ p ∉ pm.pendingQueue
  else p ∈ pm.needQueue

structure Repainting (pm : PieceManager) (old new : List EffectivePiecePriority) (n : ℕ) (mid : PieceManager) :
    Prop where
  bitfield : mid.bitfield = pm.bitfield
  pendingQueue : mid.pendingQueue = pm.pendingQueue
  piecesRemaining : mid.piecesRemaining = pm.piecesRemaining
  blockManager : mid.blockManager = pm.blockManager
  nodup : mid.needQueue.Nodup
  priority : ∀ q, mid.piecePriorities[q]? = if q < n then new[q]? else old[q]?
  passed : ∀ q before after, q < n → old[q]? = some before → new[q]? = some after →
    (q ∈ mid.needQueue ↔ pm.NeededAfter q before after)
  ahead : ∀ q, n ≤ q → (q ∈ mid.needQueue ↔ q ∈ pm.needQueue)

section

variable (stage : Repainting pm old new n mid)
include stage

/-- Where the loop stands, a piece is as it was at the start. -/
theorem Repainting.needed_here : n ∈ mid.needQueue ↔ n ∈ pm.needQueue :=
  stage.ahead n le_rfl

theorem Repainting.advance {before after : EffectivePiecePriority} (was : old[n]? = some before)
    (becomes : new[n]? = some after) (unique : queue.Nodup) (others : ∀ q, q ≠ n → (q ∈ queue ↔ q ∈ mid.needQueue))
    (here : n ∈ queue ↔ pm.NeededAfter n before after) : Repainting pm old new (n + 1)
      { mid with piecePriorities := mid.piecePriorities.set n after, needQueue := queue } := by
  have inside : n < mid.piecePriorities.length := by
    have stored := stage.priority n
    rw [if_neg (lt_irrefl n), was] at stored
    exact (List.getElem?_eq_some_iff.mp stored).1
  refine ⟨stage.bitfield, stage.pendingQueue, stage.piecesRemaining, stage.blockManager, unique, ?_, ?_, ?_⟩
  · intro q
    rcases eq_or_ne q n with rfl | same
    · rw [getElem?_set_self inside, if_pos (Nat.lt_succ_self q), becomes]
    · rw [getElem?_set_ne (Ne.symm same), stage.priority q]
      have position : q < n + 1 ↔ q < n := by omega
      simp only [position]
  · intro q first second bound wasBefore isAfter
    rcases eq_or_ne q n with rfl | same
    · obtain rfl : before = first := mem_unique was wasBefore
      obtain rfl : after = second := mem_unique becomes isAfter
      exact here
    · rw [others q same]
      exact stage.passed q first second (by omega) wasBefore isAfter
  · intro q bound
    rw [others q (by omega)]
    exact stage.ahead q (by omega)

/-- One round of the loop. -/
theorem Repainting.step {after : EffectivePiecePriority} (small : n < 2 ^ 32) (sized : old.length = pm.bitfield.length)
    (becomes : new[n]? = some after) (run : applyPriority (mid, cancelled) (after, n) = some (mid', cancelled')) :
    Repainting pm old new (n + 1) mid' := by
  simp only [applyPriority, u32_of_lt small, map_eq_some_iff] at run
  obtain ⟨before, stored, result⟩ := run
  have was : old[n]? = some before := by
    rw [stage.priority n, if_neg (lt_irrefl n)] at stored
    exact stored
  have inside : n < pm.bitfield.length := sized ▸ (List.getElem?_eq_some_iff.mp was).1
  have notMissing : mid.bitfield[n]? = some .done → ¬pm.Missing n := fun done missing =>
    missing.not_done (stage.bitfield ▸ done)
  have isMissing : mid.bitfield[n]? ≠ some .done → pm.Missing n := fun notDone =>
    missing_of_not_done inside (stage.bitfield ▸ notDone)
  by_cases same : after = before
  · rw [if_pos same] at result
    cases result
    have unchanged : mid.piecePriorities.set n after = mid.piecePriorities := by
      apply ext_getElem?
      intro q
      by_cases here : q = n
      · rw [here, List.getElem?_set_self (List.getElem?_eq_some_iff.mp stored).1, stored, same]
      · rw [getElem?_set_ne (Ne.symm here)]
    have advanced := stage.advance was becomes stage.nodup (fun _ _ => Iff.rfl)
      (by rw [stage.needed_here, NeededAfter]; simp [same])
    rwa [unchanged] at advanced
  rw [if_neg same] at result
  by_cases done : mid.bitfield[n]? = some .done
  · rw [if_pos done] at result
    cases result
    exact stage.advance was becomes stage.nodup (fun _ _ => Iff.rfl)
      (by rw [stage.needed_here, NeededAfter]; simp [notMissing done])
  rw [if_neg done] at result
  by_cases skip : after = .skip
  · rw [if_pos skip] at result
    cases result
    have wasWanted : before ≠ .skip := fun skipped => same (skip.trans skipped.symm)
    refine stage.advance was becomes (stage.nodup.swapErase n) ?_ ?_
    · intro q differ
      rw [stage.nodup.mem_swapErase_iff]
      exact and_iff_right differ
    · rw [stage.nodup.mem_swapErase_iff, NeededAfter, if_pos ⟨isMissing done, skip, wasWanted⟩]
      simp
  rw [if_neg skip] at result
  by_cases back : before = .skip ∧ n ∉ mid.needQueue ∧ n ∉ mid.pendingQueue
  · rw [if_pos back] at result
    cases result
    obtain ⟨wasSkipped, absent, notPending⟩ := back
    refine stage.advance was becomes ?_ ?_ ?_
    · rw [← concat_eq_append]
      exact stage.nodup.concat absent
    · intro q differ
      simp [differ]
    · rw [NeededAfter, if_neg (by simp [skip]), if_pos ⟨isMissing done, wasSkipped, skip⟩]
      rw [stage.pendingQueue] at notPending
      simp [notPending]
  · rw [if_neg back] at result
    cases result
    refine stage.advance was becomes stage.nodup (fun _ _ => Iff.rfl) ?_
    rw [NeededAfter, if_neg (by simp [skip])]
    split_ifs with wanted
    · rw [stage.needed_here]
      refine ⟨.inl, fun either => either.elim id fun notPending => ?_⟩
      rw [← stage.pendingQueue] at notPending
      exact stage.needed_here.mp (not_not.mp fun absent => back ⟨wanted.2.1, absent, notPending⟩)
    · exact stage.needed_here

/-- The loop from a position to the end. -/
theorem Repainting.run (small : new.length ≤ 2 ^ 32) (sized : old.length = pm.bitfield.length)
    (here : new.drop n = rest) (run : (rest.zipIdx n).foldlM applyPriority (mid, cancelled) = some (pm', cancelled')) :
    Repainting pm old new (n + rest.length) pm' := by
  induction rest generalizing n mid cancelled with
  | nil =>
    simp only [zipIdx_nil, foldlM_nil, Option.pure_def] at run
    cases run
    exact stage
  | cons after rest ih =>
    rw [zipIdx_cons, foldlM_cons, bind_eq_bind, bind_eq_some_iff] at run
    obtain ⟨⟨next, nextCancelled⟩, first, others⟩ := run
    have becomes : new[n]? = some after := by
      rw [← head?_drop, here, head?_cons]
    have inside : n < new.length := (List.getElem?_eq_some_iff.mp becomes).1
    have advanced := stage.step (by omega) sized becomes first
    have behind : new.drop (n + 1) = rest := by
      rw [← tail_drop, here, tail_cons]
    have finished := ih advanced behind others
    rwa [length_cons, Nat.add_comm rest.length 1, ← Nat.add_assoc]

end

structure Reprioritized (pm : PieceManager) (new : List EffectivePiecePriority) (pm' : PieceManager) : Prop where
  bitfield : pm'.bitfield = pm.bitfield
  pendingQueue : pm'.pendingQueue = pm.pendingQueue
  piecesRemaining : pm'.piecesRemaining = pm.piecesRemaining
  blockManager : pm'.blockManager = pm.blockManager
  nodup : pm'.needQueue.Nodup
  sized : pm'.piecePriorities = [] ∨ pm'.piecePriorities.length = pm'.bitfield.length
  priority : ∀ q, q < pm.bitfield.length → new[q]? = some (pm'.effectivePriority q)
  mem_needQueue : ∀ q, q < pm.bitfield.length →
    (q ∈ pm'.needQueue ↔ pm.NeededAfter q (pm.effectivePriority q) (pm'.effectivePriority q))
  outside : ∀ q, pm.bitfield.length ≤ q → (q ∈ pm'.needQueue ↔ q ∈ pm.needQueue)

/-- What new priorities leave alone. -/
def marks (pm : PieceManager) : List PieceStatus × BlockManager := (pm.bitfield, pm.blockManager)

theorem marks_applyPriority (run : applyPriority acc entry = some acc') : acc'.1.marks = acc.1.marks := by
  obtain ⟨old, -, rfl⟩ := map_eq_some_iff.mp run
  split_ifs <;> rfl

theorem marks_applyPriorities (run : pm.applyPriorities new = some (pm', cancelled)) : pm'.marks = pm.marks := by
  have loop : ∀ {entries acc acc'}, foldlM applyPriority acc entries = some acc' → acc'.1.marks = acc.1.marks := by
    intro entries
    induction entries with
    | nil =>
      intro acc acc' result
      cases result
      rfl
    | cons entry rest ih =>
      intro acc acc' result
      rw [foldlM_cons, bind_eq_bind, bind_eq_some_iff] at result
      obtain ⟨mid, first, others⟩ := result
      exact (ih others).trans (marks_applyPriority first)
  have started : (if pm.piecePriorities = [] then
      { pm with piecePriorities := replicate pm.bitfield.length .normal } else pm).marks = pm.marks := by
    split_ifs <;> rfl
  unfold applyPriorities at run
  by_cases length : new.length = pm.bitfield.length
  · rw [if_neg (not_not.mpr length)] at run
    simp only [bind_eq_bind, bind_eq_some_iff] at run
    obtain ⟨⟨applied, dropped⟩, painted, result⟩ := run
    have same : applied.marks = pm.marks := (loop painted).trans started
    split_ifs at result
    · cases result
      exact same
    · cases result
      exact same
  · rw [if_pos length] at run
    cases run
    rfl

theorem bitfield_applyPriorities (run : pm.applyPriorities new = some (pm', cancelled)) : pm'.bitfield = pm.bitfield :=
  congrArg Prod.fst (marks_applyPriorities run)

private theorem effectivePriority_of_getElem? {priorities : List EffectivePiecePriority}
    (same : pm'.piecePriorities = priorities ∨
      (pm'.piecePriorities = [] ∧ ∀ priority ∈ priorities, priority = .normal)) (q : ℕ) :
    pm'.effectivePriority q = priorities[q]?.getD .normal := by
  rcases same with rfl | ⟨standard, normal⟩
  · rfl
  rw [effectivePriority, standard]
  cases found : priorities[q]? with
  | none => rfl
  | some priority =>
    rw [getD_some, normal priority (mem_of_getElem? found)]
    rfl

theorem applyPriorities_eq_some (consistent : pm.Consistent) (length : new.length = pm.bitfield.length)
    (run : pm.applyPriorities new = some (pm', cancelled)) : Reprioritized pm new pm' := by
  rw [applyPriorities, if_neg (not_not.mpr length)] at run
  simp only [bind_eq_bind, bind_eq_some_iff, Prod.exists] at run
  obtain ⟨applied, collected, loop, result⟩ := run
  obtain ⟨start, isStart⟩ : ∃ start, start = if pm.piecePriorities = [] then
      { pm with piecePriorities := replicate pm.bitfield.length .normal } else pm := ⟨_, rfl⟩
  rw [← isStart] at loop
  have sized : start.piecePriorities.length = pm.bitfield.length := by
    rw [isStart]
    split_ifs with standard
    · exact length_replicate
    · exact consistent.priorities.resolve_left standard
  have before : ∀ q, pm.effectivePriority q = start.piecePriorities[q]?.getD .normal := by
    intro q
    rw [isStart]
    split_ifs with standard
    · rw [effectivePriority, standard, getElem?_replicate]
      split_ifs <;> rfl
    · rfl
  have begun : Repainting pm start.piecePriorities new 0 start := by
    rw [isStart]
    split_ifs <;>
      exact ⟨rfl, rfl, rfl, rfl, consistent.nodup, by simp, by simp, fun _ _ => Iff.rfl⟩
  have addressable : new.length ≤ 2 ^ 32 := length ▸ consistent.addressable
  have finished := begun.run addressable sized rfl loop
  rw [drop_zero, Nat.zero_add] at finished
  have all : ∀ q : ℕ, applied.piecePriorities[q]? = new[q]? := by
    intro q
    rw [finished.priority q]
    split_ifs with inside
    · rfl
    · rw [getElem?_eq_none (by omega), getElem?_eq_none (by omega)]
  have applies := ext_getElem? all
  obtain ⟨stored, isPm, priorities⟩ : ∃ stored, pm' = { applied with piecePriorities := stored } ∧
      (pm'.piecePriorities = new ∨ (pm'.piecePriorities = [] ∧ ∀ priority ∈ new, priority = .normal)) := by
    split_ifs at result with normal
    · cases result
      rw [applies] at normal
      exact ⟨_, rfl, .inr ⟨rfl, by simpa using normal⟩⟩
    · cases result
      exact ⟨_, rfl, .inl applies⟩
  have effective := effectivePriority_of_getElem? priorities
  have given : ∀ q, q < pm.bitfield.length → new[q]? = some (pm'.effectivePriority q) := by
    intro q inside
    rw [effective q, getElem?_eq_getElem (by omega), getD_some]
  subst isPm
  refine ⟨finished.bitfield, finished.pendingQueue, finished.piecesRemaining, finished.blockManager, finished.nodup,
    ?_, given, fun q inside => ?_, fun q outside => finished.ahead q (by omega)⟩
  · rcases priorities with rfl | ⟨standard, -⟩
    · right
      rw [finished.bitfield, length]
    · exact .inl standard
  · refine finished.passed q _ _ (by omega) ?_ (given q inside)
    rw [before q, getElem?_eq_getElem (by omega), getD_some]

namespace Reprioritized

variable (repainted : Reprioritized pm new pm')
include repainted

theorem missing : pm'.Missing p ↔ pm.Missing p := by
  rw [Missing, Missing, repainted.bitfield]

theorem needed_cases (needed : p ∈ pm'.needQueue) :
    p ∈ pm.needQueue ∨ (pm.Missing p ∧ p ∉ pm.pendingQueue ∧ pm.Skipped p ∧ ¬pm'.Skipped p) := by
  by_cases inside : p < pm.bitfield.length
  · have after := (repainted.mem_needQueue p inside).mp needed
    unfold NeededAfter at after
    split_ifs at after with dropped wanted
    · exact after.imp id fun notPending => ⟨wanted.1, notPending, wanted.2.1, wanted.2.2⟩
    · exact .inl after
  · exact .inl ((repainted.outside p (by omega)).mp needed)

theorem consistent (consistent : pm.Consistent) : pm'.Consistent where
  priorities := repainted.sized
  addressable := repainted.bitfield ▸ consistent.addressable
  nodup := repainted.nodup
  needMissing q member := by
    rw [repainted.missing]
    rcases repainted.needed_cases member with needed | ⟨missing, -, -, -⟩
    · exact consistent.needMissing q needed
    · exact missing
  pendingMissing q member := by
    rw [repainted.missing]
    exact consistent.pendingMissing q (repainted.pendingQueue ▸ member)
  disjoint q member := by
    rw [repainted.pendingQueue]
    rcases repainted.needed_cases member with needed | ⟨-, notPending, -, -⟩
    · exact consistent.disjoint q needed
    · exact notPending
  remaining := by
    rw [repainted.piecesRemaining, repainted.bitfield, consistent.remaining]

theorem covered (covered : pm.Covered) : pm'.Covered := by
  intro q missing wanted
  rw [repainted.missing] at missing
  rw [repainted.mem_needQueue q missing.lt_length, repainted.pendingQueue]
  unfold NeededAfter
  rw [if_neg fun dropped => wanted dropped.2.1]
  split_ifs with back
  · exact (em (q ∈ pm.pendingQueue)).elim .inr fun notPending => .inl (.inr notPending)
  · exact covered q missing fun skipped => back ⟨missing, skipped, wanted⟩

theorem not_needed_of_skipped (consistent : pm.Consistent) (skipped : pm'.Skipped p)
    (clear : pm.Skipped p → p ∉ pm.needQueue) : p ∉ pm'.needQueue := by
  intro needed
  rcases repainted.needed_cases needed with wasNeeded | ⟨-, -, -, wanted⟩
  · have missing := consistent.needMissing p wasNeeded
    have after := (repainted.mem_needQueue p missing.lt_length).mp needed
    have wasWanted : pm.effectivePriority p ≠ .skip := fun wasSkipped => clear wasSkipped wasNeeded
    rw [NeededAfter, if_pos ⟨missing, skipped, wasWanted⟩] at after
    exact after
  · exact wanted skipped

end Reprioritized

end Superseedr.PieceManager
