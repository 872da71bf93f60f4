import Superseedr.Soundness.Scheduler

/-! # What a move changes

Each relation the invariants speak of has one lemma that says what every move does to it: who is
asked for what, who owns a pending piece, how many pieces there are. The effect of a move is a
function of its label, so an invariant is proved by cases on labels and not by unfolding moves.
-/

namespace Superseedr

open List Option AList

variable {n : ℕ} {acc : List ℕ} {peer : Scheduler.PeerView} {value : Option Scheduler.PeerView} {pm pm' : PieceManager}

section Adoption

open PieceManager TorrentState

variable {completed need : List ℕ}

structure MarkedAll (pm : PieceManager) (completed : List ℕ) (pm' : PieceManager) : Prop where
  length : pm'.bitfield.length = pm.bitfield.length
  piecePriorities : pm'.piecePriorities = pm.piecePriorities
  done : ∀ q, pm'.bitfield[q]? = some .done ↔ pm.bitfield[q]? = some .done ∨ q ∈ completed
  consistent : pm.Consistent → pm'.Consistent
  geometry : Scheduler.SameGeometry pm.blockManager pm'.blockManager

theorem markAllComplete_eq_some (run : markAllComplete pm completed = some pm') : MarkedAll pm completed pm' := by
  induction completed generalizing pm with
  | nil =>
    obtain rfl : pm = pm' := some.inj run
    exact ⟨rfl, rfl, by simp, id, rfl, rfl, rfl⟩
  | cons p rest ih =>
    rw [markAllComplete, foldlM_cons, bind_eq_bind, bind_eq_some_iff] at run
    obtain ⟨mid, first, others⟩ := run
    obtain ⟨⟨mid, cancel⟩, marked, rfl⟩ := map_eq_some_iff.mp first
    have later := ih others
    rcases markAsComplete_cases marked with ⟨done, rfl, -⟩ | ⟨fresh, -⟩
    · refine { later with done := fun q => ?_ }
      rw [later.done, mem_cons]
      constructor
      · rintro (before | found)
        · exact .inl before
        · exact .inr (.inr found)
      · rintro (before | rfl | found)
        · exact .inl before
        · exact .inl done
        · exact .inr found
    · refine ⟨?_, later.piecePriorities.trans fresh.piecePriorities, fun q => ?_,
        fun consistent => later.consistent (fresh.consistent consistent), ?_⟩
      · rw [later.length, fresh.bitfield, length_set]
      · rw [later.done, mem_cons]
        rcases eq_or_ne q p with rfl | same
        · simp [fresh.done_self]
        · rw [fresh.bitfield, getElem?_set_ne (Ne.symm same)]
          simp [same]
      · have geometry := later.geometry
        rw [fresh.blockManager] at geometry
        exact { geometry with }

theorem rebuildNeedQueue_from {statuses : List PieceStatus} (run : (statuses.zipIdx n).foldlM (fun need entry =>
        if entry.1 = .done then some need
        else (pm.isSkipped? entry.2).map fun skipped => if skipped then need else need ++ [u32 entry.2])
      acc = some need) :
    need = acc ++ (((statuses.zipIdx n).filter fun entry => entry.1 ≠ .done ∧ ¬pm.Skipped entry.2).map
      fun entry => u32 entry.2) := by
  induction statuses generalizing n acc with
  | nil =>
    obtain rfl : acc = need := some.inj run
    simp
  | cons status rest ih =>
    rw [zipIdx_cons, foldlM_cons, bind_eq_bind, bind_eq_some_iff] at run
    obtain ⟨mid, first, others⟩ := run
    rw [ih others, zipIdx_cons, filter_cons]
    by_cases done : status = .done
    · rw [if_pos done] at first
      cases first
      simp [done]
    rw [if_neg done] at first
    obtain ⟨skipped, found, rfl⟩ := map_eq_some_iff.mp first
    have meaning := isSkipped?_eq_some found
    cases skipped with
    | true =>
      have unwanted := meaning.mp rfl
      simp [unwanted]
    | false =>
      have wanted : ¬pm.Skipped n := fun unwanted => absurd (meaning.mpr unwanted) (by simp)
      simp [wanted, done]

theorem rebuildNeedQueue_eq_some (small : pm.bitfield.length ≤ 2 ^ 32) (run : rebuildNeedQueue pm = some need) :
    need.Nodup ∧ ∀ q, q ∈ need ↔ pm.Missing q ∧ ¬pm.Skipped q := by
  have queue := rebuildNeedQueue_from run
  rw [nil_append] at queue
  have identity : ∀ entry ∈ pm.bitfield.zipIdx, u32 entry.2 = entry.2 := by
    intro entry member
    have inside := snd_lt_of_mem_zipIdx member
    exact u32_of_lt (by omega)
  constructor
  · rw [queue]
    refine List.Nodup.map_on ?_ ?_
    · intro x xMember y yMember same
      have xInside := (mem_filter.mp xMember).1
      have yInside := (mem_filter.mp yMember).1
      rw [identity x xInside, identity y yInside] at same
      have xStatus := mk_mem_zipIdx_iff_getElem?.mp xInside
      have yStatus := mk_mem_zipIdx_iff_getElem?.mp yInside
      rw [← same, xStatus] at yStatus
      exact Prod.ext (some.inj yStatus) same
    · exact (List.Nodup.of_map Prod.snd (nodup_zipIdx_map_snd _)).filter _
  · intro q
    rw [queue, List.mem_map]
    constructor
    · rintro ⟨entry, member, rfl⟩
      obtain ⟨inside, holds⟩ := mem_filter.mp member
      obtain ⟨notDone, wanted⟩ := of_decide_eq_true holds
      have status := mk_mem_zipIdx_iff_getElem?.mp inside
      rw [identity entry inside]
      refine ⟨?_, wanted⟩
      rw [Missing, status]
      cases known : entry.1 with
      | need => rfl
      | done => exact absurd known notDone
    · rintro ⟨missing, wanted⟩
      have inside := mk_mem_zipIdx_iff_getElem?.mpr missing
      exact ⟨_, mem_filter.mpr ⟨inside, by simp [wanted]⟩, identity _ inside⟩

end Adoption

namespace Scheduler

open PieceManager

variable {c d : Core} {label : Label} {k j : PeerId} {p q : ℕ}

section Peers

variable {change : PeerView → PeerView}

theorem Core.known_adjust (known : c.peers k = some peer) :
    (c.adjust j change).peers k = some (if k = j then change peer else peer) := by
  rcases eq_or_ne k j with rfl | same
  · simp [Core.adjust, known]
  · simp [Core.adjust, same, known]

section Each

variable {kept : PeerId → PeerView → Prop} (each : ∀ k peer, c.peers k = some peer → kept k peer)
include each

theorem each_update (changed : ∀ peer, value = some peer → kept j peer) :
    ∀ k peer, Function.update c.peers j value k = some peer → kept k peer := by
  intro k peer known
  rcases eq_or_ne k j with rfl | same
  · exact changed peer (Function.update_self k value c.peers ▸ known)
  · exact each k peer (Function.update_of_ne same value c.peers ▸ known)

theorem each_adjust (changed : ∀ peer, c.peers j = some peer → kept j peer → kept j (change peer)) :
    ∀ k peer, (c.adjust j change).peers k = some peer → kept k peer := by
  refine each_update each fun peer known => ?_
  obtain ⟨before, found, rfl⟩ := map_eq_some_iff.mp known
  exact changed before found (each j before found)

theorem each_adjustAll (changed : ∀ k peer, c.peers k = some peer → kept k peer → kept k (change peer)) :
    ∀ k peer, (c.adjustAll change).peers k = some peer → kept k peer := by
  intro k peer known
  obtain ⟨before, found, rfl⟩ := map_eq_some_iff.mp known
  exact changed k before found (each k before found)

end Each

theorem Core.asks_adjust : (c.adjust j change).Asks k p ↔
      (k ≠ j ∧ c.Asks k p) ∨ (k = j ∧ ∃ peer, c.peers j = some peer ∧ p ∈ (change peer).asks) := by
  rcases eq_or_ne k j with rfl | same
  · simp [Core.Asks, Core.adjust, map_eq_some_iff]
  · simp [Core.Asks, Core.adjust, same]

theorem Core.asks_adjust_of_same (same : ∀ peer, (change peer).asks = peer.asks) :
    (c.adjust j change).Asks k p ↔ c.Asks k p := by
  rw [Core.asks_adjust]
  rcases eq_or_ne k j with rfl | here
  · simp [same, Core.Asks]
  · simp [here]

theorem Core.asks_adjustAll_of_same (same : ∀ peer, (change peer).asks = peer.asks) :
    (c.adjustAll change).Asks k p ↔ c.Asks k p := by
  simp only [Core.Asks, Core.adjustAll, map_eq_some_iff, exists_exists_and_eq_and, same]

theorem Core.not_asks_adjustAll (idle : ∀ peer, (change peer).asks = ∅) : ¬(c.adjustAll change).Asks k p := by
  simp only [Core.Asks, Core.adjustAll, map_eq_some_iff, exists_exists_and_eq_and, idle]
  exact fun ⟨_, _, asked⟩ => asked

theorem Core.asks_unask : (c.unask j q).Asks k p ↔ c.Asks k p ∧ ¬(k = j ∧ p = q) := by
  change (c.adjust j _).Asks k p ↔ _
  rw [Core.asks_adjust]
  rcases eq_or_ne k j with rfl | same
  · simp only [ne_eq, not_true_eq_false, false_and, true_and, false_or, Set.mem_sdiff, Set.mem_singleton_iff,
      Core.Asks, ← and_assoc, exists_and_right]
  · simp [same]

def Label.asksAfter (asked : PeerId → ℕ → Prop) (k : PeerId) (p : ℕ) : Label → Prop
  | .assign j q => asked k p ∨ (k = j ∧ p = q)
  | .drop j q | .forget j q => asked k p ∧ ¬(k = j ∧ p = q)
  | .adopt _ | .finish | .wipe => False
  | _ => asked k p

theorem Move.asks_iff (move : Move label c d) : d.Asks k p ↔ label.asksAfter c.Asks k p := by
  cases move with
  | @assign _ j q peer _ known =>
    change (c.adjust j _).Asks k p ↔ _
    rw [Core.asks_adjust]
    rcases eq_or_ne k j with rfl | same
    · simp only [ne_eq, not_true_eq_false, false_and, true_and, false_or, Set.mem_insert_iff, Label.asksAfter,
        Core.Asks, known, some.injEq, exists_eq_left']
      exact or_comm
    · simp [same, Label.asksAfter]
  | drop | forget => exact Core.asks_unask
  | @register _ j unknown =>
    rcases eq_or_ne k j with rfl | same
    · simp [Core.Asks, Label.asksAfter, unknown]
    · simp [Core.Asks, Label.asksAfter, same]
  | @unregister _ j peer known idle =>
    rcases eq_or_ne k j with rfl | same
    · simp [Core.Asks, Label.asksAfter, known, idle]
    · simp [Core.Asks, Label.asksAfter, same]
  | request | choke | unchoke | advertise | deliver => exact Core.asks_adjust_of_same fun _ => rfl
  | load => exact Core.asks_adjustAll_of_same fun _ => rfl
  | adopt | finish => exact iff_of_false (Core.not_asks_adjustAll fun _ => rfl) id
  | wipe => simp [Core.Asks, Label.asksAfter]
  | _ => exact Iff.rfl

end Peers

def Label.ownersAfter (owners : ℕ → List PeerId) (p : ℕ) : Label → List PeerId
  | .assign k q => if p = q then owners p ++ [k] else owners p
  | .drop k q => if p = q then (owners p).filter (· ≠ k) else owners p
  | .complete q | .requeue q => if p = q then [] else owners p
  | .load _ | .adopt _ | .finish | .drain | .wipe => []
  | _ => owners p

theorem owners_markAsPending (pm : PieceManager) (k : PeerId) :
    (pm.markAsPending q k).owners p = if p = q then pm.owners p ++ [k] else pm.owners p := by
  rw [owners, lookup_pendingQueue_markAsPending]
  split_ifs with same
  · rw [same, getD_some, owners]
  · rfl

theorem owners_eq_nil (absent : p ∉ pm.pendingQueue) : pm.owners p = [] := by
  rw [owners, lookup_eq_none.mpr absent, getD_none]

theorem Requeued.owners (requeued : Requeued pm q pm') : pm'.owners p = if p = q then [] else pm.owners p := by
  rw [PieceManager.owners, requeued.lookup]
  split_ifs <;> rfl

theorem Completed.owners (completed : Completed pm q pm') : pm'.owners p = if p = q then [] else pm.owners p := by
  rw [PieceManager.owners, completed.lookup]
  split_ifs <;> rfl

theorem owners_release (run : pm.releasePendingPeerOrRequeue q k = some pm') :
    pm'.owners p = if p = q then (pm.owners p).filter (· ≠ k) else pm.owners p := by
  rcases releasePendingPeerOrRequeue_cases run with ⟨left, rfl⟩ | ⟨nobody, requeued⟩
  · rcases eq_or_ne p q with rfl | same
    · have pending : p ∈ pm.pendingQueue := by
        by_contra absent
        rw [owners_eq_nil absent] at left
        exact left rfl
      obtain ⟨peers, found⟩ := isSome_iff_exists.mp (lookup_isSome.mpr pending)
      rw [if_pos rfl]
      simp only [owners, lookup_modify_self, found, map_some, getD_some]
    · rw [if_neg same]
      simp only [owners, lookup_modify_ne same]
  · rw [Requeued.owners requeued]
    split_ifs with same
    · rw [same, nobody]
    · rfl

section Load

/-- A move within the range of 32-bit piece indices. -/
def Label.Addressable : Label → Prop
  | .load torrent => torrent.numPieces ≤ 2 ^ 32
  | _ => True

variable {torrent : Torrent} {validated : Bool}

theorem consistent_loadedPieces (small : torrent.numPieces ≤ 2 ^ 32) (validated : Bool) :
    (TorrentState.loadedPieces torrent validated).Consistent :=
  have initial := consistent_setInitialFields small validated
  { initial with }

/-- What new metadata looks like, whatever its priorities are. -/
theorem LoadsAs.facts (small : torrent.numPieces ≤ 2 ^ 32) (loads : LoadsAs torrent validated pm) :
    pm.Consistent ∧ pm.Covered ∧ pm.pendingQueue = ∅ ∧ pm.bitfield.length = torrent.numPieces := by
  have consistent := consistent_loadedPieces small validated
  have covered := covered_setInitialFields small validated
  have length : (TorrentState.loadedPieces torrent validated).bitfield.length = torrent.numPieces := by
    simp [TorrentState.loadedPieces, setInitialFields, setGeometry]
  rcases loads with rfl | ⟨new, cancelled, sized, run⟩
  · exact ⟨consistent, covered, rfl, length⟩
  have repainted := applyPriorities_eq_some consistent (sized.trans length.symm) run
  refine ⟨repainted.consistent consistent, repainted.covered covered, ?_, ?_⟩
  · rw [repainted.pendingQueue]
    rfl
  · rw [repainted.bitfield, length]

theorem LoadsAs.not_needed_of_skipped (small : torrent.numPieces ≤ 2 ^ 32) (loads : LoadsAs torrent validated pm)
    (skipped : pm.Skipped p) : p ∉ pm.needQueue := by
  have standard : ∀ q, ¬(TorrentState.loadedPieces torrent validated).Skipped q := fun q =>
    not_skipped_of_priorities_nil rfl
  rcases loads with rfl | ⟨new, cancelled, sized, run⟩
  · exact absurd skipped (standard p)
  have consistent := consistent_loadedPieces small validated
  have length : (TorrentState.loadedPieces torrent validated).bitfield.length = torrent.numPieces := by
    simp [TorrentState.loadedPieces, setInitialFields, setGeometry]
  have repainted := applyPriorities_eq_some consistent (sized.trans length.symm) run
  exact repainted.not_needed_of_skipped consistent skipped fun before => absurd before (standard p)

end Load

/-- The moves that may change the priority of a piece. -/
def Label.Repaints : Label → Prop
  | .prioritize _ | .load _ | .wipe => True
  | _ => False

section Frame

variable (move : Move label c d)
include move

theorem Move.owners_eq (consistent : c.pm.Consistent) (addressable : label.Addressable) :
    d.pm.owners p = label.ownersAfter c.pm.owners p := by
  cases move with
  | assign => exact owners_markAsPending c.pm _
  | drop _ _ run => exact owners_release run
  | complete _ missing run =>
    have completed := missing.completed run
    exact Completed.owners completed
  | requeue _ run => exact Requeued.owners (requeuePendingToNeed_eq_some run)
  | prioritize _ length run =>
    have repainted := applyPriorities_eq_some consistent length run
    simp only [Label.ownersAfter, owners, repainted.pendingQueue]
  | load _ loads =>
    obtain ⟨-, -, empty, -⟩ := loads.facts addressable
    exact owners_eq_nil (empty ▸ notMem_empty p)
  | wipe fresh =>
    subst fresh
    rfl
  | adopt | finish | drain => rfl
  | _ => rfl

theorem Move.mem_pendingQueue (consistent : c.pm.Consistent) (addressable : label.Addressable)
    (pending : p ∈ d.pm.pendingQueue) : p ∈ c.pm.pendingQueue ∨ ∃ k, label = .assign k p := by
  cases move with
  | assign =>
    rcases mem_pendingQueue_markAsPending.mp pending with rfl | before
    · exact .inr ⟨_, rfl⟩
    · exact .inl before
  | drop _ _ run =>
    rcases releasePendingPeerOrRequeue_cases run with ⟨-, rfl⟩ | ⟨-, requeued⟩
    · exact .inl (mem_modify.mp pending)
    · exact .inl (requeued.mem_pendingQueue.mp pending).2
  | complete _ missing run =>
    have completed := missing.completed run
    exact .inl (completed.mem_pendingQueue.mp pending).2
  | requeue _ run => exact .inl ((requeuePendingToNeed_eq_some run).mem_pendingQueue.mp pending).2
  | prioritize _ length run =>
    rw [(applyPriorities_eq_some consistent length run).pendingQueue] at pending
    exact .inl pending
  | load _ loads =>
    rw [(loads.facts addressable).2.2.1] at pending
    exact absurd pending (notMem_empty p)
  | wipe fresh =>
    subst fresh
    exact absurd pending (notMem_empty p)
  | adopt | finish | drain => exact absurd pending (notMem_empty p)
  | _ => exact .inl pending

/-- Only metadata changes the number of pieces. -/
theorem Move.length_bitfield (consistent : c.pm.Consistent) (loaded : ∀ torrent, label ≠ .load torrent) :
    d.pm.bitfield.length = c.pm.bitfield.length := by
  cases move with
  | drop _ _ run => exact length_bitfield_release run
  | complete _ missing run =>
    have completed := missing.completed run
    rw [completed.bitfield, length_set]
  | requeue _ run =>
    have requeued := requeuePendingToNeed_eq_some run
    rw [requeued.bitfield, length_set]
  | prioritize _ length run =>
    have repainted := applyPriorities_eq_some consistent length run
    rw [repainted.bitfield]
  | adopt _ marked _ => exact (markAllComplete_eq_some marked).length
  | load => exact absurd rfl (loaded _)
  | wipe fresh =>
    subst fresh
    exact length_replicate
  | _ => rfl

theorem Move.done_cases (done : d.pm.bitfield[p]? = some .done) :
    (c.pm.bitfield[p]? = some .done ∧ label ≠ .wipe) ∨ label = .complete p ∨
      (∃ completed, label = .adopt completed ∧ p ∈ completed) ∨ ∃ torrent, label = .load torrent := by
  cases move with
  | drop _ _ run =>
    rcases releasePendingPeerOrRequeue_cases run with ⟨-, rfl⟩ | ⟨-, requeued⟩
    · exact .inl ⟨done, by simp⟩
    rw [requeued.bitfield, getElem?_set] at done
    split_ifs at done
    · cases done
    · exact .inl ⟨done, by simp⟩
  | @complete c q pm' cancel _ missing run =>
    have completed := missing.completed run
    rcases eq_or_ne q p with rfl | other
    · exact .inr (.inl rfl)
    · rw [completed.bitfield, getElem?_set_ne other] at done
      exact .inl ⟨done, by simp⟩
  | requeue _ run =>
    rw [(requeuePendingToNeed_eq_some run).bitfield, getElem?_set] at done
    split_ifs at done
    · cases done
    · exact .inl ⟨done, by simp⟩
  | prioritize _ _ run =>
    rw [bitfield_applyPriorities run] at done
    exact .inl ⟨done, by simp⟩
  | adopt _ marked _ =>
    rcases ((markAllComplete_eq_some marked).done p).mp done with before | found
    · exact .inl ⟨before, by simp⟩
    · exact .inr (.inr (.inl ⟨_, rfl, found⟩))
  | load => exact .inr (.inr (.inr ⟨_, rfl⟩))
  | wipe fresh =>
    subst fresh
    exact absurd (eq_of_mem_replicate (mem_of_getElem? done)) (by simp)
  | _ => exact .inl ⟨done, by simp⟩

/-- Only deletion and the start of validation lead into a state in which nothing is downloaded. -/
theorem Move.status_cases (idle : d.status = .awaitingMetadata ∨ d.status = .validating) :
    c.status = d.status ∨ label = .validate ∨ label = .wipe := by
  cases move with
  | assign =>
    split_ifs at idle ⊢
    · rcases idle with impossible | impossible <;> cases impossible
    · exact .inl rfl
  | adopt | finish | seed => rcases idle with impossible | impossible <;> cases impossible
  | validate => exact .inr (.inl rfl)
  | wipe => exact .inr (.inr rfl)
  | _ => exact .inl rfl

theorem Move.sent : d.sent = c.sent ∨ ∃ k b, label = .request k b ∧ d.sent = c.sent ++ [(k, b)] := by
  cases move with
  | request => exact .inr ⟨_, _, rfl, rfl⟩
  | _ => exact .inl rfl

theorem Move.piecePriorities (kept : ¬label.Repaints) : d.pm.piecePriorities = c.pm.piecePriorities := by
  cases move with
  | drop _ _ run =>
    rcases releasePendingPeerOrRequeue_cases run with ⟨-, rfl⟩ | ⟨-, requeued⟩
    · rfl
    · exact requeued.piecePriorities
  | complete _ missing run =>
    have completed := missing.completed run
    exact completed.piecePriorities
  | requeue _ run => exact (requeuePendingToNeed_eq_some run).piecePriorities
  | adopt _ marked _ => exact (markAllComplete_eq_some marked).piecePriorities
  | prioritize | load | wipe => exact absurd trivial kept
  | _ => rfl

theorem Move.skipped_iff (kept : ¬label.Repaints) : d.pm.Skipped p ↔ c.pm.Skipped p := by
  rw [Skipped, Skipped, effectivePriority, effectivePriority, move.piecePriorities kept]

/-- Only metadata changes the metadata. -/
theorem Move.torrent (loaded : ∀ torrent, label ≠ .load torrent) : d.torrent = c.torrent := by
  cases move with
  | load => exact absurd rfl (loaded _)
  | _ => rfl

end Frame

end Scheduler

end Superseedr
