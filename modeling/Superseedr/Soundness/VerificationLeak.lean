import Superseedr.Soundness.Authenticity

/-! # Pieces that wait for a verdict

A piece is out of the scheduler's reach while it is being verified. It comes back when the worker answers,
so each such piece should have a submission that is still to be answered, or kept data and a request for
its hash at a peer that can still answer. The state of a torrent is therefore tracked together with the
submissions and the requests that are outstanding. A peer that leaves with a request, a rejection, a proof
for a piece that is done and the limit on kept data each break the agreement.
-/

namespace Superseedr

open Scheduler TorrentState Function Finset Event Option

variable {label : Scheduler.Label} {c d : Scheduler.Core} {sent : List (PeerId × BlockRequest)}
  {owed : Set (PeerId × ℕ)} {q offset : ℕ} {effect : Effect} {data proof : Bytes}

def Effect.submittedPiece : Effect → Option ℕ
  | .verifyPiece _ p _ => some p
  | .verifyPieceV2 _ p _ _ _ _ _ _ _ => some p
  | _ => none

def Effect.askedPeer : Effect → Option PeerId
  | .requestHashes k _ _ _ _ _ => some k
  | _ => none

/-- The piece whose verification an action reports. -/
def Action.verified : Action → Finset ℕ
  | .pieceVerified _ p _ _ => {p}
  | _ => ∅

/-- The request for a hash that an action answers. -/
def Action.answered : Action → Finset (PeerId × ℕ)
  | .merkleProofReceived k p _ => {(k, p)}
  | _ => ∅

/-- The requests for hashes that an action makes, given its effects. -/
def Action.asked (effects : List Effect) : Action → Finset (PeerId × ℕ)
  | .incomingBlock _ p _ _ => ((effects.filterMap Effect.askedPeer).map fun k => (k, p)).toFinset
  | _ => ∅

/-- A torrent with the submissions and the requests for hashes that are not answered yet. -/
structure Outstanding where
  state : TorrentState
  verifications : Finset ℕ
  requests : Finset (PeerId × ℕ)

/-- An event of the torrent, or a peer rejects a request for a hash, of which the torrent is not told. -/
inductive HashEvent where
  | event (event : Event)
  | hashRejected (k : PeerId) (p : ℕ)

/-- What an event does, with account of what it leaves outstanding. -/
def HashEvent.run (x : Outstanding) : HashEvent → Option Outstanding
  | .event (.handle host a) =>
    (update host x.state a).map fun (t, effects) =>
      { state := t
        verifications := (x.verifications \ a.verified) ∪ (effects.filterMap Effect.submittedPiece).toFinset
        requests := (x.requests \ a.answered) ∪ a.asked effects }
  | .event .recountRarity => some { x with state := updateRarity x.state }
  | .hashRejected k p => some { x with requests := x.requests \ {(k, p)} }

/-- Every piece being verified has a submission that is not answered, or kept data and a request for its hash at a
registered peer. -/
def Outstanding.NoLeak (x : Outstanding) : Prop :=
  ∀ p ∈ x.state.verifyingPieces, p ∈ x.verifications ∨
    (p ∈ x.state.v2PendingData ∧ ∃ k, (k, p) ∈ x.requests ∧ k ∈ x.state.peers)

/-- A finite sequence of events leads to the state, each allowed in the state it meets. -/
def Tracked (allowed : Outstanding → HashEvent → Prop) (x : Outstanding) : Prop :=
  ∃ start, Initial start ∧ Steps (fun event x y => HashEvent.run x event = some y) allowed ⟨start, ∅, ∅⟩ x

def leaves (host : Host) (s : TorrentState) : Action → List PeerId
  | .peerChoked _ => []
  | a => releases host s a

/-- No peer leaves while it is to send the hash of kept data, none rejects to send it, blocks are sent by registered
peers, no proof arrives for a piece that is done, and the kept data is not over the limit. -/
def HashEvent.Kept (x : Outstanding) : HashEvent → Prop
  | .event (.handle host a) =>
    (handle host a).Addressable ∧
      (∀ k ∈ leaves host x.state a, ∀ p, (k, p) ∈ x.requests → p ∉ x.state.v2PendingData) ∧
      match a with
      | .incomingBlock k _ _ _ => k ∈ x.state.peers
      | .merkleProofReceived _ p _ => p ∈ x.state.v2PendingData → x.state.pieceManager.bitfield[p]? ≠ some .done
      | .cleanup =>
        x.state.v2PendingData.keys.length ≤ 1024 * 1024 * 1024 / (x.state.torrent.map (·.pieceLen)).getD 16384
      | _ => True
  | .event .recountRarity => True
  | .hashRejected k p => (k, p) ∈ x.requests → p ∉ x.state.v2PendingData

variable {host : Host} {s t : TorrentState} {a : Action} {effects : List Effect} {k : PeerId} {p : ℕ}

theorem Scheduler.Move.keeps_peer (move : Move label c d) (stays : label ≠ .unregister k) (kept : label ≠ .wipe)
    (known : c.peers k ≠ none) : d.peers k ≠ none := by
  have adjusted : ∀ j change, (c.adjust j change).peers k ≠ none := by
    intro j change
    obtain ⟨peer, found⟩ := Option.ne_none_iff_exists'.mp known
    rw [Core.known_adjust found]
    exact some_ne_none _
  have adjustedAll : ∀ change, (c.adjustAll change).peers k ≠ none := by
    intro change
    simpa [Core.adjustAll] using known
  cases move with
  | wipe => exact absurd rfl kept
  | @unregister c j peer registered idle =>
    change Function.update c.peers j none k ≠ none
    rw [update_of_ne fun same => stays (by rw [same])]
    exact known
  | @register c j unknown =>
    change Function.update c.peers j _ k ≠ none
    rw [update_apply]
    split_ifs
    · simp
    · exact known
  | assign | request | drop | forget | choke | unchoke | advertise | deliver => exact adjusted _ _
  | load | adopt | finish => exact adjustedAll _
  | _ => exact known

theorem mem_peers_iff : (abs s sent owed).peers k ≠ none ↔ k ∈ s.peers := by
  rw [← not_iff_not, not_not]
  exact peersView_eq_none

theorem update_keeps_peer (stays : k ∉ leaves host s a) (kept : a ≠ .delete) (known : k ∈ s.peers)
    (run : update host s a = some (t, effects)) : k ∈ t.peers := by
  by_cases chokes : ∃ j, a = .peerChoked j
  · obtain ⟨j, rfl⟩ := chokes
    have simulates : Simulates (fun _ label => label ≠ .unregister k ∧ label ≠ .wipe) s effects t :=
      peerChoked_simulates (by simp) (by simp [Forgets]) (by simp) run
    refine mem_peers_iff.mp ((simulates []).preserves (fun c => c.peers k ≠ none) ?_ (mem_peers_iff.mpr known))
    exact fun c d label guarded move before => move.keeps_peer guarded.1 guarded.2 before
  have isReleases : leaves host s a = releases host s a := by
    cases a with
    | peerChoked j => exact absurd ⟨j, rfl⟩ chokes
    | _ => rfl
  rw [isReleases] at stays
  refine mem_peers_iff.mp (update_preserves (fun c => c.peers k ≠ none) (fun c d label permits move before => ?_) run
    (mem_peers_iff.mpr known))
  refine move.keeps_peer ?_ ?_ before
  · rintro rfl
    exact stays permits
  · rintro rfl
    exact kept permits

/-- Kept data has a file at its position. -/
def Locatable (s : TorrentState) (p offset : ℕ) : Prop :=
  ∃ torrent roots root, s.torrent = some torrent ∧ s.pieceToRoots p = some roots ∧
    matchingRootInfo roots (u64 (u64 (p * torrent.pieceLen) + offset)) = some root

structure Verifiable (s : TorrentState) : Prop where
  sound : Sound (abs s [] ∅)
  existing : ∀ p ∈ s.verifyingPieces, p < s.pieceManager.bitfield.length
  located : ∀ p offset data, s.v2PendingData.lookup p = some (offset, data) → Locatable s p offset

theorem verifiable_initial (initial : Initial s) : Verifiable s := by
  have sound := sound_initial initial
  obtain ⟨_, _, _, _, _, rfl⟩ := initial
  refine ⟨sound, fun p member => ?_, fun p offset data found => ?_⟩
  · exact absurd member (notMem_empty p)
  · exact absurd found (by simp [TorrentState.new])

section

variable (run : update host s a = some (t, effects))
include run

theorem Verifiable.existing_before (verifiable : Verifiable s) (member : q ∈ t.verifyingPieces) :
    q < s.pieceManager.bitfield.length := by
  refine (?_ : q ∈ s.verifyingPieces ∨ _).elim (verifiable.existing q) id
  cases update_verification run with
  | untouched _ untouched => exact .inl ((verifyingPieces_eq untouched.same).subset member)
  | block completes =>
    obtain ⟨inside, -, -, after, -, -⟩ := completes
    rw [verifyingPieces_eq after, mem_insert] at member
    rcases member with rfl | before
    · exact .inr inside
    · exact .inl before
  | proof answers =>
    obtain ⟨-, after, -⟩ := answers
    exact .inl ((verifyingPieces_eq after).subset member)
  | verdict _ after =>
    rw [verifyingPieces_eq after] at member
    exact .inl (mem_of_mem_erase member)
  | reset _ after => exact absurd ((verifyingPieces_eq after).subset member) (notMem_empty q)
  | dropped _ _ after | configured _ after => exact .inl ((verifyingPieces_eq after).subset member)

/-- The number of pieces is fixed once metadata is loaded. -/
theorem update_keeps_length (small : (handle host a).Addressable) (sound : Sound (abs s [] ∅))
    (existing : p < s.pieceManager.bitfield.length) : p < t.pieceManager.bitfield.length := by
  have loaded : s.torrent ≠ none := by
    intro unloaded
    have empty : s.pieceManager.bitfield = [] := sound.unloaded unloaded
    simp [empty] at existing
  have both := update_preserves (fun c => Sound c ∧ c.torrent ≠ none ∧ p < c.pm.bitfield.length)
    (fun c d label permits move before => ?_) run ⟨sound, loaded, existing⟩
  · exact both.2.2
  have notLoad : ∀ torrent, label ≠ .load torrent := by
    rintro torrent rfl
    cases move with
    | load unloaded => exact before.2.1 unloaded
  refine ⟨before.1.move (permits.addressable small) move, ?_, ?_⟩
  · rw [move.torrent notLoad]
    exact before.2.1
  · rw [move.length_bitfield before.1.consistent notLoad]
    exact before.2.2

theorem Locatable.update (located : Locatable s p offset) (kept : a ≠ .delete) : Locatable t p offset := by
  obtain ⟨torrent, roots, root, loaded, files, matching⟩ := located
  obtain ⟨stays, same⟩ := update_keeps_files loaded kept run
  exact ⟨torrent, roots, root, stays, same ▸ files, matching⟩

theorem Verifiable.update (verifiable : Verifiable s) (small : (handle host a).Addressable) : Verifiable t := by
  have sound := verifiable.sound
  refine ⟨update_sound small run sound,
    fun q member => update_keeps_length run small sound (verifiable.existing_before run member),
    fun q offset data found => ?_⟩
  rcases update_quiet run with ⟨k, p, blockOffset, block, rfl, completes⟩ | ⟨-, drains⟩
  · have located : ∀ q kept, t.v2PendingData.lookup q = some kept → Locatable s q kept.1 := by
      obtain ⟨inside, -, -, after, submits, -⟩ := completes
      rw [v2PendingData_eq after]
      cases submits with
      | bySha1 | byMerkleRoot => exact fun q kept => verifiable.located q kept.1 kept.2
      | @afterHash roots root mapped matching =>
        refine AList.forall_insert (fun q kept => verifiable.located q kept.1 kept.2) ?_
        cases known : s.torrent with
        | none =>
          have empty : s.pieceManager.bitfield = [] := sound.unloaded known
          simp [empty] at inside
        | some torrent =>
          rw [known, map_some, getD_some] at matching
          exact ⟨torrent, roots, root, known, mapped, matching⟩
    exact (located q _ found).update run (by simp)
  · rcases eq_or_ne a .delete with rfl | deleted
    · rw [v2PendingData_eq (delete_pipeline run).2] at found
      simp at found
    · exact (verifiable.located q offset data (drains.buffered q _ found)).update run deleted

end

section Leaks

variable {x : Outstanding}

def Outstanding.after (x : Outstanding) (a : Action) (t : TorrentState) (effects : List Effect) : Outstanding where
  state := t
  verifications := (x.verifications \ a.verified) ∪ (effects.filterMap Effect.submittedPiece).toFinset
  requests := (x.requests \ a.answered) ∪ a.asked effects

def Outstanding.Accounted (x : Outstanding) (p : ℕ) : Prop :=
  p ∈ x.verifications ∨ (p ∈ x.state.v2PendingData ∧ ∃ k, (k, p) ∈ x.requests ∧ k ∈ x.state.peers)

theorem Outstanding.Accounted.carry (accounted : x.Accounted p) (kept : (HashEvent.event (.handle host a)).Kept x)
    (run : update host x.state a = some (t, effects)) (notDelete : a ≠ .delete) (unverified : p ∉ a.verified)
    (still : p ∈ x.state.v2PendingData → p ∈ t.v2PendingData ∧ ∀ k, (k, p) ∉ a.answered) :
    (x.after a t effects).Accounted p := by
  rcases accounted with submitted | ⟨buffered, k, asked, registered⟩
  · exact .inl (mem_union_left _ (mem_sdiff.mpr ⟨submitted, unverified⟩))
  · obtain ⟨stillBuffered, unanswered⟩ := still buffered
    refine .inr ⟨stillBuffered, k, mem_union_left _ (mem_sdiff.mpr ⟨asked, unanswered k⟩), ?_⟩
    exact update_keeps_peer (fun leaving => kept.2.1 k leaving p asked buffered) notDelete registered run

theorem Outstanding.accounted_of_submitted (member : effect ∈ effects) (submits : effect.submittedPiece = some p) :
    (x.after a t effects).Accounted p :=
  .inl (mem_union_right _ (List.mem_toFinset.mpr (List.mem_filterMap.mpr ⟨effect, member, submits⟩)))

theorem accounted_incomingBlock (noLeak : x.NoLeak)
    (kept : (HashEvent.event (.handle host (.incomingBlock k q offset data))).Kept x)
    (run : update host x.state (.incomingBlock k q offset data) = some (t, effects))
    (completes : Completes x.state k q offset data t effects) (member : p ∈ t.verifyingPieces) :
    (x.after (.incomingBlock k q offset data) t effects).Accounted p := by
  obtain @⟨piece, pm, submitted, buffered, -, -, -, after, submits, sameEffects⟩ := completes
  have sent : ∀ effect ∈ submitted, effect.verifies = true → effect ∈ effects := by
    intro effect among verifies
    have filtered := List.mem_filter.mpr ⟨among, verifies⟩
    rw [← sameEffects] at filtered
    exact (List.mem_filter.mp filtered).1
  rcases eq_or_ne p q with rfl | other
  · cases submits with
    | bySha1 | byMerkleRoot => exact Outstanding.accounted_of_submitted (sent _ (.head _) rfl) rfl
    | @afterHash roots root mapped matching =>
      obtain ⟨first, others, rfl⟩ : ∃ first others, roots = first :: others := by
        cases roots with
        | nil => simp [matchingRootInfo] at matching
        | cons first others => exact ⟨first, others, rfl⟩
      obtain ⟨i, base, request⟩ : ∃ i base,
          x.state.hashRequest k p = [.requestHashes k first.rootHash i 1 0 base] := by
        simp only [hashRequest, mapped]
        exact ⟨_, _, rfl⟩
      refine .inr ⟨?_, k, mem_union_right _ ?_, ?_⟩
      · change p ∈ t.v2PendingData
        rw [v2PendingData_eq after]
        exact (AList.mem_insert _).mpr (.inl rfl)
      · refine List.mem_toFinset.mpr (List.mem_map.mpr ⟨k, List.mem_filterMap.mpr ?_, rfl⟩)
        refine ⟨.requestHashes k first.rootHash i 1 0 base, sent _ ?_ rfl, rfl⟩
        rw [request]
        exact List.mem_singleton_self _
      · exact update_keeps_peer (fun leaving => absurd leaving (by simp [leaves, releases])) (by simp) kept.2.2 run
  · rw [verifyingPieces_eq after, mem_insert] at member
    refine .carry (noLeak p (member.resolve_left other)) kept run (by simp) (notMem_empty p) fun pending =>
      ⟨?_, fun _ => notMem_empty _⟩
    rw [v2PendingData_eq after]
    cases submits with
    | bySha1 | byMerkleRoot => exact pending
    | afterHash => exact (AList.mem_insert _).mpr (.inr pending)

theorem accounted_merkleProofReceived (noLeak : x.NoLeak) (verifiable : Verifiable x.state)
    (kept : (HashEvent.event (.handle host (.merkleProofReceived k q proof))).Kept x)
    (run : update host x.state (.merkleProofReceived k q proof) = some (t, effects))
    (answers : TorrentState.Answers x.state k q proof t effects) (member : p ∈ t.verifyingPieces) :
    (x.after (.merkleProofReceived k q proof) t effects).Accounted p := by
  obtain @⟨offset, data, pending, after, sent⟩ := answers
  rcases eq_or_ne p q with rfl | other
  · rcases sent with ⟨-, nowhere⟩ | ⟨effect, rfl, submits⟩
    · obtain ⟨torrent, roots, root, loaded, files, matching⟩ := verifiable.located p offset data pending
      have lost := nowhere roots files
      rw [loaded, map_some, getD_some, matching] at lost
      cases lost
    · obtain ⟨_, _, _, _, _, _, _, _, _, _, _, _, _, rfl⟩ := submits.submitted
      exact Outstanding.accounted_of_submitted (.head _) rfl
  rw [verifyingPieces_eq after] at member
  refine .carry (noLeak p member) kept run (by simp) (notMem_empty p) fun buffered => ⟨?_, fun j answered => ?_⟩
  · rw [v2PendingData_eq after]
    exact AList.mem_erase.mpr ⟨other, buffered⟩
  · exact other (Prod.mk.inj (mem_singleton.mp answered)).2

theorem Outstanding.NoLeak.update (noLeak : x.NoLeak) (verifiable : Verifiable x.state)
    (kept : (HashEvent.event (.handle host a)).Kept x) (run : update host x.state a = some (t, effects)) :
    (x.after a t effects).NoLeak := by
  intro p member
  change p ∈ t.verifyingPieces at member
  change (x.after a t effects).Accounted p
  cases update_verification run with
  | untouched ignored untouched =>
    rw [verifyingPieces_eq untouched.same] at member
    refine .carry (noLeak p member) kept run ?_ (fun same => ?_) fun buffered => ⟨?_, fun k answered => ?_⟩
    · rintro rfl
      exact ignored
    · cases a with
      | pieceVerified k q valid data =>
        obtain rfl := mem_singleton.mp same
        exact absurd (verifiable.existing p member) (not_lt.mpr ignored)
      | _ => exact notMem_empty p same
    · rwa [v2PendingData_eq untouched.same]
    · cases a with
      | merkleProofReceived j q proof =>
        obtain ⟨-, rfl⟩ := Prod.mk.inj (mem_singleton.mp answered)
        rcases ignored with done | missing
        · exact kept.2.2 buffered done
        · exact absurd buffered (AList.lookup_eq_none.mp missing)
      | _ => exact notMem_empty _ answered
  | block completes => exact accounted_incomingBlock noLeak kept run completes member
  | proof answers => exact accounted_merkleProofReceived noLeak verifiable kept run answers member
  | @verdict k q valid data _ _ _ after =>
    rw [verifyingPieces_eq after] at member
    have other : p ≠ q := ne_of_mem_erase member
    refine .carry (noLeak p (mem_of_mem_erase member)) kept run (by simp) (fun same => other (mem_singleton.mp same))
      fun buffered => ⟨?_, fun _ => notMem_empty _⟩
    rw [v2PendingData_eq after]
    exact AList.mem_erase.mpr ⟨other, buffered⟩
  | reset _ after => exact absurd ((verifyingPieces_eq after).subset member) (notMem_empty p)
  | dropped _ beyond => exact absurd beyond (not_lt.mpr kept.2.2)
  | configured _ after =>
    rw [verifyingPieces_eq after] at member
    refine .carry (noLeak p member) kept run (by simp) (notMem_empty p) fun buffered =>
      ⟨?_, fun _ => notMem_empty _⟩
    rwa [v2PendingData_eq after]

/-- In every run of kept events, every piece being verified is accounted for, so that a piece for which nothing is
outstanding is not held back. -/
theorem verifications_accounted (tracked : Tracked HashEvent.Kept x) :
    x.NoLeak ∧ ∀ p, p ∉ x.verifications →
      (∀ k, (k, p) ∈ x.requests → k ∉ x.state.peers) → p ∉ x.state.verifyingPieces := by
  obtain ⟨start, initial, steps⟩ := tracked
  have both := steps.preserves (fun x => x.NoLeak ∧ Verifiable x.state) ?_ ⟨?_, verifiable_initial initial⟩
  · refine ⟨both.1, fun p unsubmitted nobody verifying => ?_⟩
    rcases both.1 p verifying with submitted | ⟨-, k, asked, registered⟩
    · exact unsubmitted submitted
    · exact nobody k asked registered
  · rintro x y event kept run ⟨noLeak, verifiable⟩
    cases event with
    | hashRejected k p =>
      cases run
      refine ⟨fun q member => ?_, verifiable⟩
      rcases noLeak q member with submitted | ⟨buffered, j, asked, registered⟩
      · exact .inl submitted
      · refine .inr ⟨buffered, j, mem_sdiff.mpr ⟨asked, fun same => ?_⟩, registered⟩
        obtain ⟨rfl, rfl⟩ := Prod.mk.inj (mem_singleton.mp same)
        exact kept asked buffered
    | event event =>
      cases event with
      | recountRarity =>
        cases run
        have small : Label.recount.Addressable := trivial
        exact ⟨noLeak, verifiable.sound.move small (updateRarity_move x.state), verifiable.existing, verifiable.located⟩
      | handle host a =>
        obtain ⟨⟨t, effects⟩, ran, rfl⟩ := map_eq_some_iff.mp run
        exact ⟨noLeak.update verifiable kept ran, verifiable.update ran kept.1⟩
  · obtain ⟨_, _, _, _, _, rfl⟩ := initial
    exact fun p member => absurd member (notMem_empty p)

end Leaks

def pieceWithoutHash : List HashEvent := (blockOfTree 0 [1, 1, 1, 1]).map .event

/-- The only peer leaves after it has sent a piece of which it was asked the hash: nothing is outstanding, and the
piece is still held back. -/
theorem piece_held_back : ∃ x,
    Tracked (fun _ event => ∀ host a, event = .event (.handle host a) → (handle host a).Addressable) x ∧
      0 ∈ x.state.verifyingPieces ∧ x.verifications = ∅ ∧ x.state.peers.keys = [] ∧
      x.state.pieceManager.bitfield[0]? = some .need ∧ ¬x.NoLeak := by
  have pieces : treeTorrent.numPieces = 3 := by decide +kernel
  obtain ⟨x, run, verifying, nothing, nobody, missing⟩ := Steps.exists_replay
    (fun _ event => ∀ host a, event = .event (.handle host a) → (handle host a).Addressable) HashEvent.run
    (fun _ _ => true) (pieceWithoutHash ++ [.event (.handle {} (.peerDisconnected "p" true))]) ⟨emptyState, ∅, ∅⟩
    (fun x => 0 ∈ x.state.verifyingPieces ∧ x.verifications = ∅ ∧ x.state.peers.keys = [] ∧
      x.state.pieceManager.bitfield[0]? = some .need)
    (by simp [pieceWithoutHash, blockOfTree, downloadOf, newPeer, Addressable, pieces]) (by decide +kernel)
  refine ⟨x, ⟨emptyState, ⟨_, _, _, _, _, rfl⟩, run⟩, verifying, nothing, nobody, missing, fun noLeak => ?_⟩
  rcases noLeak 0 verifying with submitted | ⟨-, k, -, registered⟩
  · simp [nothing] at submitted
  · rw [AList.mem_keys, nobody] at registered
    cases registered

def HashEvent.expected (x : Outstanding) : HashEvent → Bool
  | .event (.handle _ (.incomingBlock k _ _ _)) => decide (x.requests = ∅) && decide (k ∈ x.state.peers)
  | _ => decide (x.requests = ∅)

theorem verifications_accounted_piece : ∃ x, Tracked HashEvent.Kept x ∧ 0 ∈ x.state.verifyingPieces ∧ x.NoLeak := by
  have pieces : treeTorrent.numPieces = 3 := by decide +kernel
  obtain ⟨x, run, verifying⟩ := Steps.exists_replay HashEvent.Kept HashEvent.run HashEvent.expected pieceWithoutHash
    ⟨emptyState, ∅, ∅⟩ (fun x => 0 ∈ x.state.verifyingPieces)
    (by simp +contextual [pieceWithoutHash, blockOfTree, downloadOf, newPeer, HashEvent.expected, HashEvent.Kept,
      Addressable, pieces]) (by decide +kernel)
  have tracked : Tracked HashEvent.Kept x := ⟨emptyState, ⟨_, _, _, _, _, rfl⟩, run⟩
  exact ⟨x, tracked, verifying, (verifications_accounted tracked).1⟩

end Superseedr
