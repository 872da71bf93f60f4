import Superseedr.Soundness.Completion

/-! # Owners and peers agree

A pending piece lists its owners, and every peer lists the pieces it is asked for. The two lists agree
between updates, and outside of the endgame a pending piece has one owner. Three steps break the
agreement: a failed write forgets the owners but not the peers, a second verification of a piece that is
being written forgets the peer but not the owner, and starting validation over leaves the endgame while
pieces still have several owners.
-/

namespace Superseedr

open List AList

variable {k : PeerId} {s : TorrentState} {p : ℕ} {host : Host} {a : Action} {c : Scheduler.Core}
  {label : Scheduler.Label}

namespace Scheduler

open PieceManager Label

structure Agreed (c : Core) : Prop where
  asked : ∀ k p, k ∈ c.pm.owners p → c.Asks k p
  owned : ∀ k p, c.Asks k p → k ∈ c.pm.owners p ∨ (k, p) ∈ c.owed
  nonempty : ∀ p ∈ c.pm.pendingQueue, c.pm.owners p ≠ []
  single : c.status ≠ .endgame → ∀ p j k, j ∈ c.pm.owners p → k ∈ c.pm.owners p → j = k

/-- The move changes both sides of the agreement or none. -/
def Label.KeepsAgreement (c : Core) : Label → Prop
  | .forget k p => k ∉ c.pm.owners p
  | .requeue p => ∀ k, ¬c.Asks k p
  | .validate => c.status = .endgame → ∀ p j k, j ∈ c.pm.owners p → k ∈ c.pm.owners p → j = k
  | _ => True

variable {c d : Core} {label : Label}

def Label.owedAfter (c : Core) : Label → Set (PeerId × ℕ)
  | .drop k p | .forget k p => c.owed \ {(k, p)}
  | .complete p => c.owed ∪ {pair | pair.1 ∈ c.pm.owners p ∧ pair.2 = p}
  | .drain => c.owed ∪ {pair | c.Asks pair.1 pair.2}
  | _ => c.owed

section

variable (moved : Move label c d)
include moved

theorem Move.owed_eq : d.owed = label.owedAfter c := by
  cases moved with
  | complete _ missing run =>
    rcases markAsComplete_cases run with ⟨done, -, -⟩ | ⟨-, rfl⟩
    · exact absurd done missing.not_done
    · rfl
  | _ => rfl

variable (sound : Sound c) (addressable : label.Addressable)
include sound addressable

theorem owners_subset_of_not_assign (other : ∀ k p, label ≠ .assign k p) (owner : k ∈ d.pm.owners p) :
    k ∈ c.pm.owners p := by
  rw [moved.owners_eq sound.consistent addressable] at owner
  cases label with
  | assign j q => exact absurd rfl (other j q)
  | drop j q =>
    simp only [ownersAfter] at owner
    split_ifs at owner
    · exact mem_of_mem_filter owner
    · exact owner
  | complete q | requeue q =>
    simp only [ownersAfter] at owner
    split_ifs at owner
    · cases owner
    · exact owner
  | load | adopt | finish | drain | wipe => cases owner
  | _ => exact owner

variable (agreed : Agreed c)
include agreed

theorem Agreed.move_nonempty (pending : p ∈ d.pm.pendingQueue) : d.pm.owners p ≠ [] := by
  have owners : d.pm.owners p = label.ownersAfter c.pm.owners p := moved.owners_eq sound.consistent addressable
  rw [owners]
  rcases moved.mem_pendingQueue sound.consistent addressable pending with before | ⟨k, rfl⟩
  · have previously := agreed.nonempty p before
    cases moved with
    | assign =>
      simp only [ownersAfter]
      split_ifs
      · simp
      · exact previously
    | drop _ _ run =>
      simp only [ownersAfter]
      split_ifs with same
      · rcases releasePendingPeerOrRequeue_cases run with ⟨left, -⟩ | ⟨-, requeued⟩
        · exact same ▸ left
        · exact absurd same (requeued.mem_pendingQueue.mp pending).1
      · exact previously
    | complete _ missing run =>
      have completed := missing.completed run
      simp only [ownersAfter, if_neg (completed.mem_pendingQueue.mp pending).1]
      exact previously
    | requeue _ run =>
      have requeued := requeuePendingToNeed_eq_some run
      simp only [ownersAfter, if_neg (requeued.mem_pendingQueue.mp pending).1]
      exact previously
    | load _ loads =>
      rw [(loads.facts addressable).2.2.1] at pending
      exact absurd pending (notMem_empty p)
    | wipe fresh =>
      subst fresh
      exact absurd pending (notMem_empty p)
    | adopt | finish | drain => exact absurd pending (notMem_empty p)
    | _ => exact previously
  · simp [ownersAfter]

variable (keeps : label.KeepsAgreement c)
include keeps

theorem Agreed.move_asked (owner : k ∈ d.pm.owners p) : d.Asks k p := by
  rw [moved.owners_eq sound.consistent addressable] at owner
  rw [moved.asks_iff]
  cases label with
  | assign j q =>
    simp only [ownersAfter] at owner
    split_ifs at owner with same
    · rcases mem_append.mp owner with before | now
      · exact .inl (agreed.asked k p before)
      · exact .inr ⟨mem_singleton.mp now, same⟩
    · exact .inl (agreed.asked k p owner)
  | drop j q =>
    simp only [ownersAfter] at owner
    split_ifs at owner with same
    · obtain ⟨before, other⟩ := mem_filter.mp owner
      exact ⟨agreed.asked k p before, fun both => of_decide_eq_true other both.1⟩
    · exact ⟨agreed.asked k p owner, fun both => same both.2⟩
  | forget j q =>
    refine ⟨agreed.asked k p owner, ?_⟩
    rintro ⟨rfl, rfl⟩
    exact keeps owner
  | complete q | requeue q =>
    simp only [ownersAfter] at owner
    split_ifs at owner
    · cases owner
    · exact agreed.asked k p owner
  | load | adopt | finish | drain | wipe => cases owner
  | _ => exact agreed.asked k p owner

theorem Agreed.move_owned (asks : d.Asks k p) : k ∈ d.pm.owners p ∨ (k, p) ∈ d.owed := by
  rw [moved.asks_iff] at asks
  rw [moved.owners_eq sound.consistent addressable, moved.owed_eq]
  cases label with
  | assign j q =>
    simp only [ownersAfter, owedAfter]
    rcases asks with before | ⟨rfl, rfl⟩
    · refine (agreed.owned k p before).imp (fun owner => ?_) id
      split_ifs
      · exact mem_append_left _ owner
      · exact owner
    · rw [if_pos rfl]
      exact .inl (mem_append_right _ (mem_singleton_self k))
  | drop j q =>
    simp only [ownersAfter, owedAfter]
    obtain ⟨before, other⟩ := asks
    refine (agreed.owned k p before).imp (fun owner => ?_) fun owes => ⟨owes, ?_⟩
    · split_ifs with same
      · exact mem_filter.mpr ⟨owner, decide_eq_true fun here => other ⟨here, same⟩⟩
      · exact owner
    · rintro same
      exact other (Prod.mk.inj same)
  | forget j q =>
    obtain ⟨before, other⟩ := asks
    exact (agreed.owned k p before).imp id fun owes => ⟨owes, fun same => other (Prod.mk.inj same)⟩
  | complete q =>
    simp only [ownersAfter, owedAfter]
    rcases agreed.owned k p asks with owner | owes
    · by_cases same : p = q
      · exact .inr (.inr ⟨same ▸ owner, same⟩)
      · rw [if_neg same]
        exact .inl owner
    · exact .inr (.inl owes)
  | requeue q =>
    have differ : p ≠ q := by
      rintro rfl
      exact keeps k asks
    simp only [ownersAfter, if_neg differ]
    exact agreed.owned k p asks
  | load torrent =>
    have inside := sound.inside k p asks
    cases moved with
    | load unloaded => simp [sound.unloaded unloaded] at inside
  | drain => exact .inr (.inr asks)
  | adopt | finish | wipe => exact asks.elim
  | _ => exact agreed.owned k p asks

theorem Agreed.move_single (outside : d.status ≠ .endgame) (p : ℕ) (i j : PeerId) (first : i ∈ d.pm.owners p)
    (second : j ∈ d.pm.owners p) : i = j := by
  by_cases assigns : ∃ k q, label = .assign k q
  · obtain ⟨k, q, rfl⟩ := assigns
    rw [moved.owners_eq sound.consistent addressable] at first second
    cases moved with
    | assign _ _ _ _ _ available =>
      split_ifs at outside
      · exact absurd rfl outside
      simp only [ownersAfter] at first second
      split_ifs at first second with same
      · have alone : ∀ i ∈ c.pm.owners p, i = k := by
          intro i owner
          rcases available with needed | ⟨running, -⟩ | ⟨-, already⟩
          · rw [← same] at needed
            rw [owners_eq_nil (sound.consistent.disjoint p needed)] at owner
            cases owner
          · exact absurd running outside
          · exact agreed.single outside p i k owner (same ▸ already)
        have only : ∀ i ∈ c.pm.owners p ++ [k], i = k := by
          intro i owner
          rcases mem_append.mp owner with before | now
          · exact alone i before
          · exact mem_singleton.mp now
        rw [only i first, only j second]
      · exact agreed.single outside p i j first second
  · have other : ∀ k q, label ≠ .assign k q := fun k q same => assigns ⟨k, q, same⟩
    have firstBefore := owners_subset_of_not_assign moved sound addressable other first
    have secondBefore := owners_subset_of_not_assign moved sound addressable other second
    have before : c.status ≠ .endgame → i = j := fun outside =>
      agreed.single outside p i j firstBefore secondBefore
    cases moved with
    | validate =>
      by_cases running : c.status = .endgame
      · exact keeps running p i j firstBefore secondBefore
      · exact before running
    | adopt | finish => cases first
    | seed complete =>
      have pending : p ∈ c.pm.pendingQueue := by
        by_contra absent
        rw [owners_eq_nil absent] at firstBefore
        exact not_mem_nil firstBefore
      have status := complete _ (mem_of_getElem? (sound.consistent.pendingMissing p pending))
      simp at status
    | wipe fresh =>
      subst fresh
      cases first
    | assign => exact absurd rfl (other _ _)
    | _ => exact before outside

theorem Agreed.move : Agreed d where
  asked _ _ owner := agreed.move_asked moved sound addressable keeps owner
  owned _ _ asks := agreed.move_owned moved sound addressable keeps asks
  nonempty _ pending := agreed.move_nonempty moved sound addressable pending
  single outside := agreed.move_single moved sound addressable keeps outside

end

end Scheduler

open Scheduler

def Event.KeepsAgreement (s : TorrentState) : Event → Prop
  | .handle _ (.pieceWriteFailed p) => p ∉ s.pieceManager.pendingQueue
  | .handle _ (.pieceVerified k p true _) =>
    p ∈ s.writingPieces → ∀ owners, s.pieceManager.pendingQueue.lookup p = some owners → k ∉ owners
  | .handle _ (.setUserTorrentConfig path _ _) =>
    s.torrentStatus = .endgame → s.startsValidation path = true →
      ∀ p owners, s.pieceManager.pendingQueue.lookup p = some owners → ∀ j ∈ owners, ∀ k ∈ owners, j = k
  | _ => True

theorem mem_owners {pm : PieceManager} :
    k ∈ pm.owners p ↔ ∃ owners, pm.pendingQueue.lookup p = some owners ∧ k ∈ owners := by
  cases found : pm.pendingQueue.lookup p <;> simp [PieceManager.owners, found]

theorem Scheduler.Permits.keepsAgreement (permits : Permits host s a c label) (sound : Sound c)
    (start : Sound (abs s [] ∅)) (agreed : Agreed (abs s [] ∅)) (keeps : (Event.handle host a).KeepsAgreement s) :
    label.KeepsAgreement c := by
  cases label with
  | forget k p =>
    rcases permits with done | ⟨same, writing, data, rfl⟩
    · have absent : p ∉ c.pm.pendingQueue := fun pending =>
        (sound.consistent.pendingMissing p pending).not_done done
      simp [Label.KeepsAgreement, owners_eq_nil absent]
    intro owner
    rw [same.pm] at owner
    obtain ⟨owners, found, among⟩ := mem_owners.mp owner
    exact keeps writing owners found among
  | requeue p =>
    obtain ⟨same, rfl⟩ := permits
    rintro k ⟨peer, known, asked⟩
    rw [same.peers] at known
    have before : (abs s [] ∅).Asks k p := ⟨peer, known, asked⟩
    rcases agreed.owned k p before with owner | owes
    · have absent := keeps
      rw [show (abs s [] ∅).pm.owners p = [] from owners_eq_nil absent] at owner
      exact not_mem_nil owner
    · exact owes
  | validate =>
    obtain ⟨status, ⟨torrent, length, rfl, unloaded⟩ | ⟨same, path, priorities, name, rfl, starts⟩⟩ := permits
    · intro running
      have awaiting : s.torrentStatus = .awaitingMetadata := start.awaiting unloaded
      rw [status, awaiting] at running
      cases running
    intro running p j k first second
    rw [same.pm] at first second
    obtain ⟨owners, found, firstAmong⟩ := mem_owners.mp first
    obtain ⟨owners', found', secondAmong⟩ := mem_owners.mp second
    obtain rfl := Option.mem_unique found found'
    exact keeps (same.status ▸ running) starts p owners found j firstAmong k secondAmong
  | _ => trivial

theorem agreed_initial (initial : Initial s) : Agreed (abs s [] ∅) := by
  have sound := sound_initial initial
  obtain ⟨_, _, _, _, _, rfl⟩ := initial
  refine ⟨fun k p owner => absurd owner not_mem_nil, fun k p asks => ?_, fun p pending => ?_,
    fun _ p j k owner => absurd owner not_mem_nil⟩
  · exact absurd (sound.inside k p asks) (Nat.not_lt_zero p)
  · exact absurd pending (notMem_empty p)

/-- Piece indices fit into 32 bits, and no step breaks the agreement. -/
def TellsBothSides (s : TorrentState) (event : Event) : Prop := event.Addressable ∧ event.KeepsAgreement s

theorem Reachable.agreed (reachable : Reachable TellsBothSides s) : Agreed (abs s [] ∅) := by
  refine (reachable.sound_and Agreed (fun _ _ allowed => allowed.1) (fun _ => agreed_initial) ?_ ?_ ?_).2
  · rintro host a s ⟨small, keeps⟩ start agreedStart c d label permits move sound agreed
    exact agreed.move move sound (permits.addressable small) (permits.keepsAgreement sound start agreedStart keeps)
  · refine fun c d move sound agreed => agreed.move move sound ?_ ?_ <;> exact trivial
  · exact fun s sent agreed => ⟨agreed.asked, agreed.owned, agreed.nonempty, agreed.single⟩

/-- A registered peer is asked for a piece. -/
def TorrentState.IsAsked (s : TorrentState) (k : PeerId) (p : ℕ) : Prop :=
  ∃ peer, s.peers.lookup k = some peer ∧ p ∈ peer.pendingRequests

theorem asks_abs (sent : List (PeerId × BlockRequest)) (owed : Set (PeerId × ℕ)) :
    (abs s sent owed).Asks k p ↔ s.IsAsked k p := by
  constructor
  · rintro ⟨seen, known, asked⟩
    obtain ⟨peer, found, rfl⟩ := Option.map_eq_some_iff.mp known
    exact ⟨peer, found, asked⟩
  · rintro ⟨peer, found, asked⟩
    exact ⟨view peer, peersView_of_lookup found, asked⟩

/-- In every run that tells both sides, a peer owns a pending piece exactly when it is registered and asked for
the piece, and outside of the endgame exactly one peer is asked for a pending piece. -/
theorem owners_agree (reachable : Reachable TellsBothSides s) :
    (∀ p k, (∃ owners, s.pieceManager.pendingQueue.lookup p = some owners ∧ k ∈ owners) ↔ s.IsAsked k p) ∧
      (s.torrentStatus ≠ .endgame → ∀ p ∈ s.pieceManager.pendingQueue, ∃! k, s.IsAsked k p) := by
  have agreed := reachable.agreed
  have agree : ∀ p k, k ∈ s.pieceManager.owners p ↔ s.IsAsked k p := by
    intro p k
    rw [← asks_abs [] ∅]
    constructor
    · exact agreed.asked k p
    · intro asks
      exact (agreed.owned k p asks).resolve_right id
  refine ⟨fun p k => mem_owners.symm.trans (agree p k), fun outside p pending => ?_⟩
  obtain ⟨k, owner⟩ := exists_mem_of_ne_nil _ (agreed.nonempty p pending)
  refine ⟨k, (agree p k).mp owner, fun j asked => ?_⟩
  exact agreed.single outside p j k ((agree p j).mpr asked) owner

/-- Two pieces are pending at a peer and a third one is still wanted. -/
theorem owners_agree_download : ∃ s : TorrentState,
    Reachable TellsBothSides s ∧ s.pieceManager.pendingQueue.lookup 0 = some ["a"] ∧
      (∀ p k, (∃ owners, s.pieceManager.pendingQueue.lookup p = some owners ∧ k ∈ owners) ↔ s.IsAsked k p) ∧
      (s.torrentStatus ≠ .endgame → ∀ p ∈ s.pieceManager.pendingQueue, ∃! k, s.IsAsked k p) := by
  obtain ⟨s, -, reachable, owned⟩ := exists_reachable TellsBothSides (fun s _ => decide (s.torrentStatus ≠ .endgame))
    (downloadOf (plainTorrent 3) ++ newPeer "a" [0xC0]) (fun s => s.pieceManager.pendingQueue.lookup 0 = some ["a"])
    (by simp +contextual [downloadOf, newPeer, TellsBothSides, Event.Addressable, Event.KeepsAgreement,
      numPieces_plainTorrent]) (by decide +kernel)
  exact ⟨s, reachable, owned, owners_agree reachable⟩

/-- After a failed write the peer still is asked for a piece that has no owner. -/
theorem asked_without_owner : ∃ s : TorrentState, Reachable (fun _ _ => True) s ∧
    s.pieceManager.pendingQueue.lookup 0 = none ∧ s.IsAsked "a" 0 := by
  obtain ⟨s, reachable, unowned, peer, found, asked⟩ := exists_reached
    (downloadOf (plainTorrent 2) ++ newPeer "a" [0xC0] ++
      [.handle {} (.incomingBlock "a" 0 0 [1, 2, 3, 4]), .handle {} (.pieceVerified "a" 0 true [1, 2, 3, 4]),
        .handle {} (.pieceWriteFailed 0)])
    (fun s => s.pieceManager.pendingQueue.lookup 0 = none ∧
      ∃ peer ∈ s.peers.lookup "a", 0 ∈ peer.pendingRequests.keys) (by decide +kernel)
  exact ⟨s, reachable, unowned, peer, found, mem_keys.mpr asked⟩

end Superseedr
