import Superseedr.Soundness.Geometry

/-! # Requests are safe

A request goes to a registered peer that does not choke us and has the piece, lies inside the piece on
the grid of blocks, and is not outstanding at that peer already. No peer has more than 512 outstanding
requests, and nothing is asked of a peer that chokes us.
-/

namespace Superseedr

open List Option Function AList

variable {torrent : Torrent} {before : Set (PeerId × BlockRequest)} {host : Host} {s : TorrentState} {a : Action}
  {c d : Scheduler.Core} {label : Scheduler.Label} {sent : List (PeerId × BlockRequest)} {owed : Set (PeerId × ℕ)}

namespace Scheduler

open PieceManager

structure PeerView.Orderly (peer : PeerView) : Prop where
  silent : peer.choking = .choke → peer.asks = ∅
  advertised : ∀ p ∈ peer.asks, peer.bits[p]? = some true
  bounded : peer.inflight ≤ maxPipelineDepth

def Orderly (c : Core) : Prop := ∀ k peer, c.peers k = some peer → peer.Orderly

variable {c d : Core} {label : Label} {k : PeerId} {peer : PeerView}

theorem Orderly.unask (orderly : Orderly c) (j : PeerId) (p : ℕ) : Orderly (c.unask j p) := by
  refine each_adjust orderly fun peer _ before => ?_
  refine ⟨fun choking => ?_, fun q asked => before.advertised q asked.1, before.bounded⟩
  rw [before.silent choking, Set.empty_sdiff]

theorem Orderly.move (orderly : Orderly c) (sound : Sound c) (move : Move label c d) : Orderly d := by
  cases move with
  | @assign _ j p peer _ known listening advertised =>
    refine each_adjust orderly fun other found before => ?_
    obtain rfl := mem_unique known found
    refine ⟨fun choking => ?_, fun q asked => ?_, before.bounded⟩
    · cases listening.symm.trans choking
    · rcases asked with rfl | earlier
      · exact advertised
      · exact before.advertised q earlier
  | @request _ j b peer known listening asked idle room =>
    refine each_adjust orderly fun other found before => ⟨before.silent, before.advertised, ?_⟩
    obtain rfl := mem_unique known found
    exact room
  | drop | forget => exact orderly.unask _ _
  | register =>
    refine each_update orderly fun peer fresh => ?_
    cases fresh
    exact ⟨fun _ => rfl, fun p asked => asked.elim, Nat.zero_le _⟩
  | unregister => exact each_update orderly fun _ => nofun
  | choke known idle =>
    refine each_adjust orderly fun other found before => ?_
    obtain rfl := mem_unique known found
    exact ⟨fun _ => idle, before.advertised, Nat.zero_le _⟩
  | unchoke =>
    refine each_adjust orderly fun other _ before => ⟨fun choking => ?_, before.advertised, before.bounded⟩
    cases choking
  | advertise known kept =>
    refine each_adjust orderly fun other found before => ⟨before.silent, fun p asked => ?_, before.bounded⟩
    obtain rfl := mem_unique known found
    exact kept p (before.advertised p asked)
  | deliver =>
    refine each_adjust orderly fun other _ before => ⟨before.silent, before.advertised, ?_⟩
    exact (Nat.sub_le _ _).trans before.bounded
  | load unloaded =>
    refine each_adjustAll orderly fun k other found before => ⟨before.silent, fun p asked => ?_, before.bounded⟩
    have inside := sound.inside k p ⟨other, found, asked⟩
    simp [sound.unloaded unloaded] at inside
  | adopt =>
    exact each_adjustAll orderly fun k other found before => ⟨fun _ => rfl, fun p asked => asked.elim, before.bounded⟩
  | finish =>
    exact each_adjustAll orderly fun k other found before => ⟨fun _ => rfl, fun p asked => asked.elim, Nat.zero_le _⟩
  | wipe =>
    intro k peer known
    simp at known
  | _ => exact orderly

def Label.HandsOut : Label → Prop
  | .assign _ _ | .request _ _ | .forget _ _ | .unchoke _ | .advertise _ _ | .assemble | .complete _ | .adopt _
  | .finish => True
  | _ => False

structure PeerView.Extends (peer after : PeerView) : Prop where
  listening : peer.choking = .unchoke → after.choking = .unchoke
  bits : ∀ i : ℕ, peer.bits[i]? = some true → after.bits[i]? = some true

section

variable (handsOut : label.HandsOut) (moved : Move label c d)
include handsOut moved

theorem Move.extends (known : c.peers k = some peer) :
    ∃ after, d.peers k = some after ∧ peer.Extends after ∧ (label ≠ .finish → peer.active ⊆ after.active) := by
  have same : peer.Extends peer := ⟨id, fun _ => id⟩
  have adjusted : ∀ {j change}, (k = j → peer.Extends (change peer) ∧ peer.active ⊆ (change peer).active) →
      ∃ after, (c.adjust j change).peers k = some after ∧ peer.Extends after ∧
        (label ≠ .finish → peer.active ⊆ after.active) := by
    intro j change grows
    refine ⟨_, Core.known_adjust known, ?_⟩
    split_ifs with here
    · exact ⟨(grows here).1, fun _ => (grows here).2⟩
    · exact ⟨same, fun _ => subset_rfl⟩
  cases moved with
  | assign | forget => exact adjusted fun _ => ⟨⟨id, fun _ => id⟩, subset_rfl⟩
  | request => exact adjusted fun _ => ⟨⟨id, fun _ => id⟩, Finset.subset_insert _ _⟩
  | unchoke => exact adjusted fun _ => ⟨⟨fun _ => rfl, fun _ => id⟩, subset_rfl⟩
  | advertise found kept =>
    refine adjusted fun here => ?_
    subst here
    obtain rfl := mem_unique known found
    exact ⟨⟨id, kept⟩, subset_rfl⟩
  | adopt =>
    refine ⟨_, map_eq_some_iff.mpr ⟨peer, known, rfl⟩, ⟨id, fun _ => id⟩, fun _ => subset_rfl⟩
  | finish =>
    refine ⟨_, map_eq_some_iff.mpr ⟨peer, known, rfl⟩, ⟨id, fun _ => id⟩, fun more => absurd rfl more⟩
  | assemble | complete => exact ⟨peer, known, same, fun _ => subset_rfl⟩
  | _ => exact handsOut.elim

/-- Handing out work changes neither the metadata nor the files of pieces. -/
theorem Move.pieceSize (p : ℕ) : d.pieceSize p = c.pieceSize p := by
  cases moved with
  | assign | request | forget | unchoke | advertise | adopt | finish | assemble | complete => rfl
  | _ => exact handsOut.elim

structure Targeted (c : Core) : Prop where
  target : ∀ k b, (k, b) ∈ c.sent →
    ∃ peer, c.peers k = some peer ∧ peer.choking = .unchoke ∧ peer.bits[b.1]? = some true
  shape : ∀ k b, (k, b) ∈ c.sent → WellShaped (c.pieceSize b.1) b

theorem Targeted.move (targeted : Targeted c) (sound : Sound c) (orderly : Orderly c)
    (loaded : c.torrent = some torrent) (wellFormed : torrent.WellFormed) (fits : Fits torrent c) : Targeted d := by
  have kept : ∀ k b, (k, b) ∈ c.sent →
      ∃ peer, d.peers k = some peer ∧ peer.choking = .unchoke ∧ peer.bits[b.1]? = some true := by
    intro k b member
    obtain ⟨peer, known, listening, advertised⟩ := targeted.target k b member
    obtain ⟨after, stillKnown, extends_, -⟩ := moved.extends handsOut known
    exact ⟨after, stillKnown, extends_.listening listening, extends_.bits _ advertised⟩
  have shaped : ∀ k b, (k, b) ∈ c.sent → WellShaped (d.pieceSize b.1) b := by
    intro k b member
    rw [moved.pieceSize handsOut]
    exact targeted.shape k b member
  rcases moved.sent with same | ⟨j, b, rfl, more⟩
  · exact ⟨same ▸ kept, same ▸ shaped⟩
  cases moved with
  | @request _ _ _ peer known listening asked _ _ requestable =>
    constructor
    · intro k b' member
      rcases mem_append.mp (more ▸ member) with earlier | now
      · exact kept k b' earlier
      obtain ⟨rfl, rfl⟩ := Prod.mk.inj (mem_singleton.mp now)
      refine ⟨_, Core.known_adjust known, ?_⟩
      rw [if_pos rfl]
      exact ⟨listening, (orderly k peer known).advertised _ asked⟩
    · intro k b' member
      rcases mem_append.mp (more ▸ member) with earlier | now
      · exact shaped k b' earlier
      · obtain ⟨rfl, rfl⟩ := Prod.mk.inj (mem_singleton.mp now)
        exact fits.wellShaped wellFormed loaded (sound.inside k _ ⟨peer, known, asked⟩) requestable

structure Core.Idle (c : Core) : Prop where
  status : c.status = .done
  asks : ∀ k p, ¬c.Asks k p
  need : c.pm.needQueue = []
  pending : c.pm.pendingQueue = ∅

theorem Core.Idle.move (idle : c.Idle) : d.Idle ∧ d.sent = c.sent := by
  have asks : ∀ k p, d.Asks k p → label.asksAfter c.Asks k p := fun k p => moved.asks_iff.mp
  cases moved with
  | @assign _ j p peer _ known _ _ _ available =>
    rcases available with needed | ⟨-, pending⟩ | ⟨asked, -⟩
    · simp [idle.need] at needed
    · exact absurd (idle.pending ▸ pending) (notMem_empty p)
    · exact absurd ⟨peer, known, asked⟩ (idle.asks j p)
  | @request _ j b peer known _ asked => exact absurd ⟨peer, known, asked⟩ (idle.asks j b.1)
  | forget => exact ⟨{ idle with asks := fun k p asked => idle.asks k p (asks k p asked).1 }, rfl⟩
  | complete _ missing run =>
    have completed := missing.completed run
    refine ⟨⟨idle.status, fun k p asked => idle.asks k p (asks k p asked), ?_, ?_⟩, rfl⟩
    · rw [completed.needQueue, idle.need, filter_nil]
    · refine eq_empty_of_forall_notMem fun p pending => ?_
      exact absurd (idle.pending ▸ (completed.mem_pendingQueue.mp pending).2) (notMem_empty p)
  | adopt validating => cases idle.status.symm.trans validating
  | finish downloading => exact absurd downloading (by simp [idle.status])
  | unchoke | advertise | assemble =>
    exact ⟨{ idle with asks := fun k p asked => idle.asks k p (asks k p asked) }, rfl⟩
  | _ => exact handsOut.elim

/-- No request is made twice or was outstanding before; all of them stay outstanding until nothing is wanted. -/
structure Fresh (before : Set (PeerId × BlockRequest)) (c : Core) : Prop where
  nodup : c.sent.Nodup
  fresh : ∀ x ∈ c.sent, x ∉ before
  active : c.Idle ∨ ∀ x, x ∈ before ∨ x ∈ c.sent → ∃ peer, c.peers x.1 = some peer ∧ x.2 ∈ peer.active

theorem Fresh.move (fresh : Fresh before c) : Fresh before d := by
  rcases fresh.active with idle | active
  · obtain ⟨stillIdle, same⟩ := idle.move handsOut moved
    exact ⟨same ▸ fresh.nodup, same ▸ fresh.fresh, .inl stillIdle⟩
  rcases eq_or_ne label .finish with rfl | finishes
  · cases moved with
    | finish =>
      refine ⟨fresh.nodup, fresh.fresh, .inl ⟨rfl, fun k p asked => ?_, rfl, rfl⟩⟩
      exact Core.not_asks_adjustAll (fun _ => rfl) asked
  have kept : ∀ x, x ∈ before ∨ x ∈ c.sent → ∃ peer, d.peers x.1 = some peer ∧ x.2 ∈ peer.active := by
    intro x outstanding
    obtain ⟨peer, known, isActive⟩ := active x outstanding
    obtain ⟨after, stillKnown, -, grows⟩ := moved.extends handsOut known
    exact ⟨after, stillKnown, grows finishes isActive⟩
  rcases moved.sent with same | ⟨k, b, rfl, more⟩
  · exact ⟨same ▸ fresh.nodup, same ▸ fresh.fresh, .inr (same ▸ kept)⟩
  cases moved with
  | @request _ _ _ peer known _ _ idle =>
    have unseen : ∀ x, x ∈ before ∨ x ∈ c.sent → x ≠ (k, b) := by
      rintro x outstanding rfl
      obtain ⟨other, found, isActive⟩ := active _ outstanding
      obtain rfl := mem_unique known found
      exact idle isActive
    refine ⟨?_, ?_, .inr ?_⟩
    · rw [more, ← concat_eq_append]
      exact fresh.nodup.concat fun member => unseen _ (.inr member) rfl
    · intro x member
      rcases mem_append.mp (more ▸ member) with earlier | now
      · exact fresh.fresh x earlier
      · intro outstanding
        exact unseen x (.inl outstanding) (mem_singleton.mp now)
    · rintro x (outstanding | member)
      · exact kept x (.inl outstanding)
      · rcases mem_append.mp (more ▸ member) with earlier | now
        · exact kept x (.inr earlier)
        · obtain rfl := mem_singleton.mp now
          refine ⟨_, Core.known_adjust known, ?_⟩
          rw [if_pos rfl]
          exact Finset.mem_insert_self _ _

end

end Scheduler

open Scheduler

theorem Scheduler.Permits.handsOut (permits : Permits host s a c label) (assigns : a.assigns = true)
    (arrived : ∀ k b, label ≠ .deliver k b) : label.HandsOut := by
  have nobody := releases_eq_nil host s assigns
  cases label with
  | assign | request | forget | unchoke | advertise | assemble | complete | adopt | finish => trivial
  | drop k _ | unregister k =>
    have released : k ∈ releases host s a := permits
    simp [nobody] at released
  | register k =>
    obtain ⟨addr, rfl⟩ := permits
    simp [Action.assigns] at assigns
  | choke k =>
    obtain rfl : a = .peerChoked k := permits
    simp [Action.assigns] at assigns
  | deliver k b => exact absurd rfl (arrived k b)
  | requeue p =>
    obtain ⟨-, rfl⟩ := permits
    simp [Action.assigns] at assigns
  | prioritize | load | wipe => exact absurd trivial (permits.not_repaints assigns)
  | recount => exact permits.elim
  | validate =>
    obtain ⟨-, ⟨torrent, length, rfl, -⟩ | ⟨-, path, priorities, name, rfl, -⟩⟩ := permits
    all_goals simp [Action.assigns] at assigns
  | seed =>
    obtain rfl : a = .cleanup := permits
    simp [Action.assigns] at assigns
  | drain =>
    obtain ⟨-, rfl | rfl⟩ := permits
    all_goals simp [Action.assigns] at assigns

/-- Metadata is loaded once. -/
theorem Scheduler.Move.keeps_torrent (move : Move label c d) (loaded : c.torrent = some torrent) :
    label.Addressable ∧ d.torrent = some torrent := by
  cases label with
  | load other =>
    cases move with
    | load unloaded => exact absurd (unloaded.symm.trans loaded) (by simp)
  | _ => exact ⟨trivial, (move.torrent (by simp)).trans loaded⟩

/-- What the peers and the geometry look like whenever no update is under way. -/
structure Scheduler.Settled (c : Core) : Prop where
  sound : Sound c
  orderly : Orderly c
  geometric : Geometric c

theorem Scheduler.Settled.move (settled : Settled c) (addressable : label.Addressable) (move : Move label c d) :
    Settled d where
  sound := settled.sound.move addressable move
  orderly := settled.orderly.move settled.sound move
  geometric := settled.geometric.move settled.sound addressable move

theorem Scheduler.Settled.of_abs (settled : Scheduler.Settled (abs s sent owed)) : Scheduler.Settled (abs s [] ∅) where
  sound := settled.sound.of_abs [] ∅
  orderly := settled.orderly
  geometric torrent loaded wellFormed covered :=
    have fits := settled.geometric torrent loaded wellFormed covered
    ⟨fits.bounded, fits.unknown⟩

theorem settled_initial (initial : Initial s) : Scheduler.Settled (abs s [] ∅) := by
  have sound := sound_initial initial
  obtain ⟨_, _, _, _, _, rfl⟩ := initial
  refine ⟨sound, fun k peer known => ?_, fun torrent loaded => ?_⟩
  · have nobody := peersView_eq_none.mpr (notMem_empty k)
    exact absurd (nobody.symm.trans known) (by simp)
  · exact absurd loaded (by simp [Scheduler.abs, TorrentState.new])

theorem Reachable.settled (reachable : Reachable (fun _ event => event.Addressable) s) :
    Scheduler.Settled (abs s [] ∅) := by
  refine reachable.invariant (fun s => Scheduler.Settled (abs s [] ∅)) (fun s => settled_initial) ?_ ?_
  · intro host a s t effects small run settled
    exact (update_preserves Scheduler.Settled
      (fun c d label permits move before => before.move (permits.addressable small) move)
      run settled).of_abs
  · intro s settled
    have small : Label.recount.Addressable := trivial
    exact settled.move small (updateRarity_move s)

section Update

variable {t : TorrentState} {effects : List Effect}

/-- The requests of an update, and which of them can have been outstanding before. -/
theorem requests_of_update (settled : Scheduler.Settled (abs s [] ∅)) (loaded : s.torrent = some torrent)
    (wellFormed : torrent.WellFormed) (covered : torrent.CoveredByFiles) (run : update host s a = some (t, effects)) :
    Targeted (abs t (requestsOf effects) ∅) ∧ (requestsOf effects).Nodup ∧
      ∀ k b, (k, b) ∈ requestsOf effects → ∀ peer, s.peers.lookup k = some peer → b ∈ peer.activeBlocks →
        Permits host s a (abs s [] ∅) (.deliver k b) := by
  cases assigns : a.assigns with
  | false =>
    rw [requestsOf_eq_nil assigns run]
    refine ⟨⟨fun k b member => ?_, fun k b member => ?_⟩, nodup_nil, fun k b member => ?_⟩
    all_goals cases member
  | true =>
    obtain ⟨c, first, rest⟩ := update_after_delivery run
    have start : Scheduler.Settled c ∧ c.torrent = some torrent ∧ c.sent = [] := by
      rcases first with ⟨rfl, -⟩ | ⟨k, b, -, delivered⟩
      · exact ⟨settled, loaded, rfl⟩
      have kept := delivered.keeps_torrent loaded
      refine ⟨settled.move kept.1 delivered, kept.2, ?_⟩
      cases delivered
      rfl
    obtain ⟨begun, known, nothing⟩ := start
    obtain ⟨before, isBefore⟩ : ∃ before : Set (PeerId × BlockRequest), before =
        {x | ∃ peer, c.peers x.1 = some peer ∧ x.2 ∈ peer.active} := ⟨_, rfl⟩
    have fresh : Fresh before c := by
      refine ⟨nothing ▸ nodup_nil, fun x member => ?_, .inr fun x outstanding => ?_⟩
      · exact absurd (nothing ▸ member) not_mem_nil
      · rcases outstanding with inside | member
        · rwa [isBefore] at inside
        · exact absurd (nothing ▸ member) not_mem_nil
    have targeted : Targeted c := by
      refine ⟨fun k b member => ?_, fun k b member => ?_⟩
      all_goals exact absurd (nothing ▸ member) not_mem_nil
    obtain ⟨-, -, targets, news⟩ := rest.preserves
      (fun c => Scheduler.Settled c ∧ c.torrent = some torrent ∧ Targeted c ∧ Fresh before c)
      (fun c d label permits move holds =>
        have handsOut := permits.1.handsOut assigns permits.2
        have fits := holds.1.geometric torrent holds.2.1 wellFormed covered
        have kept := move.keeps_torrent holds.2.1
        ⟨holds.1.move kept.1 move, kept.2,
          holds.2.2.1.move handsOut move holds.1.sound holds.1.orderly holds.2.1 wellFormed fits,
          holds.2.2.2.move handsOut move⟩)
      ⟨begun, known, targeted, fresh⟩
    refine ⟨targets, news.nodup, fun k b member peer found active => ?_⟩
    have notBefore := news.fresh (k, b) member
    rw [isBefore] at notBefore
    have seen := peersView_of_lookup found
    rcases first with ⟨rfl, -⟩ | ⟨j, b', permitted, delivered⟩
    · exact absurd ⟨view peer, seen, active⟩ notBefore
    by_cases same : k = j ∧ b = b'
    · obtain ⟨rfl, rfl⟩ := same
      exact permitted
    cases delivered with
    | deliver =>
      refine absurd ⟨_, Core.known_adjust seen, ?_⟩ notBefore
      split_ifs with here
      · exact Finset.mem_erase.mpr ⟨fun equal => same ⟨here, equal⟩, active⟩
      · exact active

end Update

/-- Whatever happens to a torrent with a well-formed piece length whose version 2 pieces belong to files: nothing
is asked of a peer that chokes us, and every request of an update goes to a registered peer that listens and has
the piece, is a block of the piece, is made once, and is not outstanding at that peer. A block that arrives with
the update itself no longer is outstanding. -/
theorem requests_safe (reachable : Reachable (fun _ event => event.Addressable) s) (loaded : s.torrent = some torrent)
    (wellFormed : 0 < torrent.info.pieceLength ∧ torrent.info.pieceLength < 2 ^ 32) (covered : torrent.CoveredByFiles) :
    (∀ k peer, s.peers.lookup k = some peer → peer.peerChoking = .choke → peer.pendingRequests.keys = []) ∧
      ∀ host a t effects, update host s a = some (t, effects) →
        (∀ k peer, t.peers.lookup k = some peer → peer.inflightRequests ≤ 512) ∧
        ∀ k blocks, .sendToPeer k (.bulkRequest blocks) ∈ effects →
          blocks.Nodup ∧
          ∀ b ∈ blocks,
            (∃ peer, t.peers.lookup k = some peer ∧ peer.peerChoking = .unchoke ∧ peer.bitfield[b.1]? = some true) ∧
            16384 ∣ b.2.1 ∧ 0 < b.2.2 ∧ b.2.2 ≤ 16384 ∧ b.2.1 + b.2.2 ≤ t.getPieceSize b.1 ∧
            ∀ peer, s.peers.lookup k = some peer → b ∈ peer.activeBlocks →
              ∃ data, a = .incomingBlock k b.1 b.2.1 data ∧ b.2.2 = u32 data.length := by
  have settled := reachable.settled
  refine ⟨fun k peer found choking => ?_, fun host a t effects run => ⟨fun k peer found => ?_, ?_⟩⟩
  · have nothing := (settled.orderly k (view peer) (peersView_of_lookup found)).silent choking
    refine eq_nil_iff_forall_not_mem.mpr fun p asked => ?_
    have asks : p ∈ (view peer).asks := mem_keys.mpr asked
    rw [nothing] at asks
    exact asks
  · have after := update_preserves (fun c => Scheduler.Settled c ∧ c.torrent = some torrent)
      (fun c d label permits move before =>
        have kept := move.keeps_torrent before.2
        ⟨before.1.move kept.1 move, kept.2⟩) run ⟨settled, loaded⟩
    exact (after.1.orderly k (view peer) (peersView_of_lookup found)).bounded
  · intro k blocks emitted
    obtain ⟨targeted, distinct, outstanding⟩ := requests_of_update settled loaded wellFormed covered run
    refine ⟨((nodup_flatMap.mp distinct).1 _ emitted).of_map, fun b member => ?_⟩
    have sent := mem_requestsOf.mpr ⟨blocks, emitted, member⟩
    obtain ⟨seen, known, listening, advertised⟩ := targeted.target k b sent
    obtain ⟨peer, found, rfl⟩ := map_eq_some_iff.mp known
    have shape := targeted.shape k b sent
    exact ⟨⟨peer, found, listening, advertised⟩, shape.aligned, shape.nonempty, shape.short, shape.inside,
      fun peer found active => outstanding k b sent peer found active⟩

/-- A peer that has both pieces of a torrent unchokes us, and both are requested of it. -/
theorem requests_safe_download : ∃ (s : TorrentState) (torrent : Torrent),
    Reachable (fun _ event => event.Addressable) s ∧ s.torrent = some torrent ∧
      (0 < torrent.info.pieceLength ∧ torrent.info.pieceLength < 2 ^ 32) ∧ torrent.CoveredByFiles ∧
      (∃ t effects, update {} s (.peerUnchoked "a") = some (t, effects) ∧
        .sendToPeer "a" (.bulkRequest [(0, 0, 4), (1, 0, 4)]) ∈ effects) ∧
      (∀ k peer, s.peers.lookup k = some peer → peer.peerChoking = .choke → peer.pendingRequests.keys = []) ∧
      ∀ host a t effects, update host s a = some (t, effects) →
        (∀ k peer, t.peers.lookup k = some peer → peer.inflightRequests ≤ 512) ∧
        ∀ k blocks, .sendToPeer k (.bulkRequest blocks) ∈ effects →
          blocks.Nodup ∧
          ∀ b ∈ blocks,
            (∃ peer, t.peers.lookup k = some peer ∧ peer.peerChoking = .unchoke ∧ peer.bitfield[b.1]? = some true) ∧
            16384 ∣ b.2.1 ∧ 0 < b.2.2 ∧ b.2.2 ≤ 16384 ∧ b.2.1 + b.2.2 ≤ t.getPieceSize b.1 ∧
            ∀ peer, s.peers.lookup k = some peer → b ∈ peer.activeBlocks →
              ∃ data, a = .incomingBlock k b.1 b.2.1 data ∧ b.2.2 = u32 data.length := by
  obtain ⟨s, -, reachable, ⟨torrent, loaded, pieceLength, version⟩, ⟨t, effects⟩, updated, emitted⟩ := exists_reachable
    (fun _ event => event.Addressable) (fun _ _ => true)
    (downloadOf (plainTorrent 2) ++
      [.handle {} (.registerPeer "a" none), .handle {} (.peerBitfieldReceived "a" [0xC0])])
    (fun s => (∃ torrent ∈ s.torrent, torrent.info.pieceLength = 4 ∧ torrent.info.metaVersion = none) ∧
      ∃ result ∈ update {} s (.peerUnchoked "a"), .sendToPeer "a" (.bulkRequest [(0, 0, 4), (1, 0, 4)]) ∈ result.2)
    (by simp [downloadOf, Event.Addressable, numPieces_plainTorrent]) (by decide +kernel)
  have wellFormed : 0 < torrent.info.pieceLength ∧ torrent.info.pieceLength < 2 ^ 32 := by
    rw [pieceLength]
    decide
  have covered : torrent.CoveredByFiles := fun second => absurd (version.symm.trans second) (by decide)
  exact ⟨s, torrent, reachable, loaded, wellFormed, covered, ⟨t, effects, updated, emitted⟩,
    requests_safe reachable loaded wellFormed covered⟩

def treelessTorrent : Torrent where
  info :=
    { pieceLength := 4
      pieces := List.replicate 40 0
      files := []
      name := "t"
      length := 5
      metaVersion := some 2
      fileTree := none }

/-- Four bytes are requested of the last piece of the treeless torrent, which has one. -/
theorem request_beyond_piece : ∃ (s t : TorrentState) (effects : List Effect) (torrent : Torrent),
    Reachable (fun _ _ => True) s ∧ s.torrent = some torrent ∧ torrent.info.pieceLength = 4 ∧
      update {} s (.peerUnchoked "a") = some (t, effects) ∧
      .sendToPeer "a" (.bulkRequest [(0, 0, 4), (1, 0, 4)]) ∈ effects ∧ t.getPieceSize 1 = 1 := by
  obtain ⟨s, reachable, ⟨torrent, loaded, pieceLength⟩, ⟨t, effects⟩, updated, sent, size⟩ := exists_reached
    (downloadOf treelessTorrent ++
      [.handle {} (.registerPeer "a" none), .handle {} (.peerBitfieldReceived "a" [0xC0])])
    (fun s => (∃ torrent ∈ s.torrent, torrent.info.pieceLength = 4) ∧ ∃ result ∈ update {} s (.peerUnchoked "a"),
      .sendToPeer "a" (.bulkRequest [(0, 0, 4), (1, 0, 4)]) ∈ result.2 ∧ result.1.getPieceSize 1 = 1)
    (by decide +kernel)
  exact ⟨s, t, effects, torrent, reachable, loaded, pieceLength, updated, sent, size⟩

end Superseedr
