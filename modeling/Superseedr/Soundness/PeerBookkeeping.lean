import Superseedr.Soundness.LedgerRefinement

/-! # The book agrees with the registered peers

The book counts sessions by address while peers come and go one at a time. An address is counted exactly
as often as registered peers have it, an address with sessions is not remembered as inactive, and the
table of inactive addresses is kept below its limit by evicting the oldest.
-/

namespace Superseedr

open EmittingStep List Option AList Function Scheduler

variable {k j : PeerId} {change : PeerId → Ledger.Card → Ledger.Card} {c d : Ledger.Page} {s t : TorrentState}
  {effects : List Effect} {force : Bool} {addr : Option SocketAddr} {policy : PeerPolicy}

namespace PeerBook

section Eviction

variable {K V : Type} [DecidableEq K] {older : K × V → K × V → Bool} {table : AList fun _ : K => V} {v : V}

theorem evictOldest_of_le (small : table.keys.length ≤ maxInactivePeerBaselines) : evictOldest older table = table := by
  have none : (table.entries.map fun entry => (entry.1, entry.2)).length - maxInactivePeerBaselines = 0 := by
    have same : table.entries.length = table.keys.length := (length_map _).symm
    rw [length_map]
    omega
  simp only [evictOldest, none, take_zero, foldl_nil]

theorem lookup_of_evictOldest {k : K} (kept : (evictOldest older table).lookup k = some v) :
    table.lookup k = some v := by
  simp only [evictOldest, lookup_foldl_erase] at kept
  split_ifs at kept
  exact kept

theorem length_evictOldest (table : AList fun _ : K => V) :
    (evictOldest older table).keys.length = min table.keys.length maxInactivePeerBaselines := by
  have keys : (table.entries.map fun entry => (entry.1, entry.2)).map (·.1) = table.keys := by
    rw [List.map_map]
    rfl
  have size : (table.entries.map fun entry => (entry.1, entry.2)).length = table.keys.length := by
    rw [← keys, length_map (f := fun entry : K × V => entry.1)]
  simp only [evictOldest]
  generalize table.entries.map (fun entry => (entry.1, entry.2)) = entries at keys size
  have sorted := perm_insertionSort (fun a b => older a b) entries
  have part : ((entries.insertionSort fun a b => older a b).take (entries.length - maxInactivePeerBaselines)).map (·.1)
      |>.Sublist ((entries.insertionSort fun a b => older a b).map (·.1)) := (take_sublist ..).map _
  have distinct : ((entries.insertionSort fun a b => older a b).map (·.1)).Nodup := by
    rw [(sorted.map _).nodup_iff, keys]
    exact table.keys_nodup
  rw [length_keys_foldl_erase (part.nodup distinct), length_take, sorted.length_eq, size]
  · omega
  · intro k among
    rw [AList.mem_keys, ← keys, ← (sorted.map _).mem_iff]
    exact part.subset among

end Eviction

/-- A change of the book that keeps what it says about sessions and forgets at most inactive addresses. -/
structure Trimmed (book later : PeerBook) : Prop where
  active : later.peerActiveCounts = book.peerActiveCounts
  index : later.peerIpById = book.peerIpById
  inactive : ∀ ip, ip ∈ later.peerInactiveSince → ip ∈ book.peerInactiveSince
  bounded : later.peerInactiveSince.keys.length ≤ maxInactivePeerBaselines

theorem maintain_trimmed (book : PeerBook) (now : ℕ) : Trimmed book (book.maintainPeerReconnectBaselines now) where
  active := rfl
  index := rfl
  inactive ip member := by
    obtain ⟨since, kept⟩ := lookup_eq_some_of_mem member
    simp only [maintainPeerReconnectBaselines] at kept
    have retained := lookup_of_evictOldest kept
    rw [lookup_retain, filter_eq_some_iff] at retained
    exact mem_of_lookup_eq_some retained.1
  bounded := by
    simp only [maintainPeerReconnectBaselines]
    exact (length_evictOldest _).trans_le (min_le_right _ _)

theorem recordDepartedPeerTransfer_trimmed (book : PeerBook) (show' : SocketAddr → String) (now : ℕ)
    (peer : PeerState) : Trimmed book (book.recordDepartedPeerTransfer show' now peer) := by
  simp only [recordDepartedPeerTransfer]
  generalize book.pendingDepartedPeerTransfers.insert _ _ = departed
  have maintained := maintain_trimmed { book with pendingDepartedPeerTransfers := departed } now
  exact ⟨rfl, rfl, maintained.inactive, maintained.bounded⟩

end PeerBook

variable {label : Label}

namespace Ledger

open PeerBook

def Card.ip (shown : Card) : Option IpAddr := shown.peerAddr.map fun addr => normalizeIp addr.ip

def atIp (cards : AList fun _ : PeerId => Card) (ip : IpAddr) : ℕ :=
  cards.entries.countP fun entry => entry.2.ip = some ip

def tally (count : ℕ) : Option ℕ := if count = 0 then none else some count

@[simp] theorem tally_succ (count : ℕ) : tally (count + 1) = some (count + 1) := rfl

@[simp] theorem getD_tally (count : ℕ) : (tally count).getD 0 = count := by
  cases count <;> rfl

section Counting

variable {cards : AList fun _ : PeerId => Card} {shown : Card}

theorem atIp_insert (absent : k ∉ cards) (ip : IpAddr) :
    atIp (cards.insert k shown) ip = atIp cards ip + if shown.ip = some ip then 1 else 0 := by
  rw [atIp, insert_of_notMem absent, countP_cons, atIp]
  simp only [decide_eq_true_eq]

theorem atIp_erase (found : cards.lookup k = some shown) (ip : IpAddr) :
    atIp cards ip = atIp (cards.erase k) ip + if shown.ip = some ip then 1 else 0 := by
  have member : k ∈ cards.entries.keys := mem_keys.mp (mem_of_lookup_eq_some found)
  obtain ⟨stored, left, right, -, split, erased⟩ := exists_of_kerase member
  have same : stored = shown := by
    have entry : (⟨k, stored⟩ : Sigma fun _ : PeerId => Card) ∈ cards.entries := by simp [split]
    exact some.inj ((mem_lookup_iff.mpr entry).symm.trans found)
  have without : (cards.erase k).entries = left ++ right := erased
  rw [atIp, atIp, without, split, countP_append, countP_append, countP_cons, same]
  simp only [decide_eq_true_eq]
  omega

theorem atIp_mapVal (same : ∀ k shown, (change k shown).ip = shown.ip) (ip : IpAddr) :
    atIp (cards.mapVal change) ip = atIp cards ip := by
  rw [atIp, atIp, mapVal, countP_map]
  refine countP_congr fun entry _ => ?_
  simp [Sigma.map, same]

theorem atIp_le (cards : AList fun _ : PeerId => Card) (ip : IpAddr) : atIp cards ip ≤ cards.keys.length := by
  have bound := countP_le_length (l := cards.entries) (p := fun entry => decide (entry.2.ip = some ip))
  have size : cards.keys.length = cards.entries.length := length_map _
  rw [size]
  exact bound

end Counting

structure Kept (x : Standing) : Prop where
  index : ∀ k, x.book.peerIpById k = (x.cards.lookup k).bind Card.ip
  active : ∀ ip, x.book.peerActiveCounts ip = tally (atIp x.cards ip)
  apart : ∀ ip, ip ∈ x.book.peerInactiveSince → x.book.peerActiveCounts ip = none
  bounded : x.book.peerInactiveSince.keys.length ≤ maxInactivePeerBaselines

namespace Kept

variable {x : Standing} {shown : Card} {later : PeerBook}

section

variable (kept : Kept x)
include kept

/-- Peers may change in everything but their addresses. -/
theorem relabel (ips : ∀ k shown, (change k shown).ip = shown.ip) : Kept { x with cards := x.cards.mapVal change } where
  index k := by
    rw [kept.index k, lookup_mapVal]
    cases x.cards.lookup k with
    | none => rfl
    | some before => exact (ips k before).symm
  active ip := by rw [kept.active ip, atIp_mapVal ips]
  __ := kept

theorem modify {change : Card → Card} (ips : ∀ shown, (change shown).ip = shown.ip) (k : PeerId) :
    Kept { x with cards := x.cards.modify k change } := by
  apply kept.relabel
  intro other shown
  split_ifs
  · exact ips shown
  · rfl

theorem trim (trimmed : Trimmed x.book later) (now : ℕ) : Kept { x with book := later, now } where
  index k := by rw [trimmed.index, kept.index k]
  active ip := by rw [trimmed.active, kept.active ip]
  apart ip member := by rw [trimmed.active, kept.apart ip (trimmed.inactive ip member)]
  bounded := trimmed.bounded

theorem enter_unaddressed (absent : k ∉ x.cards) (counted : ℕ) : Kept { x with
      cards := x.cards.insert k (freshCard x.book k none), book := enteredBook x.book x.now k none, counted } where
  index other := by
    change x.book.peerIpById other = _
    rw [kept.index other, lookup_insert_ite]
    split_ifs with same
    · rw [same, lookup_eq_none.mpr absent]
      rfl
    · rfl
  active ip := by
    change x.book.peerActiveCounts ip = _
    rw [kept.active ip, atIp_insert absent]
    rfl
  __ := kept

theorem enter_addressed (absent : k ∉ x.cards) (fits : x.cards.keys.length < usizeMax) (addr : SocketAddr)
    (counted : ℕ) : Kept { x with
      cards := x.cards.insert k (freshCard x.book k (some addr))
      book := enteredBook x.book x.now k (some addr)
      counted } where
  index other := by
    change Function.update x.book.peerIpById k (some (normalizeIp addr.ip)) other = _
    rw [lookup_insert_ite, update_apply]
    split_ifs with same
    · rfl
    · exact kept.index other
  active ip := by
    change Function.update x.book.peerActiveCounts (normalizeIp addr.ip)
      (some (min ((x.book.peerActiveCounts (normalizeIp addr.ip)).getD 0 + 1) usizeMax)) ip = _
    rw [atIp_insert absent, update_apply]
    split_ifs with same here here
    · have room := atIp_le x.cards ip
      rw [← same, kept.active ip, getD_tally, min_eq_left (by omega), tally_succ]
    · exact absurd (congrArg some same.symm) here
    · exact absurd (some.inj here).symm same
    · rw [Nat.add_zero]
      exact kept.active ip
  apart other member := by
    change other ∈ (if (x.book.peerActiveCounts (normalizeIp addr.ip)).getD 0 = 0 then
      x.book.peerInactiveSince.erase (normalizeIp addr.ip) else x.book.peerInactiveSince) at member
    change Function.update x.book.peerActiveCounts (normalizeIp addr.ip) _ other = none
    split_ifs at member with last
    · rw [mem_erase] at member
      rw [update_of_ne member.1]
      exact kept.apart other member.2
    have differ : other ≠ normalizeIp addr.ip := by
      rintro rfl
      rw [kept.apart _ member] at last
      exact last rfl
    rw [update_of_ne differ]
    exact kept.apart other member
  bounded := by
    change (if (x.book.peerActiveCounts (normalizeIp addr.ip)).getD 0 = 0 then
      x.book.peerInactiveSince.erase (normalizeIp addr.ip) else x.book.peerInactiveSince).keys.length ≤ _
    split_ifs
    · rw [keys_erase]
      exact length_erase_le.trans kept.bounded
    · exact kept.bounded

theorem enter (absent : k ∉ x.cards) (fits : x.cards.keys.length < usizeMax) (addr : Option SocketAddr) (counted : ℕ) :
    Kept { x with
      cards := x.cards.insert k (freshCard x.book k addr), book := enteredBook x.book x.now k addr, counted } := by
  cases addr with
  | none => exact kept.enter_unaddressed absent counted
  | some addr => exact kept.enter_addressed absent fits addr counted

theorem index_erase (k other : PeerId) :
    Function.update x.book.peerIpById k none other = ((x.cards.erase k).lookup other).bind Card.ip := by
  rw [lookup_erase_ite, update_apply]
  split_ifs with same
  · rfl
  · exact kept.index other

section

variable (found : x.cards.lookup k = some shown)
include found

theorem leave_unaddressed (unaddressed : shown.ip = none) : Kept { x with cards := x.cards.erase k } where
  index other := by
    have unindexed : x.book.peerIpById k = none := by rw [kept.index k, found, bind_some, unaddressed]
    rw [← kept.index_erase k other, ← unindexed, update_eq_self]
  active ip := by
    have counted := atIp_erase found ip
    rw [unaddressed, if_neg (by simp), Nat.add_zero] at counted
    rw [kept.active ip, counted]
  __ := kept

theorem active_erase {ip : IpAddr} (addressed : shown.ip = some ip) (other : IpAddr) :
    Function.update x.book.peerActiveCounts ip (tally (atIp (x.cards.erase k) ip)) other =
      tally (atIp (x.cards.erase k) other) := by
  rw [update_apply]
  split_ifs with same
  · rw [same]
  · have counted := atIp_erase found other
    rw [addressed, if_neg fun here => same (some.inj here).symm, Nat.add_zero] at counted
    rw [kept.active other, counted]

theorem leave_addressed {ip : IpAddr} (addressed : shown.ip = some ip)
    (index : later.peerIpById = Function.update x.book.peerIpById k none) (active : later.peerActiveCounts =
      Function.update x.book.peerActiveCounts ip (tally (atIp (x.cards.erase k) ip)))
    (inactive : ∀ other, other ∈ later.peerInactiveSince →
      other ∈ x.book.peerInactiveSince ∧ other ≠ ip ∨ other = ip ∧ atIp (x.cards.erase k) ip = 0)
    (bounded : later.peerInactiveSince.keys.length ≤ maxInactivePeerBaselines) :
    Kept { x with cards := x.cards.erase k, book := later } where
  index other := by
    rw [index]
    exact kept.index_erase k other
  active other := by
    rw [active]
    exact kept.active_erase found addressed other
  apart other member := by
    rw [active]
    rcases inactive other member with ⟨before, differ⟩ | ⟨rfl, last⟩
    · rw [update_of_ne differ]
      exact kept.apart other before
    · rw [update_self, last]
      rfl
  bounded := bounded

theorem leave (eligible : Bool) : Kept { x with
      cards := x.cards.erase k
      book := x.book.recordPeerRemovalWithReconnectEligibility x.now k eligible } := by
  have indexed : x.book.peerIpById k = shown.ip := by rw [kept.index k, found, bind_some]
  cases addressed : shown.ip with
  | none =>
    rw [addressed] at indexed
    simp only [recordPeerRemovalWithReconnectEligibility, indexed]
    exact kept.leave_unaddressed found addressed
  | some ip =>
    have counted := atIp_erase found ip
    rw [addressed, if_pos rfl] at counted
    have active : x.book.peerActiveCounts ip = some (atIp (x.cards.erase k) ip + 1) := by
      rw [kept.active ip, counted, tally_succ]
    have outside : ip ∉ x.book.peerInactiveSince := fun member => by simpa [active] using kept.apart ip member
    rw [addressed] at indexed
    simp only [recordPeerRemovalWithReconnectEligibility, indexed, active, Nat.add_sub_cancel]
    by_cases last : atIp (x.cards.erase k) ip = 0
    · rw [if_neg (not_not.mpr last)]
      cases eligible with
      | true =>
        rw [if_pos rfl]
        have trimmed := maintain_trimmed
          { x.book with
            peerIpById := Function.update x.book.peerIpById k none
            peerActiveCounts := Function.update x.book.peerActiveCounts ip none
            peerInactiveSince := x.book.peerInactiveSince.insert ip x.now } x.now
        refine kept.leave_addressed found addressed trimmed.index ?_ (fun other member => ?_) trimmed.bounded
        · rw [trimmed.active, last]
          rfl
        · have before := trimmed.inactive other member
          rw [mem_insert] at before
          by_cases same : other = ip
          · exact .inr ⟨same, last⟩
          · exact .inl ⟨before.resolve_left same, same⟩
      | false =>
        rw [if_neg Bool.false_ne_true]
        refine kept.leave_addressed found addressed rfl ?_ (fun other member => ?_) ?_
        · rw [last]
          rfl
        · rw [mem_erase] at member
          exact .inl ⟨member.2, member.1⟩
        · rw [keys_erase]
          exact length_erase_le.trans kept.bounded
    · rw [if_pos last]
      refine kept.leave_addressed found addressed rfl ?_ (fun other member => ?_) kept.bounded
      · rw [tally, if_neg last]
      · exact .inl ⟨member, fun same => outside (same ▸ member)⟩

end

end

theorem wiped (bounded : later.peerInactiveSince.keys.length ≤ maxInactivePeerBaselines) : Kept { x with
      cards := ∅
      book := { later with peerActiveCounts := fun _ => none, peerIpById := fun _ => none }
      counted := 0 } where
  index k := by simp
  active ip := rfl
  apart ip member := rfl
  bounded := bounded

end Kept

theorem bounded_foldl_departed {book : PeerBook} (show' : SocketAddr → String) (now : ℕ) (peers : List PeerState)
    (bounded : book.peerInactiveSince.keys.length ≤ maxInactivePeerBaselines) :
    (peers.foldl (fun book peer => book.recordDepartedPeerTransfer show' now peer) book).peerInactiveSince.keys.length ≤
      maxInactivePeerBaselines := by
  induction peers generalizing book with
  | nil => exact bounded
  | cons peer rest ih => exact ih (recordDepartedPeerTransfer_trimmed book show' now peer).bounded

def Label.Enters : Label → Prop
  | .enter _ => True
  | _ => False

theorem Move.kept (move : Move label c d) (others : ¬label.Enters) (kept : Kept c.toStanding) : Kept d.toStanding := by
  cases label with
  | enter k => exact absurd trivial others
  | leave k =>
    obtain ⟨peer, show', eligible, found, rfl⟩ := move
    exact (kept.leave found eligible).trim (recordDepartedPeerTransfer_trimmed _ show' c.now peer) c.now
  | wipe =>
    obtain ⟨peers, show', -, rfl⟩ := move
    exact .wiped (bounded_foldl_departed show' c.now peers kept.bounded)
  | rechoke =>
    obtain ⟨chosen, order, -, -, -, rfl⟩ := move
    exact kept.relabel fun _ _ => rfl
  | unchoke k =>
    obtain ⟨-, rfl⟩ := move
    refine kept.modify ?_ k
    exact fun _ => rfl
  | interest k | download k count | upload k count =>
    obtain rfl : d = _ := move
    refine kept.modify ?_ k
    exact fun _ => rfl
  | tick =>
    obtain ⟨later, -, rfl⟩ := move
    exact kept.trim (maintain_trimmed c.book later) later
  | count =>
    obtain rfl : d = _ := move
    exact { kept with }
  | queue =>
    obtain ⟨leaving, rfl⟩ := move
    exact { kept with }

/-- A move that enters nobody adds nobody, and every move but a departure keeps the reported number right. -/
theorem Move.size (move : Move label c d) :
    (¬label.Enters → d.cards.keys.length ≤ c.cards.keys.length) ∧
      ((∀ k, label ≠ .leave k) → c.counted = c.cards.keys.length → d.counted = d.cards.keys.length) := by
  cases label with
  | enter k =>
    obtain ⟨-, addr, rfl⟩ := move
    exact ⟨fun others => absurd trivial others, fun _ _ => rfl⟩
  | leave k =>
    obtain ⟨peer, show', eligible, found, rfl⟩ := move
    rw [keys_erase]
    exact ⟨fun _ => length_erase_le, fun stays => absurd rfl (stays k)⟩
  | wipe =>
    obtain ⟨peers, show', -, rfl⟩ := move
    exact ⟨fun _ => Nat.zero_le _, fun _ _ => rfl⟩
  | rechoke =>
    obtain ⟨chosen, order, -, -, -, rfl⟩ := move
    rw [keys_mapVal]
    exact ⟨fun _ => le_rfl, fun _ => id⟩
  | unchoke k =>
    obtain ⟨-, rfl⟩ := move
    rw [keys_modify]
    exact ⟨fun _ => le_rfl, fun _ => id⟩
  | interest k | download k count | upload k count =>
    obtain rfl : d = _ := move
    rw [keys_modify]
    exact ⟨fun _ => le_rfl, fun _ => id⟩
  | tick =>
    obtain ⟨later, -, rfl⟩ := move
    exact ⟨fun _ => le_rfl, fun _ => id⟩
  | count =>
    obtain rfl : d = _ := move
    exact ⟨fun _ => le_rfl, fun _ _ => rfl⟩
  | queue =>
    obtain ⟨leaving, rfl⟩ := move
    exact ⟨fun _ => le_rfl, fun _ => id⟩

/-- A run that enters nobody keeps the book right and adds nobody. -/
theorem Records.kept {guard : Page → Label → Prop} (records : Records guard s effects t)
    (others : ∀ c label, guard c label → ¬label.Enters) (kept : Kept (standing s)) :
    Kept (standing t) ∧ (cardsOf t.peers).keys.length ≤ (cardsOf s.peers).keys.length := by
  refine (records []).preserves
    (fun c => Kept c.toStanding ∧ c.cards.keys.length ≤ (cardsOf s.peers).keys.length) ?_ ⟨kept, le_rfl⟩
  rintro c d label admitted move ⟨before, size⟩
  have quiet := others c label admitted
  exact ⟨move.kept quiet before, (move.size.1 quiet).trans size⟩

end Ledger

open TorrentState Ledger

variable {host : Host} {a : Action}

theorem update_kept (fits : s.peers.keys.length < usizeMax) (run : update host s a = some (t, effects))
    (kept : Kept (standing s)) : Kept (standing t) := by
  by_cases registers : ∃ k addr, a = .registerPeer k addr
  · obtain ⟨k, addr, rfl⟩ := registers
    have nobody : Disconnecting (Records fun _ label => ¬label.Enters) :=
      records_disconnecting (fun _ => id) fun _ => id
    obtain ⟨u, before, after, flushed, -, entered⟩ :=
      registerPeer_rule nobody (fun _ _ => removePeer_records fun _ => id) run
    obtain ⟨keptBefore, size⟩ := flushed.kept (fun _ _ quiet => quiet) kept
    rcases entered with ⟨rfl, -⟩ | ⟨unknown, rfl, -⟩
    · exact keptBefore
    obtain ⟨absent, entered, result⟩ := insertPeer_move addr unknown []
    have after : standing (u.insertPeer k addr) = _ := congrArg Page.toStanding result
    rw [after]
    refine keptBefore.enter absent (size.trans_lt ?_) entered _
    rwa [cardsOf, keys_mapVal]
  · refine ((update_records run).kept (fun c label permits => ?_) kept).1
    cases label with
    | enter k =>
      obtain ⟨addr, rfl⟩ := permits
      exact absurd ⟨k, addr, rfl⟩ registers
    | _ => exact id

def TorrentState.Counted (s : TorrentState) : Prop := s.numberOfSuccessfullyConnectedPeers = s.peers.keys.length

theorem counted_iff_standing : s.Counted ↔ (standing s).counted = (standing s).cards.keys.length := by
  rw [Counted, standing, cardsOf, keys_mapVal]

theorem counted_of_standing (same : standing t = standing s) (counted : s.Counted) : t.Counted := by
  rw [counted_iff_standing, same]
  exact counted_iff_standing.mp counted

theorem flushDisconnects_counted (run : s.flushDisconnects host = some (t, effects)) : t.Counted := by
  obtain ⟨⟨u, emitted⟩, -, result⟩ := map_eq_some_iff.mp run
  cases result
  rfl

theorem peerDisconnected_counted (run : s.peerDisconnected host k force = some (t, effects)) (counted : s.Counted) :
    t.Counted := by
  rcases peerDisconnected_cases run with ⟨rfl, -⟩ | ⟨-, flushed⟩
  · exact counted
  · exact flushDisconnects_counted flushed

theorem registerPeer_counted (run : s.registerPeer host k addr = some (t, effects)) (counted : s.Counted) :
    t.Counted := by
  obtain ⟨u, before, after, first, -, outcome⟩ := registerPeer_outcome run
  have flushed : u.Counted := by
    split_ifs at first
    · exact peerDisconnected_counted first counted
    · cases first
      exact counted
  rcases outcome with ⟨rfl, -⟩ | ⟨-, rfl, -⟩
  · exact flushed
  · rfl

theorem peerPolicyUpdated_counted (run : s.peerPolicyUpdated host policy = some (t, effects)) (counted : s.Counted) :
    t.Counted :=
  forEachFrom_rule (R := fun (u : TorrentState) (_ : List Effect) (v : TorrentState) => u.Counted → v.Counted)
    (fun _ => id) (fun first second before => second (first before))
    (fun _ _ _ _ _ _ round => peerDisconnected_counted round) run counted

theorem cleanup_counted (run : s.cleanup host = some (t, effects)) (counted : s.Counted) : t.Counted := by
  obtain ⟨u, expired, run⟩ := bind_eq_some_iff.mp run
  obtain ⟨v, before, after, flushed, rest, rfl⟩ := andThen_eq_some.mp run
  have start : u.Counted := counted_of_standing (expireRecords_standing expired) counted
  exact counted_of_standing (unrecorded_of_aside (cleanupSeeding_aside rest)).same
    (peerDisconnected_counted flushed start)

theorem pause_counted (run : s.pause host = some (t, effects)) : t.Counted := by
  obtain ⟨⟨u, disconnects⟩, -, result⟩ := map_eq_some_iff.mp run
  cases result
  rfl

/-- Every update leaves the right number of connections behind. -/
theorem update_counted (run : update host s a = some (t, effects)) (counted : s.Counted) : t.Counted := by
  have stays : releases host s a = [] → t.Counted := by
    intro nobody
    refine counted_iff_standing.mpr ((update_records run []).preserves
      (fun c => c.counted = c.cards.keys.length) ?_ (counted_iff_standing.mp counted))
    intro c d label permits move before
    refine move.size.2 ?_ before
    rintro k rfl
    have released : k ∈ releases host s a := permits
    rw [nobody] at released
    cases released
  cases a with
  | peerPolicyUpdated policy => exact peerPolicyUpdated_counted run counted
  | registerPeer k addr => exact registerPeer_counted run counted
  | peerDisconnected k force => exact peerDisconnected_counted run counted
  | peerChoked k => exact counted_of_standing (unrecorded_of_aside (peerChoked_aside run)).same counted
  | cleanup => exact cleanup_counted run counted
  | pause | fatalError => exact pause_counted run
  | _ => exact stays rfl

section Live

theorem removePeer_lookup {round : ℕ} (differ : k ≠ j) (run : removePeer host round j s = some (t, effects)) :
    t.peers.lookup k = s.peers.lookup k := by
  unfold removePeer at run
  split at run
  · cases run
    rfl
  · obtain ⟨pm, -, result⟩ := map_eq_some_iff.mp run
    cases result
    exact lookup_erase_ne differ

/-- Registering a key again leaves the peer alone that is registered under it, unless that peer is about to be
removed. -/
theorem registerPeer_lookup (registered : k ∈ s.peers) (live : k ∉ s.pendingDisconnects)
    (run : s.registerPeer host k addr = some (t, effects)) : t.peers.lookup k = s.peers.lookup k := by
  have leaves : Disconnecting fun u _ v => v.peers.lookup k = u.peers.lookup k :=
    ⟨fun _ => rfl, fun first second => second.trans first, fun _ => rfl, fun _ _ _ _ => rfl, fun _ => rfl⟩
  obtain ⟨u, before, after, kept, -, outcome⟩ := registerPeer_rule leaves (fun j member _ _ _ _ _ round => by
    refine removePeer_lookup ?_ round
    rintro rfl
    rw [releases] at member
    split_ifs at member
    · exact live member
    · cases member) run
  rcases outcome with ⟨rfl, -⟩ | ⟨unknown, -⟩
  · exact kept
  · have present : k ∈ u.peers := lookup_isSome.mp (by rw [kept]; exact lookup_isSome.mpr registered)
    exact absurd present unknown

end Live

/-- The number of registered peers that have a socket address with a given normalized address. -/
def TorrentState.peersAt (s : TorrentState) (ip : IpAddr) : ℕ :=
  (s.peers.entries.filter fun entry => entry.2.peerAddr.any fun addr => normalizeIp addr.ip = ip).length

theorem peersAt_eq_atIp (ip : IpAddr) : s.peersAt ip = atIp (cardsOf s.peers) ip := by
  rw [peersAt, ← countP_eq_length_filter, atIp, cardsOf, mapVal, countP_map]
  refine countP_congr fun entry _ => ?_
  cases known : entry.2.peerAddr <;> simp [Sigma.map, card, Card.ip, known]

/-- The run keeps the number of peers within what a machine word can count. -/
def Countable (s : TorrentState) (_ : Event) : Prop := s.peers.keys.length < usizeMax

theorem reachable_kept (reachable : Reachable Countable s) : Kept (standing s) ∧ s.Counted := by
  refine reachable.invariant (fun s => Kept (standing s) ∧ s.Counted) ?_ ?_ ?_
  · rintro s ⟨infoHash, trackers, validated, name, now, rfl⟩
    have bounded : PeerBook.empty.peerInactiveSince.keys.length ≤ maxInactivePeerBaselines := Nat.zero_le _
    have kept := Kept.wiped (x := standing (new infoHash trackers validated name now)) bounded
    exact ⟨kept, rfl⟩
  · rintro host a s t effects fits run ⟨kept, counted⟩
    exact ⟨update_kept fits run kept, update_counted run counted⟩
  · exact fun s kept => kept

/-- In every reachable state the book counts the sessions of every address, remembers no address with sessions as
inactive and few inactive ones, and the number of connections is reported right. Registering a peer that is there
already and not about to be removed changes nothing about it. -/
theorem peer_bookkeeping (reachable : Reachable Countable s) :
    (∀ ip, s.book.peerActiveCounts ip = if s.peersAt ip = 0 then none else some (s.peersAt ip)) ∧
      (∀ ip, (s.book.peerActiveCounts ip).isSome → ip ∉ s.book.peerInactiveSince) ∧
      s.book.peerInactiveSince.keys.length ≤ 4096 ∧
      s.numberOfSuccessfullyConnectedPeers = s.peers.keys.length ∧
      ∀ host k addr t effects, k ∈ s.peers → k ∉ s.pendingDisconnects →
        update host s (.registerPeer k addr) = some (t, effects) → t.peers.lookup k = s.peers.lookup k := by
  obtain ⟨kept, counted⟩ := reachable_kept reachable
  refine ⟨fun ip => ?_, fun ip active inactive => ?_, kept.bounded, counted, ?_⟩
  · rw [peersAt_eq_atIp]
    exact kept.active ip
  · have none : s.book.peerActiveCounts ip = none := kept.apart ip inactive
    rw [none] at active
    cases active
  · intro host k addr t effects registered live run
    exact registerPeer_lookup registered live run

namespace SharedAddress

/-- One host, written as an address of version 4 and as one of version 6. -/
def plain : SocketAddr := ⟨.v4 0x7F000001, 1⟩

def mapped : SocketAddr := ⟨.v6 0xFFFF7F000001, 2⟩

/-- Two peers of the host register, and the first one leaves. -/
def events : List Event :=
  [.handle {} (.registerPeer "a" (some plain)), .handle {} (.registerPeer "b" (some mapped)),
    .handle {} (.peerDisconnected "a" true)]

end SharedAddress

open SharedAddress in
/-- Of two peers at one address one is left and counted. -/
theorem shared_address_counted : ∃ s, runEvents emptyState events = some s ∧ s.peersAt (normalizeIp mapped.ip) = 1 ∧
    s.book.peerActiveCounts (.v4 0x7F000001) = some 1 := by
  obtain ⟨s, run, reachable, one⟩ :=
    exists_reachable Countable (fun s _ => decide (s.peers.keys.length < usizeMax)) events
    (fun s => s.peersAt (.v4 0x7F000001) = 1) (by simp [Countable]) (by decide +kernel)
  have counted := (peer_bookkeeping reachable).1 (.v4 0x7F000001)
  rw [one] at counted
  exact ⟨s, run, one, counted⟩

end Superseedr
