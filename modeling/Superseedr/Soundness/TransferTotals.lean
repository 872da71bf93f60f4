import Superseedr.Soundness.PeerBookkeeping

/-! # What has been transferred with a key

The bytes exchanged under a key are split between the registered peer, which knows its own session and
what it took over at registration, and the record that is kept for a while after it has departed. The
totals are handed over in both directions. Short of a counter that wraps, they only shrink when a record
is dropped, because it is too old or because there are too many.
-/

namespace Superseedr

open EmittingStep List Option AList DepartedPeerTransfer Prod

variable {peer : PeerState} {change : PeerId → Ledger.Card → Ledger.Card} {label : Ledger.Label} {s t : TorrentState}
  {effects : List Effect} {book : PeerBook} {c d : Ledger.Page} {queued : List PeerId} {p offset dtMs count : ℕ}
  {data : Bytes} {event : Event}

/-- The bytes downloaded and uploaded under a key: by the registered peer, or as recorded when it departed. -/
def TorrentState.lifetime (s : TorrentState) (k : PeerId) : ℕ × ℕ :=
  match s.peers.lookup k with
  | some peer =>
    (satAdd64 peer.transferBaseDownloaded peer.totalBytesDownloaded,
      satAdd64 peer.transferBaseUploaded peer.totalBytesUploaded)
  | none =>
    match s.book.pendingDepartedPeerTransfers.lookup k with
    | some transfer => (transfer.totalDownloaded, transfer.totalUploaded)
    | none => (0, 0)

def DepartedPeerTransfer.totals (transfer : DepartedPeerTransfer) : ℕ × ℕ :=
  (transfer.totalDownloaded, transfer.totalUploaded)

variable {j k : PeerId} {now : ℕ}

namespace PeerBook

abbrev Departures := AList fun _ : PeerId => DepartedPeerTransfer

def maintainDepartures (table : Departures) (now : ℕ) : Departures :=
  evictOldest
    (fun a b => a.2.departedAt < b.2.departedAt ||
      (a.2.departedAt == b.2.departedAt && decide (a.1 ≤ b.1)))
    (table.retain fun _ transfer => now - transfer.departedAt < reconnectWindow)

/-- No record is too old. -/
def Recent (table : Departures) (now : ℕ) : Prop :=
  ∀ k transfer, table.lookup k = some transfer → now - transfer.departedAt < reconnectWindow

def wordMax : ℕ × ℕ := (2 ^ 64 - 1, 2 ^ 64 - 1)

def Bounded (table : Departures) : Prop := ∀ k transfer, table.lookup k = some transfer → transfer.totals ≤ wordMax

theorem maintain_departures (book : PeerBook) (now : ℕ) :
    (book.maintainPeerReconnectBaselines now).pendingDepartedPeerTransfers =
      maintainDepartures book.pendingDepartedPeerTransfers now := by
  simp only [maintainPeerReconnectBaselines, maintainDepartures]

section Maintenance

variable {table : Departures} {transfer : DepartedPeerTransfer}

theorem lookup_of_maintained (kept : (maintainDepartures table now).lookup k = some transfer) :
    table.lookup k = some transfer ∧ now - transfer.departedAt < reconnectWindow := by
  have retained := lookup_of_evictOldest kept
  rw [lookup_retain, filter_eq_some_iff] at retained
  exact ⟨retained.1, of_decide_eq_true retained.2⟩

theorem maintained_recent : Recent (maintainDepartures table now) now :=
  fun _ _ kept => (lookup_of_maintained kept).2

theorem Bounded.maintain (bounded : Bounded table) (now : ℕ) : Bounded (maintainDepartures table now) :=
  fun k transfer kept => bounded k transfer (lookup_of_maintained kept).1

/-- A key without a record, or with one that is too old, has none afterwards. -/
theorem maintained_eq_none
    (overdue : ∀ transfer, table.lookup k = some transfer → reconnectWindow ≤ now - transfer.departedAt) :
    (maintainDepartures table now).lookup k = none := by
  refine eq_none_iff_forall_ne_some.mpr fun transfer kept => ?_
  obtain ⟨found, recent⟩ := lookup_of_maintained kept
  exact absurd recent (not_lt.mpr (overdue transfer found))

/-- As many records as there may be. -/
def Full (table : Departures) : Prop := maxInactivePeerBaselines ≤ table.keys.length

/-- A record that is not too old is kept, unless there are too many. -/
theorem maintained_of_recent (found : table.lookup k = some transfer)
    (recent : now - transfer.departedAt < reconnectWindow) :
    (maintainDepartures table now).lookup k = some transfer ∨
      (maintainDepartures table now).lookup k = none ∧ Full (maintainDepartures table now) := by
  rcases le_or_gt (table.retain fun _ transfer => now - transfer.departedAt < reconnectWindow).keys.length
      maxInactivePeerBaselines with few | many
  · left
    rw [maintainDepartures, evictOldest_of_le few, lookup_retain, found]
    exact filter_eq_some_iff.mpr ⟨rfl, decide_eq_true recent⟩
  cases result : (maintainDepartures table now).lookup k with
  | none => exact .inr ⟨rfl, (le_min many.le le_rfl).trans_eq (length_evictOldest _).symm⟩
  | some kept =>
    have same := (lookup_of_maintained result).1.symm.trans found
    exact .inl same

theorem Full.maintain (full : Full table) (recent : Recent table now) : Full (maintainDepartures table now) := by
  have all : table.retain (fun _ transfer => now - transfer.departedAt < reconnectWindow) = table := by
    refine AList.ext (filter_eq_self.mpr fun entry listed => ?_)
    exact decide_eq_true (recent entry.1 entry.2 (mem_lookup_iff.mpr listed))
  rw [Full, maintainDepartures, all, length_evictOldest]
  exact le_min full le_rfl

theorem Full.insert (full : Full table) (j : PeerId) (transfer : DepartedPeerTransfer) :
    Full (table.insert j transfer) := by
  rw [Full, keys_insert, length_cons, length_erase]
  unfold Full at full
  split <;> omega

end Maintenance

def Recorded (totals : ℕ × ℕ) (k : PeerId) (table : Departures) : Prop :=
  (∃ transfer, table.lookup k = some transfer ∧ totals ≤ transfer.totals) ∨ table.lookup k = none ∧ Full table

section Recorded

variable {totals : ℕ × ℕ} {table : Departures} {show' : SocketAddr → String}

theorem Recorded.maintain (recorded : Recorded totals k table) (recent : Recent table now) :
    Recorded totals k (maintainDepartures table now) := by
  rcases recorded with ⟨transfer, found, enough⟩ | ⟨absent, full⟩
  · rcases maintained_of_recent found (recent k transfer found) with kept | lost
    · exact .inl ⟨transfer, kept, enough⟩
    · exact .inr lost
  · exact .inr ⟨maintained_eq_none (fun _ found => nomatch absent.symm.trans found), full.maintain recent⟩

def totalsOf (peer : PeerState) : ℕ × ℕ :=
  (satAdd64 peer.transferBaseDownloaded peer.totalBytesDownloaded,
    satAdd64 peer.transferBaseUploaded peer.totalBytesUploaded)

theorem recordDeparted_departures (book : PeerBook) (show' : SocketAddr → String) (now : ℕ) (peer : PeerState) :
    ∃ transfer, totalsOf peer ≤ transfer.totals ∧ transfer.departedAt = now ∧
      (Bounded book.pendingDepartedPeerTransfers → transfer.totals ≤ wordMax) ∧
      (book.recordDepartedPeerTransfer show' now peer).pendingDepartedPeerTransfers =
        maintainDepartures (book.pendingDepartedPeerTransfers.insert peer.ipPort transfer) now := by
  unfold recordDepartedPeerTransfer
  extract_lets pending updated
  refine ⟨updated, ?_, rfl, fun bounded => ?_, maintain_departures _ now⟩
  · exact mk_le_mk.mpr ⟨le_max_right _ _, le_max_right _ _⟩
  · have before : pending.totals ≤ wordMax := by
      cases found : book.pendingDepartedPeerTransfers.lookup peer.ipPort with
      | none => simp [pending, found, totals, wordMax]
      | some stored =>
        simp only [pending, found, getD_some]
        exact bounded peer.ipPort stored found
    have added : totalsOf peer ≤ wordMax := mk_le_mk.mpr ⟨min_le_right _ _, min_le_right _ _⟩
    exact mk_le_mk.mpr ⟨max_le before.1 added.1, max_le before.2 added.2⟩

theorem recordDeparted_table (book : PeerBook) (show' : SocketAddr → String) (now : ℕ) (peer : PeerState) :
    let table := (book.recordDepartedPeerTransfer show' now peer).pendingDepartedPeerTransfers
    Recent table now ∧ (Bounded book.pendingDepartedPeerTransfers → Bounded table) := by
  obtain ⟨transfer, -, -, word, result⟩ := recordDeparted_departures book show' now peer
  rw [result]
  exact ⟨maintained_recent, fun bounded => Bounded.maintain (forall_insert bounded (word bounded)) now⟩

theorem recordDeparted_recorded (recent : Recent book.pendingDepartedPeerTransfers now)
    (known : if k = peer.ipPort then totals ≤ totalsOf peer else Recorded totals k book.pendingDepartedPeerTransfers) :
    Recorded totals k (book.recordDepartedPeerTransfer show' now peer).pendingDepartedPeerTransfers := by
  obtain ⟨transfer, more, departed, -, result⟩ := recordDeparted_departures book show' now peer
  rw [result]
  have inserted : Recent (book.pendingDepartedPeerTransfers.insert peer.ipPort transfer) now :=
    forall_insert recent (by rw [departed, Nat.sub_self]; decide)
  have entered : Recorded totals k (book.pendingDepartedPeerTransfers.insert peer.ipPort transfer) := by
    unfold Recorded
    rw [lookup_insert_ite]
    split_ifs at known ⊢
    · exact .inl ⟨transfer, rfl, known.trans more⟩
    · exact known.imp_right fun lost => ⟨lost.1, lost.2.insert _ _⟩
  exact entered.maintain inserted

theorem recordPeerRemoval_departures (eligible : Bool) :
    (book.recordPeerRemovalWithReconnectEligibility now k eligible).pendingDepartedPeerTransfers =
        book.pendingDepartedPeerTransfers ∨
      (book.recordPeerRemovalWithReconnectEligibility now k eligible).pendingDepartedPeerTransfers =
        maintainDepartures book.pendingDepartedPeerTransfers now := by
  unfold recordPeerRemovalWithReconnectEligibility
  split
  · exact .inl rfl
  dsimp only
  split
  · exact .inl rfl
  split
  · exact .inl rfl
  · split
    · exact .inr (maintain_departures _ now)
    · exact .inl rfl

end Recorded

end PeerBook

namespace Ledger

open PeerBook

def Card.totals (shown : Card) : ℕ × ℕ :=
  (satAdd64 shown.baseDownloaded shown.totalDownloaded, satAdd64 shown.baseUploaded shown.totalUploaded)

def Attributed (totals : ℕ × ℕ) (k : PeerId) (x : Standing) : Prop :=
  match x.cards.lookup k with
  | some shown => totals ≤ shown.totals
  | none => Recorded totals k x.book.pendingDepartedPeerTransfers

structure Tidy (x : Standing) : Prop where
  keyed : Keyed x.cards
  recent : Recent x.book.pendingDepartedPeerTransfers x.now
  bounded : Bounded x.book.pendingDepartedPeerTransfers

structure Keeps (x y : Standing) : Prop where
  tidy : Tidy y
  attributed : ∀ totals k, Attributed totals k x → Attributed totals k y

variable {x y z : Standing} {c d : Page}

section Departures

theorem Keeps.trans (first : Keeps x y) (second : Keeps y z) : Keeps x z :=
  ⟨second.tidy, fun totals k start => second.attributed totals k (first.attributed totals k start)⟩

/-- Maintenance of the records loses totals to the limit only. -/
theorem Tidy.rebook (tidy : Tidy x) (kept : book.pendingDepartedPeerTransfers = x.book.pendingDepartedPeerTransfers ∨
      book.pendingDepartedPeerTransfers = maintainDepartures x.book.pendingDepartedPeerTransfers x.now) :
    Keeps x { x with book } := by
  rcases kept with same | maintained
  · refine ⟨⟨tidy.keyed, ?_, ?_⟩, fun totals k => ?_⟩
    · exact same ▸ tidy.recent
    · exact same ▸ tidy.bounded
    · simp only [Attributed, same, imp_self]
  refine ⟨⟨tidy.keyed, ?_, ?_⟩, fun totals k => ?_⟩
  · exact maintained ▸ maintained_recent
  · exact maintained ▸ tidy.bounded.maintain _
  · simp only [Attributed, maintained]
    cases x.cards.lookup k with
    | some shown => exact id
    | none => exact fun recorded => recorded.maintain tidy.recent

theorem Tidy.depart (tidy : Tidy x) (found : x.cards.lookup j = some (card peer)) (show' : SocketAddr → String) :
    Keeps x { x with
      cards := x.cards.erase j, book := x.book.recordDepartedPeerTransfer show' x.now peer } := by
  have own : peer.ipPort = j := tidy.keyed j (card peer) found
  obtain ⟨later, words⟩ := recordDeparted_table x.book show' x.now peer
  refine ⟨⟨fun other shown kept => tidy.keyed other shown (lookup_of_erase kept), later, words tidy.bounded⟩,
    fun totals k => ?_⟩
  unfold Attributed
  rcases eq_or_ne k j with rfl | same
  · simp only [found, lookup_erase]
    exact fun enough => recordDeparted_recorded tidy.recent (by rwa [if_pos own.symm])
  simp only [lookup_erase_ne same]
  cases x.cards.lookup k with
  | some shown => exact id
  | none => exact fun recorded => recordDeparted_recorded tidy.recent (by rwa [own, if_neg same])

theorem Tidy.departAll {peers : List PeerState} (tidy : Tidy x)
    (present : ∀ peer ∈ peers, x.cards.lookup peer.ipPort = some (card peer)) (distinct : (peers.map (·.ipPort)).Nodup)
    (everyone : ∀ k ∈ x.cards, k ∈ peers.map (·.ipPort)) (show' : SocketAddr → String) :
    Keeps x { x with
      cards := ∅, book := peers.foldl (fun book peer => book.recordDepartedPeerTransfer show' x.now peer) x.book } := by
  induction peers generalizing x with
  | nil =>
    have nobody : x.cards = ∅ := eq_empty_of_forall_notMem fun k member => nomatch everyone k member
    rw [← nobody]
    exact ⟨tidy, fun _ _ => id⟩
  | cons peer rest ih =>
    rw [map_cons, nodup_cons] at distinct
    have left := tidy.depart (present peer (.head _)) show'
    refine left.trans (ih left.tidy (fun other member => ?_) distinct.2 fun k member => ?_)
    · have differ : other.ipPort ≠ peer.ipPort := fun same => distinct.1 (same ▸ mem_map_of_mem member)
      exact (lookup_erase_ne differ).trans (present other (.tail _ member))
    · obtain ⟨differ, member⟩ := mem_erase.mp member
      exact (mem_cons.mp (everyone k member)).resolve_left differ

theorem Move.leave_keeps (move : Move (.leave j) c d) (tidy : Tidy c.toStanding) : Keeps c.toStanding d.toStanding := by
  obtain ⟨peer, show', eligible, found, rfl⟩ := move
  have removed := tidy.rebook (recordPeerRemoval_departures (k := j) eligible)
  exact removed.trans (removed.tidy.depart found show')

theorem Move.wipe_keeps (move : Move .wipe c d) (tidy : Tidy c.toStanding) : Keeps c.toStanding d.toStanding := by
  obtain ⟨peers, show', everyone, rfl⟩ := move
  have ports : (peers.map (·.ipPort)).Perm c.cards.keys := by
    have shown := everyone.map (·.ipPort)
    rw [tidy.keyed.ports, List.map_map] at shown
    exact shown
  have present : ∀ peer ∈ peers, c.cards.lookup peer.ipPort = some (card peer) := by
    intro peer member
    obtain ⟨⟨k, _⟩, stored, rfl⟩ := mem_map.mp (everyone.mem_iff.mp (mem_map_of_mem member))
    have found := mem_lookup_iff.mpr stored
    rwa [← tidy.keyed k _ found] at found
  have departed := tidy.departAll present (ports.nodup_iff.mpr c.cards.keys_nodup)
    (fun k member => ports.mem_iff.mpr (mem_keys.mp member)) show'
  exact ⟨{ departed.tidy with }, departed.attributed⟩

end Departures

section Moves

theorem Tidy.mapVal (tidy : Tidy x) (ports : ∀ k shown, (change k shown).ipPort = shown.ipPort)
    (grows : ∀ k shown, x.cards.lookup k = some shown → shown.totals ≤ (change k shown).totals) :
    Keeps x { x with cards := x.cards.mapVal change } := by
  refine ⟨⟨tidy.keyed.mapVal ports, tidy.recent, tidy.bounded⟩, fun totals k => ?_⟩
  simp only [Attributed, lookup_mapVal]
  cases registered : x.cards.lookup k with
  | none => exact id
  | some shown => exact fun enough => enough.trans (grows k shown registered)

theorem Tidy.modify {change : Card → Card} (tidy : Tidy x) (ports : ∀ shown, (change shown).ipPort = shown.ipPort)
    (grows : ∀ shown, x.cards.lookup j = some shown → shown.totals ≤ (change shown).totals) :
    Keeps x { x with cards := x.cards.modify j change } := by
  refine tidy.mapVal (fun k shown => ?_) fun k shown found => ?_
  · split_ifs
    · exact ports shown
    · rfl
  · split_ifs with same
    · exact grows shown (same ▸ found)
    · exact le_rfl

/-- The moves other than registrations, the clock and arriving blocks. -/
def Label.Settled : Label → Prop
  | .enter _ => False
  | .tick => False
  | .download _ _ => False
  | _ => True

def Label.Flushes (queued : List PeerId) : Label → Prop
  | .leave k => k ∈ queued
  | .queue | .count => True
  | _ => False

theorem Label.settled_of_flushes (label : Label) (flushes : label.Flushes queued) : label.Settled := by
  cases label with
  | enter | tick | download => exact flushes
  | _ => trivial

theorem satAdd64_satAdd64 (base total count : ℕ) : satAdd64 base total ≤ satAdd64 base (satAdd64 total count) := by
  simp only [satAdd64]
  omega

theorem Move.keeps (move : Move label c d) (settled : label.Settled) (tidy : Tidy c.toStanding) :
    Keeps c.toStanding d.toStanding := by
  cases label with
  | enter j | tick | download j count => exact settled.elim
  | leave j => exact move.leave_keeps tidy
  | wipe => exact move.wipe_keeps tidy
  | rechoke =>
    obtain ⟨chosen, order, -, -, -, rfl⟩ := move
    exact tidy.mapVal (fun _ _ => rfl) fun _ _ _ => le_rfl
  | unchoke j =>
    obtain ⟨-, rfl⟩ := move
    refine tidy.modify ?_ ?_
    · exact fun _ => rfl
    · exact fun _ _ => le_rfl
  | interest j =>
    obtain rfl : d = _ := move
    refine tidy.modify ?_ ?_
    · exact fun _ => rfl
    · exact fun _ _ => le_rfl
  | upload j count =>
    obtain rfl : d = _ := move
    refine tidy.modify ?_ ?_
    · exact fun _ => rfl
    · exact fun _ _ => mk_le_mk.mpr ⟨le_rfl, satAdd64_satAdd64 _ _ _⟩
  | count =>
    obtain rfl : d = _ := move
    exact ⟨{ tidy with }, fun _ _ => id⟩
  | queue =>
    obtain ⟨leaving, rfl⟩ := move
    exact ⟨{ tidy with }, fun _ _ => id⟩

/-- A run of settled moves loses totals to the limit only. -/
theorem Records.keeps {guard : Page → Label → Prop} (records : Records guard s effects t)
    (settled : ∀ c label, guard c label → label.Settled) (tidy : Tidy (standing s)) :
    Keeps (standing s) (standing t) := by
  refine (records []).preserves (fun c => Keeps (standing s) c.toStanding) ?_ ⟨tidy, fun _ _ => id⟩
  intro c d label admitted move before
  exact before.trans (move.keeps (settled c label admitted) before.tidy)

end Moves

def lifetime (x : Standing) (k : PeerId) : ℕ × ℕ :=
  match x.cards.lookup k with
  | some shown => shown.totals
  | none => ((x.book.pendingDepartedPeerTransfers.lookup k).map totals).getD (0, 0)

theorem lifetime_standing (s : TorrentState) : s.lifetime k = lifetime (standing s) k := by
  rw [TorrentState.lifetime, lifetime]
  change _ = match (cardsOf s.peers).lookup k with
    | some shown => shown.totals
    | none => ((s.book.pendingDepartedPeerTransfers.lookup k).map totals).getD (0, 0)
  rw [lookup_cardsOf]
  cases s.peers.lookup k with
  | some peer => rfl
  | none => cases s.book.pendingDepartedPeerTransfers.lookup k <;> rfl

section Outcome

variable {totals : ℕ × ℕ}

theorem Attributed.outcome (attributed : Attributed totals k x) : totals ≤ lifetime x k ∨
    lifetime x k = (0, 0) ∧ k ∉ x.cards ∧ Full x.book.pendingDepartedPeerTransfers := by
  unfold Attributed at attributed
  unfold lifetime
  cases registered : x.cards.lookup k with
  | some shown =>
    rw [registered] at attributed
    exact .inl attributed
  | none =>
    rw [registered] at attributed
    rcases attributed with ⟨transfer, found, enough⟩ | ⟨absent, full⟩
    · left
      simpa [found] using enough
    · right
      exact ⟨by simp [absent], lookup_eq_none.mp registered, full⟩

theorem attributed_lifetime (known : k ∈ x.cards ∨ k ∈ x.book.pendingDepartedPeerTransfers) :
    Attributed (lifetime x k) k x := by
  unfold Attributed lifetime
  cases registered : x.cards.lookup k with
  | some shown => exact le_rfl
  | none =>
    have departed := known.resolve_left (lookup_eq_none.mp registered)
    obtain ⟨transfer, found⟩ := lookup_eq_some_of_mem departed
    exact .inl ⟨transfer, found, by simp [found]⟩

theorem lifetime_of_unknown (unregistered : k ∉ x.cards) (unrecorded : k ∉ x.book.pendingDepartedPeerTransfers) :
    lifetime x k = (0, 0) := by
  rw [lifetime, lookup_eq_none.mpr unregistered, lookup_eq_none.mpr unrecorded]
  rfl

theorem lifetime_le (tidy : Tidy x) : lifetime x k ≤ wordMax := by
  unfold lifetime
  split
  · exact mk_le_mk.mpr ⟨min_le_right _ _, min_le_right _ _⟩
  · cases found : x.book.pendingDepartedPeerTransfers.lookup k with
    | none => simp [wordMax]
    | some transfer => exact tidy.bounded k transfer found

theorem enteredBook_departures (addr : Option SocketAddr) :
    (enteredBook book now j addr).pendingDepartedPeerTransfers = book.pendingDepartedPeerTransfers.erase j := by
  cases addr <;> rfl

/-- A registration takes over what was recorded. -/
theorem Attributed.enter (attributed : Attributed totals k x) (word : totals ≤ wordMax) (absent : j ∉ x.cards)
    (addr : Option SocketAddr) (counted : ℕ) : let y :=
      { x with cards := x.cards.insert j (freshCard x.book j addr), book := enteredBook x.book x.now j addr, counted }
    totals ≤ lifetime y k ∨ lifetime y k = (0, 0) ∧ (k ∉ y.cards ∨ k = j) ∧
      maxInactivePeerBaselines ≤ y.book.pendingDepartedPeerTransfers.keys.length + 1 := by
  intro y
  have taken : y.book.pendingDepartedPeerTransfers = x.book.pendingDepartedPeerTransfers.erase j :=
    enteredBook_departures addr
  have room : Full x.book.pendingDepartedPeerTransfers →
      maxInactivePeerBaselines ≤ y.book.pendingDepartedPeerTransfers.keys.length + 1 := by
    intro full
    rw [taken, keys_erase]
    exact full.trans (Nat.sub_le_iff_le_add.mp le_length_erase)
  rcases eq_or_ne k j with rfl | other
  · unfold Attributed at attributed
    rw [lookup_eq_none.mpr absent] at attributed
    rw [lifetime, show y.cards.lookup k = _ from lookup_insert _]
    rcases attributed with ⟨transfer, found, enough⟩ | ⟨lost, full⟩
    · left
      have first : (freshCard x.book k addr).totals =
          (satAdd64 transfer.totalDownloaded 0, satAdd64 transfer.totalUploaded 0) := by
        simp [freshCard, Card.totals, found]
      change totals ≤ (freshCard x.book k addr).totals
      rw [first]
      exact mk_le_mk.mpr ⟨le_min enough.1 word.1, le_min enough.2 word.2⟩
    · right
      refine ⟨?_, .inr rfl, room full⟩
      simp [freshCard, Card.totals, lost, satAdd64]
  · have same : lifetime y k = lifetime x k := by
      rw [lifetime, lifetime, taken, lookup_erase_ne other, show y.cards.lookup k = _ from lookup_insert_ne other]
    rw [same]
    refine attributed.outcome.imp_right ?_
    rintro ⟨nothing, gone, full⟩
    exact ⟨nothing, .inl fun member => gone ((mem_insert _).mp member |>.resolve_left other), room full⟩

theorem Tidy.enter (tidy : Tidy x) (addr : Option SocketAddr) (counted : ℕ) : Tidy { x with
      cards := x.cards.insert j (freshCard x.book j addr), book := enteredBook x.book x.now j addr, counted } := by
  have kept : ∀ k transfer, (enteredBook x.book x.now j addr).pendingDepartedPeerTransfers.lookup k = some transfer →
      x.book.pendingDepartedPeerTransfers.lookup k = some transfer := by
    intro k transfer found
    rw [enteredBook_departures] at found
    exact lookup_of_erase found
  exact ⟨forall_insert tidy.keyed rfl, fun k transfer found => tidy.recent k transfer (kept k transfer found),
    fun k transfer found => tidy.bounded k transfer (kept k transfer found)⟩

end Outcome

end Ledger

open TorrentState Ledger PeerBook

variable {host : Host} {a : Action}

/-- No counter of received bytes wraps. -/
def Unwrapped (s : TorrentState) : Event → Prop
  | .handle _ (.incomingBlock k _ _ data) =>
    ∀ peer, s.peers.lookup k = some peer → peer.totalBytesDownloaded + data.length < 2 ^ 64
  | _ => True

/-- The record of a departed peer has become too old. -/
def Expired (s t : TorrentState) (k : PeerId) : Prop :=
  k ∉ s.peers ∧ t.lifetime k = (0, 0) ∧
    ∃ transfer, s.book.pendingDepartedPeerTransfers.lookup k = some transfer ∧
      reconnectWindow ≤ t.now - transfer.departedAt

/-- The record of a departed peer was dropped because there are too many. A registration may take one record of the
full table over, and what it registers has departed before. -/
def Evicted (event : Event) (s t : TorrentState) (k : PeerId) : Prop :=
  t.lifetime k = (0, 0) ∧ match event with
    | .handle _ (.registerPeer j _) => (k ∉ t.peers ∨ k = j ∧ (k ∉ s.peers ∨ k ∈ s.pendingDisconnects)) ∧
        maxInactivePeerBaselines ≤ t.book.pendingDepartedPeerTransfers.keys.length + 1
    | _ => k ∉ t.peers ∧ maxInactivePeerBaselines ≤ t.book.pendingDepartedPeerTransfers.keys.length

theorem evicted_of_full (nothing : t.lifetime k = (0, 0)) (gone : k ∉ t.peers)
    (full : Full t.book.pendingDepartedPeerTransfers) : Evicted event s t k := by
  refine ⟨nothing, ?_⟩
  split
  · exact ⟨.inl gone, Nat.le_succ_of_le full⟩
  · exact ⟨gone, full⟩

theorem permits_settled (registers : ∀ k addr, a ≠ .registerPeer k addr) (ticks : ∀ dtMs, a ≠ .tick dtMs)
    (arrives : ∀ k p offset data, a ≠ .incomingBlock k p offset data) (permits : Permits host s a label) :
    label.Settled := by
  cases label with
  | enter k =>
    obtain ⟨addr, rfl⟩ := permits
    exact registers k addr rfl
  | tick =>
    obtain ⟨dtMs, rfl⟩ := permits
    exact ticks dtMs rfl
  | download k count =>
    obtain ⟨p, offset, data, rfl, -⟩ := permits
    exact arrives k p offset data rfl
  | _ => trivial

theorem mem_cards : k ∈ (standing s).cards ↔ k ∈ s.peers := mem_mapVal

structure Carries (event : Event) (s t : TorrentState) : Prop where
  tidy : Tidy (standing t)
  outcome : ∀ k totals, totals ≤ wordMax → Attributed totals k (standing s) →
    totals ≤ t.lifetime k ∨ Evicted event s t k

theorem Ledger.Keeps.carries (keeps : Keeps (standing s) (standing t)) : Carries event s t where
  tidy := keeps.tidy
  outcome k totals _ start := by
    rw [lifetime_standing]
    refine (keeps.attributed totals k start).outcome.imp_right fun ⟨nothing, gone, full⟩ => ?_
    exact evicted_of_full (lifetime_standing t ▸ nothing) (mem_cards.not.mp gone) full

theorem Ledger.Move.stays (move : Move label c d) (flushes : label.Flushes queued) (waits : k ∉ queued)
    (present : k ∈ c.cards) : k ∈ d.cards := by
  cases label with
  | leave j =>
    obtain ⟨peer, show', eligible, found, rfl⟩ := move
    exact mem_erase.mpr ⟨fun same => waits (same ▸ flushes), present⟩
  | queue =>
    obtain ⟨leaving, rfl⟩ := move
    exact present
  | count =>
    obtain rfl : d = _ := move
    exact present
  | _ => exact flushes.elim

theorem registerPeer_carries {addr : Option SocketAddr} (tidy : Tidy (standing s))
    (run : s.registerPeer host j addr = some (t, effects)) : Carries (.handle host (.registerPeer j addr)) s t := by
  have flushing : Scheduler.Disconnecting (Records fun _ label => label.Flushes s.pendingDisconnects) :=
    records_disconnecting (fun _ => trivial) fun _ => trivial
  obtain ⟨u, before, after, flushed, -, entered⟩ := Scheduler.registerPeer_rule flushing (fun other released =>
    removePeer_records fun _ => by
      rw [Scheduler.releases] at released
      split_ifs at released
      · exact released
      · cases released) run
  have keeps := flushed.keeps (fun _ label => label.settled_of_flushes) tidy
  rcases entered with ⟨rfl, -⟩ | ⟨unknown, same, -⟩
  · exact keeps.carries
  obtain ⟨absent, registered, result⟩ := insertPeer_move addr unknown []
  have after : standing t = _ := same ▸ congrArg Page.toStanding result
  have departed : j ∉ s.peers ∨ j ∈ s.pendingDisconnects := by
    by_contra stays
    rw [not_or, not_not] at stays
    refine absent ((flushed []).preserves (fun c => j ∈ c.cards) ?_ (mem_cards.mpr stays.1))
    exact fun c d label flushes move => move.stays flushes stays.2
  constructor
  · rw [after]
    exact keeps.tidy.enter registered _
  · intro k totals word start
    rw [Evicted, ← mem_cards (s := t), lifetime_standing, show t.book = (standing t).book from rfl, after]
    refine ((keeps.attributed totals k start).enter word absent registered _).imp_right ?_
    rintro ⟨nothing, gone, full⟩
    exact ⟨nothing, gone.imp_right fun same => ⟨same, same ▸ departed⟩, full⟩

/-- A block that does not make the counter wrap adds to the totals. -/
theorem incomingBlock_carries (tidy : Tidy (standing s))
    (unwrapped : Unwrapped s (.handle host (.incomingBlock j p offset data)))
    (run : s.incomingBlock host j p offset data = some (t, effects)) :
    Carries (.handle host (.incomingBlock j p offset data)) s t := by
  refine Keeps.carries ?_
  rcases (incomingBlock_standing run).2 with same | credited
  · rw [same]
    exact ⟨tidy, fun _ _ => id⟩
  rw [credited]
  refine tidy.modify (fun _ => rfl) fun shown found => ?_
  change (cardsOf s.peers).lookup j = some shown at found
  rw [lookup_cardsOf, map_eq_some_iff] at found
  obtain ⟨peer, found, rfl⟩ := found
  have sum : u64 ((card peer).totalDownloaded + data.length) = (card peer).totalDownloaded + data.length :=
    Nat.mod_eq_of_lt (unwrapped peer found)
  rw [sum]
  exact mk_le_mk.mpr ⟨min_le_min_right _ (Nat.add_le_add_left (Nat.le_add_right _ _) _), le_rfl⟩

theorem update_carries (tidy : Tidy (standing s)) (unwrapped : Unwrapped s (.handle host a))
    (run : update host s a = some (t, effects)) (ticks : ∀ dtMs, a ≠ .tick dtMs) : Carries (.handle host a) s t := by
  cases a with
  | registerPeer j addr => exact registerPeer_carries tidy run
  | incomingBlock j p offset data => exact incomingBlock_carries tidy unwrapped run
  | _ =>
    exact ((update_records run).keeps (fun _ _ => permits_settled nofun ticks nofun) tidy).carries

theorem tick_tidy (tidy : Tidy (standing s)) (run : s.tick host dtMs = some (t, effects)) : Tidy (standing t) := by
  rw [(tick_standing run).2]
  refine ⟨tidy.keyed, ?_, ?_⟩
  · rw [maintain_departures]
    exact maintained_recent
  · rw [maintain_departures]
    exact tidy.bounded.maintain _

theorem tick_lifetime (run : s.tick host dtMs = some (t, effects)) :
    s.lifetime k ≤ t.lifetime k ∨ Expired s t k ∨ Evicted (.handle host (.tick dtMs)) s t k := by
  have after := (tick_standing run).2
  have now : t.now = s.now + dtMs := congrArg Standing.now after
  suffices outcome : s.lifetime k ≤ t.lifetime k ∨ Expired s t k ∨
      t.lifetime k = (0, 0) ∧ k ∉ t.peers ∧ Full t.book.pendingDepartedPeerTransfers from
    outcome.imp_right (.imp_right fun ⟨nothing, gone, full⟩ => evicted_of_full nothing gone full)
  rw [Expired, lifetime_standing s, lifetime_standing t, ← mem_cards (s := t),
    show t.book = (standing t).book from rfl, after, now]
  simp only [Ledger.lifetime, maintain_departures, show (standing s).book = s.book from rfl]
  cases registered : (standing s).cards.lookup k with
  | some shown => exact .inl le_rfl
  | none =>
    have unregistered : k ∉ s.peers := fun member => lookup_eq_none.mp registered (mem_mapVal.mpr member)
    cases found : s.book.pendingDepartedPeerTransfers.lookup k with
    | none => exact .inl (le_def.mpr ⟨Nat.zero_le _, Nat.zero_le _⟩)
    | some transfer =>
      rcases lt_or_ge (s.now + dtMs - transfer.departedAt) reconnectWindow with recent | overdue
      · rcases maintained_of_recent found recent with kept | ⟨lost, full⟩
        · left
          rw [kept]
        · right
          right
          rw [lost]
          exact ⟨rfl, lookup_eq_none.mp registered, full⟩
      · right
        left
        rw [maintained_eq_none fun stored same => mem_unique found same ▸ overdue]
        exact ⟨unregistered, rfl, transfer, rfl, overdue⟩

/-- One update: totals grow, or their record is dropped, and the records stay tidy. -/
theorem update_lifetime (tidy : Tidy (standing s)) (unwrapped : Unwrapped s (.handle host a))
    (run : update host s a = some (t, effects)) :
    Tidy (standing t) ∧ ∀ k, s.lifetime k ≤ t.lifetime k ∨ Expired s t k ∨ Evicted (.handle host a) s t k := by
  by_cases ticks : ∃ dtMs, a = .tick dtMs
  · obtain ⟨dtMs, rfl⟩ := ticks
    exact ⟨tick_tidy tidy run, fun _ => tick_lifetime run⟩
  have carries := update_carries tidy unwrapped run fun dtMs same => ticks ⟨dtMs, same⟩
  refine ⟨carries.tidy, fun k => ?_⟩
  rw [lifetime_standing s]
  by_cases known : k ∈ (standing s).cards ∨ k ∈ (standing s).book.pendingDepartedPeerTransfers
  · exact (carries.outcome k _ (lifetime_le tidy) (attributed_lifetime known)).imp_right .inr
  · rw [not_or] at known
    rw [lifetime_of_unknown known.1 known.2]
    exact .inl (le_def.mpr ⟨Nat.zero_le _, Nat.zero_le _⟩)

/-- In every run in which no counter of received bytes wraps, no event makes the totals of a key shrink, except that
the record of a departed peer is dropped for its age or for want of room. -/
theorem lifetime_grows (reachable : Reachable Unwrapped s) (unwrapped : Unwrapped s event)
    (run : event.run s = some (t, effects)) (k : PeerId) :
    s.lifetime k ≤ t.lifetime k ∨ Expired s t k ∨ Evicted event s t k := by
  have tidy : Tidy (standing s) := by
    refine reachable.invariant (fun s => Tidy (standing s)) ?_ ?_ fun s tidy => tidy
    · rintro s ⟨infoHash, trackers, validated, name, now, rfl⟩
      refine ⟨fun k shown found => ?_, fun k transfer found => ?_, fun k transfer found => ?_⟩
      all_goals cases found
    · exact fun host a s t effects admitted run tidy => (update_lifetime tidy admitted run).1
  cases event with
  | handle host a => exact (update_lifetime tidy unwrapped run).2 k
  | recountRarity =>
    cases run
    exact .inl le_rfl

namespace Wrapping

/-- A block of the usual size. -/
def block : Bytes := List.replicate 16384 0

/-- A peer registers, and a torrent of one piece is about to be validated. -/
def events : List Event :=
  [.handle {} (.registerPeer "a" none), .handle {} (.setUserTorrentConfig "d" ∅ none),
    .handle {} (.metadataReceived (plainTorrent 1) 0)]

structure Received (count : ℕ) (s : TorrentState) : Prop where
  validating : s.torrentStatus = .validating
  pieces : s.pieceManager.bitfield = [.need]
  writing : s.writingPieces = ∅
  peer : ∃ peer, s.peers.lookup "a" = some peer ∧ peer.transferBaseDownloaded = 0 ∧
    peer.totalBytesDownloaded = u64 count

/-- While the torrent is validated, an arriving block is counted and nothing else. -/
theorem Received.add (received : Received count s) (data : Bytes) :
    ∃ t effects, update {} s (.incomingBlock "a" 0 0 data) = some (t, effects) ∧ Received (count + data.length) t := by
  have needed : (decide (s.pieceManager.bitfield[0]? = some .done) || decide (0 ∈ s.writingPieces)) = false := by
    simp [received.pieces, received.writing]
  refine ⟨s.receiveBlock "a" 0 0 data.length false, [.emitManagerEvent (.blockReceived s.infoHash)], ?_, ?_⟩
  · have inside : ¬s.pieceManager.bitfield.length ≤ 0 := by simp [received.pieces]
    have status : (s.receiveBlock "a" 0 0 data.length false).torrentStatus = .validating := received.validating
    simp only [update, incomingBlock, if_neg inside, needed, EmittingStep.andThen, bind_some, status,
      decide_true, Bool.or_true, if_true, map_some, append_nil]
  · obtain ⟨peer, found, base, total⟩ := received.peer
    refine { received with peer := ?_ }
    have foundAfter : (s.receiveBlock "a" 0 0 data.length false).peers.lookup "a" = (s.peers.lookup "a").map _ :=
      lookup_modify_self
    rw [found] at foundAfter
    refine ⟨_, foundAfter, base, ?_⟩
    change u64 (peer.totalBytesDownloaded + data.length) = u64 (count + data.length)
    rw [total, u64, u64, u64, Nat.mod_add_mod]

theorem received_start : ∃ s, Reachable (fun _ _ => True) s ∧ Received 0 s := by
  obtain ⟨s, reachable, validating, pieces, writing, peer, found, base, total⟩ := exists_reached events
    (fun s => s.torrentStatus = .validating ∧ s.pieceManager.bitfield = [.need] ∧ s.writingPieces = ∅ ∧
      ∃ peer ∈ s.peers.lookup "a", peer.transferBaseDownloaded = 0 ∧ peer.totalBytesDownloaded = 0)
    (by decide +kernel)
  exact ⟨s, reachable, validating, pieces, writing, peer, found, base, total⟩

/-- Any number of blocks can arrive. -/
theorem received_blocks (data : Bytes) (blocks : ℕ) :
    ∃ s, Reachable (fun _ _ => True) s ∧ Received (blocks * data.length) s := by
  induction blocks with
  | zero =>
    rw [Nat.zero_mul]
    exact received_start
  | succ blocks ih =>
    obtain ⟨s, reachable, received⟩ := ih
    obtain ⟨t, effects, run, more⟩ := received.add data
    have step : (Event.handle {} (.incomingBlock "a" 0 0 data)).run s = some (t, effects) := run
    refine ⟨t, reachable.step trivial step, ?_⟩
    rwa [Nat.succ_mul]

theorem Received.registered (received : Received count s) : "a" ∈ s.peers := by
  obtain ⟨peer, found, -, -⟩ := received.peer
  exact mem_of_lookup_eq_some found

theorem Received.lifetime (received : Received count s) : (s.lifetime "a").1 = u64 count := by
  obtain ⟨peer, found, base, total⟩ := received.peer
  have word : u64 count < 2 ^ 64 := Nat.mod_lt _ (by decide)
  rw [TorrentState.lifetime, found]
  simp only [base, total, satAdd64]
  omega

end Wrapping

open Wrapping in
/-- The counter of received bytes wraps at the block that completes two to the sixty-fourth bytes of one session, and
the total of the key falls back to nothing although nobody departed. -/
theorem received_total_wraps : ∃ s t effects, Reachable (fun _ _ => True) s ∧
    update {} s (.incomingBlock "a" 0 0 block) = some (t, effects) ∧ "a" ∈ s.peers ∧
    (s.lifetime "a").1 = 2 ^ 64 - 2 ^ 14 ∧ (t.lifetime "a").1 = 0 ∧
    ¬(s.lifetime "a" ≤ t.lifetime "a" ∨ Expired s t "a" ∨
      Evicted (.handle {} (.incomingBlock "a" 0 0 block)) s t "a") := by
  have size : block.length = 2 ^ 14 := length_replicate
  obtain ⟨s, reachable, received⟩ := received_blocks block (2 ^ 50 - 1)
  obtain ⟨t, effects, run, more⟩ := received.add block
  have before : (s.lifetime "a").1 = 2 ^ 64 - 2 ^ 14 := by
    rw [received.lifetime, size]
    decide
  have after : (t.lifetime "a").1 = 0 := by
    rw [more.lifetime, size]
    decide
  refine ⟨s, t, effects, reachable, run, received.registered, before, after, ?_⟩
  rintro (grown | expired | evicted)
  · have less := grown.1
    rw [before, after] at less
    exact absurd less (by decide)
  · exact expired.1 received.registered
  · exact evicted.2.1 more.registered

namespace Returning

/-- A peer sends three bytes and is sent seven, and departs. -/
def events : List Event :=
  Wrapping.events ++ [.handle {} (.incomingBlock "a" 0 0 [1, 2, 3]), .handle {} (.blockSentToPeer "a" 7),
    .handle {} (.peerDisconnected "a" true)]

end Returning

open Returning in
/-- What was exchanged with a peer is remembered when it comes back. -/
theorem returning_peer_remembered : ∃ s t effects, runEvents emptyState events = some s ∧ "a" ∉ s.peers ∧
    s.lifetime "a" = (3, 7) ∧ update {} s (.registerPeer "a" none) = some (t, effects) ∧
    s.lifetime "a" ≤ t.lifetime "a" ∧ t.lifetime "a" = (3, 7) := by
  obtain ⟨s, run, reachable, gone, total, registers⟩ := exists_reachable Unwrapped (fun s event => match event with
      | .handle _ (.incomingBlock k _ _ data) =>
        (s.peers.lookup k).all fun peer => decide (peer.totalBytesDownloaded + data.length < 2 ^ 64)
      | _ => true) events
    (fun s => "a" ∉ s.peers ∧ s.lifetime "a" = (3, 7) ∧
      ∃ result ∈ update {} s (.registerPeer "a" none), result.1.lifetime "a" = (3, 7))
    (by simp [events, Wrapping.events, Unwrapped, Option.all_eq_true]) (by decide +kernel)
  obtain ⟨⟨t, effects⟩, registered, kept⟩ := registers
  have admitted : Unwrapped s (.handle {} (.registerPeer "a" none)) := trivial
  refine ⟨s, t, effects, run, gone, total, registered, ?_, kept⟩
  rcases lifetime_grows reachable admitted registered "a" with grown | expired | evicted
  · exact grown
  · exact absurd (kept.symm.trans expired.2.1) (by decide)
  · exact absurd (kept.symm.trans evicted.1) (by decide)

end Superseedr
