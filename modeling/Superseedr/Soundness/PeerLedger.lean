import Superseedr.Soundness.Runs

/-! # The registered peers and the book as a ledger

Of a peer the ledger keeps its addresses, the choke and interest flags and the transferred bytes; next
to the peers it keeps the book by address and the commands that choke and unchoke. Few handlers touch
any of this. Every update is a run of the moves below, and the action says which moves they can be.
-/

namespace Superseedr

open EmittingStep AList

variable {effects : List Effect} {seen : Ledger.Card → Ledger.Card} {peer changed : PeerState}
  {change : PeerId → Ledger.Card → Ledger.Card} {t s : TorrentState} {told : List (PeerId × ChokeStatus)}
  {result : TorrentState × List Effect} {second : TorrentState → EmittingStep TorrentState Effect}

namespace Ledger

def commandsOf (effects : List Effect) : List (PeerId × ChokeStatus) :=
  effects.flatMap fun
    | .sendToPeer k .peerChoke => [(k, .choke)]
    | .sendToPeer k .peerUnchoke => [(k, .unchoke)]
    | _ => []

@[simp] theorem commandsOf_nil : commandsOf [] = [] := rfl

@[simp] theorem commandsOf_append (before after : List Effect) :
    commandsOf (before ++ after) = commandsOf before ++ commandsOf after :=
  List.flatMap_append

theorem commandsOf_eq_nil (silent : ∀ effect ∈ effects, chokes effect = false) : commandsOf effects = [] := by
  apply List.flatMap_eq_nil_iff.mpr
  intro effect member
  have quiet := silent effect member
  split
  · cases quiet
  · cases quiet
  · rfl

section Cards

variable {peers : AList fun _ : PeerId => PeerState} {k : PeerId} {change : PeerState → PeerState}

theorem lookup_cardsOf : (cardsOf peers).lookup k = (peers.lookup k).map card := lookup_mapVal

theorem cardsOf_modify (agree : ∀ peer, card (change peer) = seen (card peer)) :
    cardsOf (peers.modify k change) = (cardsOf peers).modify k seen :=
  mapVal_modify agree

theorem cardsOf_modify_of_unseen (unseen : ∀ peer, card (change peer) = card peer) :
    cardsOf (peers.modify k change) = cardsOf peers :=
  (cardsOf_modify fun peer => unseen peer).trans modify_id

theorem cardsOf_restore (found : peers.lookup k = some peer) (unseen : card changed = card peer) :
    cardsOf (peers.modify k fun _ => changed) = cardsOf peers := by
  have written : cardsOf (peers.modify k fun _ => changed) = (cardsOf peers).modify k fun _ => card changed :=
    cardsOf_modify fun _ => rfl
  rw [written, modify_congr (g := id), modify_id]
  intro shown stored
  rw [lookup_cardsOf, found, Option.map_some, Option.some.injEq] at stored
  exact unseen.trans stored

theorem cardsOf_mapVal_of_unseen (unseen : ∀ peer, card (change peer) = card peer) :
    cardsOf (peers.mapVal fun _ => change) = cardsOf peers := by
  rw [cardsOf, mapVal_mapVal, cardsOf]
  simp only [unseen]

end Cards

/-- The ledger at one moment of an update, with the commands sent so far. -/
structure Page extends Standing where
  told : List (PeerId × ChokeStatus)

def page (s : TorrentState) (told : List (PeerId × ChokeStatus)) : Page := ⟨standing s, told⟩

inductive Label where
  | enter (k : PeerId)
  | leave (k : PeerId)
  | wipe
  | rechoke
  | interest (k : PeerId)
  | unchoke (k : PeerId)
  | download (k : PeerId) (count : ℕ)
  | upload (k : PeerId) (count : ℕ)
  | tick
  | count
  | queue

def freshCard (book : PeerBook) (k : PeerId) (addr : Option SocketAddr) : Card where
  ipPort := k
  peerAddr := addr
  amChoking := .choke
  interested := false
  totalDownloaded := 0
  totalUploaded := 0
  baseDownloaded := ((book.pendingDepartedPeerTransfers.lookup k).map (·.totalDownloaded)).getD 0
  baseUploaded := ((book.pendingDepartedPeerTransfers.lookup k).map (·.totalUploaded)).getD 0

def enteredBook (book : PeerBook) (now : ℕ) (k : PeerId) (addr : Option SocketAddr) : PeerBook :=
  let book := { book with pendingDepartedPeerTransfers := book.pendingDepartedPeerTransfers.erase k }
  match addr with
  | some addr => book.recordPeerRegistration now k addr
  | none => book

def wanted (unchoked : List PeerId) (shown : Card) : ChokeStatus :=
  if shown.ipPort ∈ unchoked then .unchoke else .choke

def rechokeCommand (unchoked : List PeerId) (shown : Card) : List (PeerId × ChokeStatus) :=
  if shown.amChoking = wanted unchoked shown then [] else [(shown.ipPort, wanted unchoked shown)]

/-- What happens to the ledger. -/
def Move : Label → Page → Page → Prop
  | .enter k, c, d => k ∉ c.cards ∧ ∃ addr, d =
      { c with
        cards := c.cards.insert k (freshCard c.book k addr)
        book := enteredBook c.book c.now k addr
        counted := (c.cards.insert k (freshCard c.book k addr)).keys.length }
  | .leave k, c, d => ∃ (peer : PeerState) (show' : SocketAddr → String) (eligible : Bool),
      c.cards.lookup k = some (card peer) ∧ d =
      { c with
        cards := c.cards.erase k
        book := (c.book.recordPeerRemovalWithReconnectEligibility c.now k eligible).recordDepartedPeerTransfer
          show' c.now peer }
  | .wipe, c, d => ∃ (peers : List PeerState) (show' : SocketAddr → String),
      (peers.map card).Perm (c.cards.entries.map (·.2)) ∧ d =
      { c with
        cards := ∅
        book :=
          { peers.foldl (fun book peer => book.recordDepartedPeerTransfer show' c.now peer) c.book with
            peerActiveCounts := fun _ => none
            peerIpById := fun _ => none }
        counted := 0 }
  | .rechoke, c, d => ∃ chosen order : List Card, chosen.length ≤ 5 ∧
      (∀ shown ∈ chosen, shown.interested = true ∧ shown ∈ c.cards.entries.map (·.2)) ∧
      order.Perm (c.cards.entries.map (·.2)) ∧ d =
        { c with
          cards := c.cards.mapVal fun _ shown =>
            { shown with amChoking := wanted (chosen.map (·.ipPort)) shown }
          told := c.told ++ order.flatMap (rechokeCommand (chosen.map (·.ipPort))) }
  | .interest k, c, d => d = { c with cards := c.cards.modify k fun shown => { shown with interested := true } }
  | .unchoke k, c, d => (∃ shown, c.cards.lookup k = some shown ∧ shown.amChoking = .choke) ∧ d =
      { c with
        cards := c.cards.modify k fun shown => { shown with interested := true, amChoking := .unchoke }
        told := c.told ++ [(k, .unchoke)] }
  | .download k count, c, d => d =
      { c with
        cards := c.cards.modify k fun shown => { shown with totalDownloaded := u64 (shown.totalDownloaded + count) } }
  | .upload k count, c, d => d =
      { c with
        cards := c.cards.modify k fun shown => { shown with totalUploaded := satAdd64 shown.totalUploaded count } }
  | .tick, c, d => ∃ later, c.now ≤ later ∧ d =
      { c with now := later, book := c.book.maintainPeerReconnectBaselines later }
  | .count, c, d => d = { c with counted := c.cards.keys.length }
  | .queue, c, d => ∃ leaving, d = { c with leaving := leaving }

def Keyed (cards : AList fun _ : PeerId => Card) : Prop := ∀ k shown, cards.lookup k = some shown → shown.ipPort = k

variable {cards : AList fun _ : PeerId => Card}

theorem Keyed.ports (keyed : Keyed cards) : (cards.entries.map (·.2)).map (·.ipPort) = cards.keys := by
  rw [List.map_map]
  refine List.map_congr_left fun entry member => ?_
  exact keyed entry.1 entry.2 (mem_lookup_iff.mpr member)

theorem Keyed.mapVal (keyed : Keyed cards) (ports : ∀ k shown, (change k shown).ipPort = shown.ipPort) :
    Keyed (cards.mapVal change) := by
  intro k shown found
  rw [lookup_mapVal, Option.map_eq_some_iff] at found
  obtain ⟨before, found, rfl⟩ := found
  rw [ports]
  exact keyed k before found

theorem Keyed.modify {change : Card → Card} (keyed : Keyed cards)
    (ports : ∀ shown, (change shown).ipPort = shown.ipPort) (k : PeerId) : Keyed (cards.modify k change) := by
  apply keyed.mapVal
  intro other shown
  split_ifs
  · exact ports shown
  · rfl

variable {label : Ledger.Label} {c d : Ledger.Page}

theorem Move.keyed (move : Move label c d) (keyed : Keyed c.cards) : Keyed d.cards := by
  cases label with
  | enter k =>
    obtain ⟨-, addr, rfl⟩ := move
    exact forall_insert keyed rfl
  | leave k =>
    obtain ⟨peer, show', eligible, -, rfl⟩ := move
    intro other shown found
    exact keyed other shown (lookup_of_erase found)
  | wipe =>
    obtain ⟨peers, show', -, rfl⟩ := move
    intro other shown found
    simp at found
  | rechoke =>
    obtain ⟨chosen, order, -, -, -, rfl⟩ := move
    exact keyed.mapVal fun _ _ => rfl
  | unchoke k =>
    obtain ⟨-, rfl⟩ := move
    refine keyed.modify ?_ k
    exact fun _ => rfl
  | interest k | download k count | upload k count =>
    obtain rfl : d = _ := move
    refine keyed.modify ?_ k
    exact fun _ => rfl
  | tick =>
    obtain ⟨later, -, rfl⟩ := move
    exact keyed
  | count =>
    obtain rfl : d = _ := move
    exact keyed
  | queue =>
    obtain ⟨leaving, rfl⟩ := move
    exact keyed

/-- A handler as a run of moves, whatever was sent before it. -/
def Records (guard : Page → Label → Prop) (s : TorrentState) (effects : List Effect) (t : TorrentState) : Prop :=
  ∀ told, Steps Move guard (page s told) (page t (told ++ commandsOf effects))

/-- A handler the ledger does not see. -/
abbrev Unrecorded := Frame chokes standing

theorem standing_of_cards (cards : cardsOf t.peers = cardsOf s.peers) (book : t.book = s.book) (now : t.now = s.now)
    (counted : t.numberOfSuccessfullyConnectedPeers = s.numberOfSuccessfullyConnectedPeers)
    (leaving : t.pendingDisconnects = s.pendingDisconnects) : standing t = standing s := by
  simp only [standing, cards, book, now, counted, leaving]

theorem page_eq (cards : cardsOf t.peers = c.cards) (book : t.book = c.book) (now : t.now = c.now)
    (counted : t.numberOfSuccessfullyConnectedPeers = c.counted) (leaving : t.pendingDisconnects = c.leaving)
    (sent : told = c.told) : page t told = c := by
  obtain ⟨⟨_, _, _, _, _⟩, _⟩ := c
  simp only at cards book now counted leaving sent
  simp only [page, standing, cards, book, now, counted, leaving, sent]

namespace Records

variable {guard : Page → Label → Prop} {u : TorrentState} {before after : List Effect}

theorem of_unrecorded (unrecorded : Unrecorded s before t) : Records guard s before t := by
  intro told
  rw [commandsOf_eq_nil unrecorded.silent, List.append_nil]
  exact .refl_of_eq (by rw [page, page, unrecorded.same])

theorem refl (s : TorrentState) : Records guard s [] s := of_unrecorded (.refl s)

theorem trans (first : Records guard s before t) (second : Records guard t after u) :
    Records guard s (before ++ after) u := by
  intro told
  rw [commandsOf_append, ← List.append_assoc]
  exact (first told).trans (second _)

theorem of_move (label : Label) (silent : ∀ effect ∈ before, chokes effect = false)
    (admitted : ∀ told, guard (page s told) label) (move : ∀ told, Move label (page s told) (page t told)) :
    Records guard s before t := by
  intro told
  rw [commandsOf_eq_nil silent, List.append_nil]
  exact .single (admitted told) (move told)

theorem of_result (records : Records guard s result.2 result.1) (run : some result = some (t, before)) :
    Records guard s before t := by
  cases run
  exact records

theorem from_same (same : standing t = standing s) (records : Records guard t before u) : Records guard s before u := by
  intro told
  have start : page s told = page t told := by rw [page, page, same]
  rw [start]
  exact records told

theorem andThen {first : Update} (run : first.andThen second = some (u, after))
    (left : ∀ t effects, first = some (t, effects) → Records guard s effects t)
    (right : ∀ t effects, second t = some (u, effects) → Records guard t effects u) : Records guard s after u := by
  obtain ⟨t, before, more, firstRun, secondRun, rfl⟩ := andThen_eq_some.mp run
  exact (left t before firstRun).trans (right t more secondRun)

theorem forEach {α : Type*} {l : List α} {body : ℕ → α → TorrentState → EmittingStep TorrentState Effect}
    (run : EmittingStep.forEach l body s = some (u, after))
    (round : ∀ i x s t effects, x ∈ l → body i x s = some (t, effects) → Records guard s effects t) :
    Records guard s after u :=
  forEachFrom_rule refl (fun first second => trans first second) round run

end Records

end Ledger

end Superseedr
