import Mathlib.Data.List.Chain
import Superseedr.Soundness.PeerBookkeeping

/-! # What a peer is told about being choked

Every session of a peer starts choked. From then on the peer is told of a change exactly when its flag
changes, so the commands alternate and the last of them is the flag. The recalculation unchokes only
interested peers, four by merit and at most one by chance.
-/

namespace Superseedr

open EmittingStep List Option AList Scheduler

variable {peer : PeerState} {first last middle : ChokeStatus} {unchoked : List PeerId} {j k : PeerId}
  {change : Ledger.Card → Ledger.Card} {cards : AList fun _ : PeerId => Ledger.Card} {s t u : TorrentState}
  {effects before : List Effect} {addr : Option SocketAddr} {event : Event} {completed : List ℕ}

namespace Ledger

def toldTo (k : PeerId) (told : List (PeerId × ChokeStatus)) : List ChokeStatus :=
  told.filterMap fun command => if command.1 = k then some command.2 else none

@[simp] theorem toldTo_nil (k : PeerId) : toldTo k [] = [] := rfl

@[simp] theorem toldTo_append (k : PeerId) (before after : List (PeerId × ChokeStatus)) :
    toldTo k (before ++ after) = toldTo k before ++ toldTo k after :=
  filterMap_append

def Follows (first : ChokeStatus) (commands : List ChokeStatus) (last : ChokeStatus) : Prop :=
  IsChain (· ≠ ·) (first :: commands) ∧ (first :: commands).getLast? = some last

theorem Follows.refl (flag : ChokeStatus) : Follows flag [] flag := ⟨.singleton _, rfl⟩

theorem Follows.single (differ : first ≠ last) : Follows first [last] last :=
  ⟨isChain_cons_cons.mpr ⟨differ, .singleton _⟩, rfl⟩

theorem Follows.trans {before after : List ChokeStatus} (left : Follows first before middle)
    (right : Follows middle after last) : Follows first (before ++ after) last := by
  cases after with
  | nil =>
    obtain rfl : middle = last := some.inj right.2
    rwa [append_nil]
  | cons command rest =>
    have step := isChain_cons_cons.mp right.1
    refine ⟨?_, ?_⟩
    · rw [← cons_append, isChain_append]
      refine ⟨left.1, step.2, ?_⟩
      intro x isLast y isFirst
      rw [left.2, mem_some_iff] at isLast
      obtain rfl : command = y := some.inj isFirst
      rw [← isLast]
      exact step.1
    · rw [← cons_append, getLast?_append_of_ne_nil _ (by simp)]
      have same := right.2
      rwa [getLast?_cons_cons] at same

section Rechoke

theorem flatMap_of_nodup {α β γ : Type} {l : List α} {key : α → β} {f : α → List γ} {a : α}
    (distinct : (l.map key).Nodup) (member : a ∈ l) (others : ∀ x ∈ l, key x ≠ key a → f x = []) :
    l.flatMap f = f a := by
  induction l with
  | nil => cases member
  | cons x rest ih =>
    rw [map_cons, nodup_cons] at distinct
    have restOthers : ∀ y ∈ rest, key y ≠ key a → f y = [] := fun y later => others y (.tail x later)
    rw [flatMap_cons]
    rcases mem_cons.mp member with rfl | later
    · have nothing : rest.flatMap f = [] := by
        apply flatMap_eq_nil_iff.mpr
        intro y later
        exact restOthers y later fun same => distinct.1 (same ▸ mem_map_of_mem later)
      rw [nothing, append_nil]
    · have differ : key x ≠ key a := fun same => distinct.1 (same ▸ mem_map_of_mem later)
      rw [others x (.head _) differ, nil_append]
      exact ih distinct.2 later restOthers

variable {cards : AList fun _ : PeerId => Card} {shown : Card}

theorem toldTo_rechokeCommand_of_ne (differ : shown.ipPort ≠ k) : toldTo k (rechokeCommand unchoked shown) = [] := by
  unfold rechokeCommand
  split_ifs
  · rfl
  · simp [toldTo, differ]

theorem toldTo_rechoke (keyed : Keyed cards) {order : List Card} (perm : order.Perm (cards.entries.map (·.2)))
    (found : cards.lookup k = some shown) (unchoked : List PeerId) :
    toldTo k (order.flatMap (rechokeCommand unchoked)) = toldTo k (rechokeCommand unchoked shown) := by
  have own : shown.ipPort = k := keyed k shown found
  have member : shown ∈ order := by
    rw [perm.mem_iff]
    exact mem_map.mpr ⟨⟨k, shown⟩, mem_lookup_iff.mp found, rfl⟩
  have distinct : (order.map (·.ipPort)).Nodup := by
    rw [(perm.map _).nodup_iff, keyed.ports]
    exact cards.keys_nodup
  have each : toldTo k (order.flatMap (rechokeCommand unchoked)) =
      order.flatMap fun shown => toldTo k (rechokeCommand unchoked shown) := filterMap_flatMap ..
  rw [each]
  refine flatMap_of_nodup distinct member fun other _ differ => ?_
  rw [own] at differ
  exact toldTo_rechokeCommand_of_ne differ

theorem follows_rechokeCommand (own : shown.ipPort = k) (unchoked : List PeerId) :
    Follows shown.amChoking (toldTo k (rechokeCommand unchoked shown)) (wanted unchoked shown) := by
  unfold rechokeCommand
  split_ifs with same
  · rw [← same]
    exact .refl _
  · have told : toldTo k [(shown.ipPort, wanted unchoked shown)] = [wanted unchoked shown] := by simp [toldTo, own]
    rw [told]
    exact .single same

end Rechoke

section Moves

variable {c d : Page} {label : Label} {before shown : Card}

structure Traces (k : PeerId) (label : Label) (c d : Page) (before shown : Card) : Prop where
  interested : label ≠ .interest k → label ≠ .unchoke k → shown.interested = before.interested
  told : Keyed c.cards → ∃ commands, toldTo k d.told = toldTo k c.told ++ commands ∧
    Follows before.amChoking commands shown.amChoking

/-- Nothing is said to a peer that keeps its flag. -/
theorem Traces.quiet (told : d.told = c.told) (choking : shown.amChoking = before.amChoking)
    (interested : label ≠ .interest k → label ≠ .unchoke k → shown.interested = before.interested) :
    Traces k label c d before shown where
  interested := interested
  told _ := ⟨[], by rw [told, append_nil], choking ▸ .refl _⟩

theorem lookup_modify_some {cards : AList fun _ : PeerId => Card}
    (found : (cards.modify j change).lookup k = some shown) :
    ∃ before, cards.lookup k = some before ∧ shown = if k = j then change before else before := by
  rw [lookup_modify] at found
  split_ifs at found with same
  · obtain ⟨before, stored, rfl⟩ := map_eq_some_iff.mp found
    exact ⟨before, stored, (if_pos same).symm⟩
  · exact ⟨shown, found, (if_neg same).symm⟩

theorem Move.traces (move : Move label c d) (stays : label ≠ .enter k) (found : d.cards.lookup k = some shown) :
    ∃ before, c.cards.lookup k = some before ∧ Traces k label c d before shown := by
  cases label with
  | enter j =>
    obtain ⟨-, addr, rfl⟩ := move
    rw [lookup_insert_ne fun same => stays (by rw [same])] at found
    exact ⟨shown, found, .quiet rfl rfl fun _ _ => rfl⟩
  | leave j =>
    obtain ⟨peer, show', eligible, -, rfl⟩ := move
    exact ⟨shown, lookup_of_erase found, .quiet rfl rfl fun _ _ => rfl⟩
  | wipe =>
    obtain ⟨peers, show', -, rfl⟩ := move
    simp at found
  | rechoke =>
    obtain ⟨chosen, order, -, -, perm, rfl⟩ := move
    simp only [lookup_mapVal, map_eq_some_iff] at found
    obtain ⟨before, found, rfl⟩ := found
    refine ⟨before, found, fun _ _ => rfl, fun keyed => ⟨_, toldTo_append .., ?_⟩⟩
    rw [toldTo_rechoke keyed perm found]
    exact follows_rechokeCommand (keyed k before found) _
  | interest j =>
    obtain rfl : d = _ := move
    obtain ⟨before, stored, rfl⟩ := lookup_modify_some found
    refine ⟨before, stored, .quiet rfl ?_ fun silent _ => ?_⟩
    · split_ifs <;> rfl
    · rw [if_neg fun same => silent (by rw [same])]
  | unchoke j =>
    obtain ⟨⟨old, foundOld, choked⟩, rfl⟩ := move
    obtain ⟨before, stored, rfl⟩ := lookup_modify_some found
    refine ⟨before, stored, fun _ idle => ?_, fun _ => ⟨_, toldTo_append .., ?_⟩⟩
    · rw [if_neg fun same => idle (by rw [same])]
    · rcases eq_or_ne k j with rfl | same
      · have told : toldTo k [(k, ChokeStatus.unchoke)] = [.unchoke] := by simp [toldTo]
        obtain rfl := mem_unique foundOld stored
        rw [told, if_pos rfl, choked]
        exact .single (by decide)
      · have told : toldTo k [(j, ChokeStatus.unchoke)] = [] := by simp [toldTo, Ne.symm same]
        rw [told, if_neg same]
        exact .refl _
  | download j count | upload j count =>
    obtain rfl : d = _ := move
    obtain ⟨before, stored, rfl⟩ := lookup_modify_some found
    refine ⟨before, stored, .quiet rfl ?_ fun _ _ => ?_⟩
    · split_ifs <;> rfl
    · split_ifs <;> rfl
  | tick =>
    obtain ⟨later, -, rfl⟩ := move
    exact ⟨shown, found, .quiet rfl rfl fun _ _ => rfl⟩
  | count =>
    obtain rfl : d = _ := move
    exact ⟨shown, found, .quiet rfl rfl fun _ _ => rfl⟩
  | queue =>
    obtain ⟨leaving, rfl⟩ := move
    exact ⟨shown, found, .quiet rfl rfl fun _ _ => rfl⟩

def FewUnchoked (cards : AList fun _ : PeerId => Card) : Prop :=
  (cards.entries.filter fun entry => entry.2.amChoking = .unchoke).length ≤ 5 ∧
    ∀ k shown, cards.lookup k = some shown → shown.amChoking = .unchoke → shown.interested = true

theorem length_unchoked_le (keyed : Keyed cards) (unchoked : List PeerId) :
    ((cards.mapVal fun _ shown => { shown with amChoking := wanted unchoked shown }).entries.filter
      fun entry => entry.2.amChoking = .unchoke).length ≤ unchoked.length := by
  have keys : ((cards.mapVal fun _ shown => { shown with amChoking := wanted unchoked shown }).entries.filter
      fun entry => entry.2.amChoking = .unchoke).length = (cards.keys.filter fun k => k ∈ unchoked).length := by
    rw [mapVal, AList.keys, List.keys, List.filter_map, length_map, List.filter_map, length_map]
    congr 1
    refine filter_congr fun entry member => ?_
    have own := keyed entry.1 entry.2 (mem_lookup_iff.mpr member)
    by_cases among : entry.1 ∈ unchoked <;> simp [Sigma.map, wanted, own, among]
  rw [keys]
  refine (subperm_of_subset (cards.keys_nodup.filter _) fun k member => ?_).length_le
  exact of_decide_eq_true (mem_filter.mp member).2

theorem Move.fewUnchoked (move : Move .rechoke c d) (keyed : Keyed c.cards) : FewUnchoked d.cards := by
  obtain ⟨chosen, order, few, allowed, -, rfl⟩ := move
  refine ⟨?_, ?_⟩
  · have within := length_unchoked_le keyed (chosen.map (·.ipPort))
    rw [length_map] at within
    exact within.trans few
  · intro k shown found unchoked
    simp only [lookup_mapVal, map_eq_some_iff] at found
    obtain ⟨before, found, rfl⟩ := found
    have among : before.ipPort ∈ chosen.map (·.ipPort) := by
      by_contra outside
      simp [wanted, outside] at unchoked
    obtain ⟨lucky, member, same⟩ := mem_map.mp among
    obtain ⟨interested, stored⟩ := allowed lucky member
    obtain ⟨entry, isEntry, rfl⟩ := mem_map.mp stored
    have foundLucky := mem_lookup_iff.mpr isEntry
    have own := keyed entry.1 entry.2 foundLucky
    rw [same, keyed k before found] at own
    rw [← own, found] at foundLucky
    rw [some.inj foundLucky]
    exact interested

end Moves

theorem Records.traces {guard : Page → Label → Prop} (records : Records guard s effects t)
    (stays : ∀ c, ¬guard c (.enter k)) (found : t.peers.lookup k = some peer) :
    ∃ before, s.peers.lookup k = some before ∧
      (Keyed (cardsOf s.peers) → Follows before.amChoking (toldTo k (commandsOf effects)) peer.amChoking) ∧
      ((∀ c, ¬guard c (.interest k) ∧ ¬guard c (.unchoke k)) →
        peer.peerIsInterestedInUs = before.peerIsInterestedInUs) := by
  have finish := (records []).preserves (fun c => (Keyed (cardsOf s.peers) → Keyed c.cards) ∧
    ∀ shown, c.cards.lookup k = some shown → ∃ before, s.peers.lookup k = some before ∧
      (Keyed (cardsOf s.peers) → Follows before.amChoking (toldTo k c.told) shown.amChoking) ∧
      ((∀ c, ¬guard c (.interest k) ∧ ¬guard c (.unchoke k)) → shown.interested = before.peerIsInterestedInUs))
    ?_ ⟨id, fun shown isShown => ?_⟩
  · exact finish.2 (card peer) (by rw [page, standing, lookup_cardsOf, found, map_some])
  · rintro c d label admitted move ⟨keyed, known⟩
    refine ⟨fun start => move.keyed (keyed start), fun shown isShown => ?_⟩
    have other : label ≠ .enter k := fun same => stays c (same ▸ admitted)
    obtain ⟨middle, foundMiddle, traces⟩ := move.traces other isShown
    obtain ⟨before, foundBefore, follows, interest⟩ := known middle foundMiddle
    refine ⟨before, foundBefore, fun start => ?_, fun silent => ?_⟩
    · obtain ⟨commands, told, changes⟩ := traces.told (keyed start)
      rw [told]
      exact (follows start).trans changes
    · rw [← interest silent]
      exact traces.interested (fun same => (silent c).1 (same ▸ admitted)) fun same => (silent c).2 (same ▸ admitted)
  · change (cardsOf s.peers).lookup k = some shown at isShown
    rw [lookup_cardsOf] at isShown
    obtain ⟨before, foundBefore, rfl⟩ := map_eq_some_iff.mp isShown
    exact ⟨before, foundBefore, fun _ => .refl _, fun _ => rfl⟩

end Ledger

open TorrentState Ledger

variable {host : Host} {a : Action}

theorem removePeer_removes {round : ℕ} (run : removePeer host round k s = some (t, effects)) : k ∉ t.peers := by
  unfold removePeer at run
  split at run
  · rename_i absent
    cases run
    exact lookup_eq_none.mp absent
  · obtain ⟨pm, -, result⟩ := map_eq_some_iff.mp run
    cases result
    simp [mem_erase]

theorem removePeer_keeps_absent {round : ℕ} (run : removePeer host round j s = some (t, effects))
    (absent : k ∉ s.peers) : k ∉ t.peers := by
  rcases eq_or_ne k j with rfl | same
  · exact removePeer_removes run
  · rw [← lookup_eq_none, removePeer_lookup same run]
    exact lookup_eq_none.mpr absent

theorem flushDisconnects_removes (queued : k ∈ s.pendingDisconnects)
    (run : s.flushDisconnects host = some (t, effects)) : k ∉ t.peers := by
  obtain ⟨⟨u, emitted⟩, loop, result⟩ := map_eq_some_iff.mp run
  cases result
  have removed := forEachFrom_reaches (P := fun u : TorrentState => k ∉ u.peers) queued
    (fun _ _ _ _ round => removePeer_removes round)
    (fun _ _ _ _ _ round absent => removePeer_keeps_absent round absent) loop
  exact removed

/-- When a registration comes to enter its key, no ended session is registered under it any more. -/
theorem replaced_absent (ended : k ∉ s.peers ∨ k ∈ s.pendingDisconnects)
    (first : (if s.replacesPendingSession k addr then s.peerDisconnected host "" true else some (s, [])) =
      some (u, before)) : k ∉ u.peers := by
  split_ifs at first with replaces
  · rcases peerDisconnected_cases first with ⟨rfl, -, nobody⟩ | ⟨-, flushed⟩
    · rw [queuedDisconnects_nobody] at nobody
      exact ended.resolve_right fun queued => not_mem_nil (nobody rfl ▸ queued)
    · rw [queuedDisconnects_nobody] at flushed
      rcases ended with absent | queued
      · have stays : Disconnecting fun u _ v => k ∉ u.peers → k ∉ v.peers :=
          ⟨fun _ => id, fun first second before => second (first before), fun _ => id, fun _ _ _ _ => id, fun _ => id⟩
        exact flushDisconnects_rule stays (fun _ _ _ _ _ _ _ round => removePeer_keeps_absent round) flushed absent
      · exact flushDisconnects_removes queued flushed
  · cases first
    refine ended.resolve_right fun queued => replaces ?_
    rw [replacesPendingSession, List.any_eq_true]
    exact ⟨k, queued, by simp⟩

theorem registerPeer_fresh (ended : k ∉ s.peers ∨ k ∈ s.pendingDisconnects)
    (run : s.registerPeer host k addr = some (t, effects)) (found : t.peers.lookup k = some peer) :
    peer.amChoking = .choke ∧ peer.peerIsInterestedInUs = false ∧ peer.inflightRequests = 0 ∧
    peer.activeBlocks = ∅ := by
  obtain ⟨u, before, after, first, -, outcome⟩ := registerPeer_outcome run
  rcases outcome with ⟨rfl, -⟩ | ⟨-, rfl, -⟩
  · exact absurd (mem_of_lookup_eq_some found) (replaced_absent ended first)
  · simp only [insertPeer, refreshPeerAdmissionGuard, lookup_insert, some.injEq] at found
    rw [← found]
    split <;> exact ⟨rfl, rfl, rfl, rfl⟩

/-- Only the recalculation and the arrival of interest say anything about being choked. -/
theorem commandsOf_eq_nil_of_quiet (calm : a.rechokes = false) (bored : ∀ k, a ≠ .peerInterested k)
    (run : update host s a = some (t, effects)) : commandsOf effects = [] := by
  refine (update_records run []).preserves (fun c => c.told = []) (fun c d label permits move before => ?_) rfl
  cases label with
  | rechoke => cases calm.symm.trans permits
  | unchoke k => exact absurd permits (bored k)
  | enter k =>
    obtain ⟨-, addr, rfl⟩ := move
    exact before
  | leave k =>
    obtain ⟨peer, show', eligible, -, rfl⟩ := move
    exact before
  | wipe =>
    obtain ⟨peers, show', -, rfl⟩ := move
    exact before
  | interest k | download k count | upload k count | count =>
    obtain rfl : d = _ := move
    exact before
  | tick =>
    obtain ⟨later, -, rfl⟩ := move
    exact before
  | queue =>
    obtain ⟨leaving, rfl⟩ := move
    exact before

/-- A registration of a key that has no live session begins one. -/
def begins (s : TorrentState) (event : Event) (k : PeerId) : Bool :=
  match event with
  | .handle _ (.registerPeer j _) => j = k && (k ∉ s.peers || k ∈ s.pendingDisconnects)
  | _ => false

theorem update_follows (keyed : Keyed (cardsOf s.peers)) (run : update host s a = some (t, effects))
    (found : t.peers.lookup k = some peer) :
    if begins s (.handle host a) k then Follows .choke (toldTo k (commandsOf effects)) peer.amChoking
    else ∃ before, s.peers.lookup k = some before ∧
      Follows before.amChoking (toldTo k (commandsOf effects)) peer.amChoking := by
  by_cases registers : ∃ addr, a = .registerPeer k addr
  · obtain ⟨addr, rfl⟩ := registers
    rw [commandsOf_eq_nil_of_quiet rfl (by simp) run, toldTo_nil]
    simp only [begins, decide_true, Bool.true_and, Bool.or_eq_true, decide_eq_true_eq]
    split_ifs with ended
    · rw [(registerPeer_fresh ended run found).1]
      exact .refl _
    · rw [not_or, not_not] at ended
      exact ⟨peer, (registerPeer_lookup ended.1 ended.2 run).symm.trans found, .refl _⟩
  have other : begins s (.handle host a) k = false := by
    cases a with
    | registerPeer j addr =>
      have differ : j ≠ k := by
        rintro rfl
        exact registers ⟨addr, rfl⟩
      simp [begins, differ]
    | _ => rfl
  rw [other, if_neg Bool.false_ne_true]
  obtain ⟨before, foundBefore, follows, -⟩ := (update_records run).traces (fun _ permits => registers permits) found
  exact ⟨before, foundBefore, follows keyed⟩

/-- The torrent state with what every peer has been told since its session began. -/
structure Watched where
  state : TorrentState
  told : PeerId → List ChokeStatus

/-- Run an event and write down its choke commands. -/
def Watched.next (w : Watched) (event : Event) : Option Watched :=
  (event.run w.state).map fun (t, effects) =>
    { state := t
      told := fun k => (if begins w.state event k then [] else w.told k) ++ toldTo k (commandsOf effects) }

theorem update_keyed (run : update host s a = some (t, effects)) (keyed : Keyed (cardsOf s.peers)) :
    Keyed (cardsOf t.peers) :=
  (update_records run []).preserves (fun c => Keyed c.cards) (fun _ _ _ _ move before => move.keyed before) keyed

structure Watched.Told (w : Watched) : Prop where
  keyed : Keyed (cardsOf w.state.peers)
  follows : ∀ k peer, w.state.peers.lookup k = some peer → Follows .choke (w.told k) peer.amChoking

theorem Watched.told_next {before after : Watched} (step : before.next event = some after) (told : before.Told) :
    after.Told := by
  obtain ⟨⟨t, effects⟩, run, rfl⟩ := map_eq_some_iff.mp step
  cases event with
  | handle host a =>
    refine ⟨update_keyed run told.keyed, fun k peer found => ?_⟩
    have follows := update_follows told.keyed run found
    dsimp only
    split_ifs at follows with starts
    · rw [if_pos starts]
      exact follows
    · obtain ⟨old, foundOld, follows⟩ := follows
      rw [if_neg starts]
      exact (told.follows k old foundOld).trans follows
  | recountRarity =>
    cases run
    refine ⟨told.keyed, fun k peer found => ?_⟩
    have follows := told.follows k peer found
    simpa [begins] using follows

/-- The actions that recalculate whom to unchoke, in the states in which they do. -/
def Recalculates (s : TorrentState) (a : Action) : Prop :=
  a.rechokes = true ∧ ((∃ completed, a = .validationComplete completed) → s.torrentStatus = .validating)

theorem recalculateChokes_few (keyed : Keyed (cardsOf s.peers)) (host : Host) (seed : ℕ) :
    FewUnchoked (cardsOf (s.recalculateChokes host seed).1.peers) :=
  (recalculateChokes_move seed []).fewUnchoked keyed

/-- Adopting what validation found ends with a recalculation, after which only work is handed out. -/
theorem validationComplete_few (validating : s.torrentStatus = .validating)
    (run : s.validationComplete host completed = some (t, effects)) (keyed : Keyed (cardsOf s.peers)) :
    FewUnchoked (cardsOf t.peers) := by
  rw [validationComplete, if_neg (not_not.mpr validating)] at run
  obtain ⟨u, adopted, run⟩ := bind_eq_some_iff.mp run
  obtain ⟨v, _, _, announced, run, -⟩ := andThen_eq_some.mp run
  obtain ⟨w, _, _, checked, run, -⟩ := andThen_eq_some.mp run
  obtain ⟨x, _, _, rechoked, assigned, -⟩ := andThen_eq_some.mp run
  have same : cardsOf w.peers = cardsOf s.peers := by
    have announcedSame :=
      (Frame.of_result (unrecorded_of_aside (aside_of_idle (announceValidated_idle completed))) announced).same
    have whole := ((unrecorded_of_aside (checkCompletion_aside checked)).same.trans announcedSame).trans
      (adoptValidation_standing adopted)
    exact congrArg Standing.cards whole
  cases rechoked
  have later : cardsOf t.peers = _ := congrArg Standing.cards (unrecorded_of_aside (assignAll_aside assigned)).same
  rw [later]
  refine recalculateChokes_few ?_ (host.sub 2) (u64 host.elapsedNanos)
  rwa [same]

theorem update_few (recalculates : Recalculates s a) (run : update host s a = some (t, effects))
    (keyed : Keyed (cardsOf s.peers)) : FewUnchoked (cardsOf t.peers) := by
  obtain ⟨rechokes, validating⟩ := recalculates
  cases a with
  | recalculateChokes seed =>
    cases run
    exact recalculateChokes_few keyed host seed
  | setDataAvailability available =>
    cases run
    have few := recalculateChokes_few (s := { s with dataAvailable := available }) keyed host 0
    exact few
  | validationComplete completed => exact validationComplete_few (validating ⟨completed, rfl⟩) run keyed
  | _ => cases rechokes

theorem length_unchoked_cardsOf (peers : AList fun _ : PeerId => PeerState) :
    ((cardsOf peers).entries.filter fun entry => entry.2.amChoking = .unchoke).length =
      (peers.entries.filter fun entry => entry.2.amChoking = .unchoke).length := by
  rw [cardsOf, AList.mapVal, List.filter_map, List.length_map]
  rfl

/-- Along every run, what a peer has been told since its session began alternates, starting with an unchoke, and ends
with its flag; and after every recalculation at most five peers are unchoked, all of them interested. -/
theorem choke_commands_alternate {w : Watched} (run : ∃ start, Initial start ∧
      Steps (fun event before after => Watched.next before event = some after) (fun _ _ => True)
        ⟨start, fun _ => []⟩ w) :
    (∀ k peer, w.state.peers.lookup k = some peer →
        IsChain (· ≠ ·) (ChokeStatus.choke :: w.told k) ∧
          (ChokeStatus.choke :: w.told k).getLast? = some peer.amChoking) ∧
      ∀ host a t effects, Recalculates w.state a → update host w.state a = some (t, effects) →
        (t.peers.entries.filter fun entry => entry.2.amChoking = .unchoke).length ≤ 5 ∧
          ∀ k peer, t.peers.lookup k = some peer → peer.amChoking = .unchoke → peer.peerIsInterestedInUs = true := by
  obtain ⟨start, initial, steps⟩ := run
  have told : w.Told := by
    refine steps.preserves Watched.Told (fun _ _ _ _ step before => Watched.told_next step before) ?_
    obtain ⟨infoHash, trackers, validated, name, now, rfl⟩ := initial
    have nobody : ∀ k, (TorrentState.new infoHash trackers validated name now).peers.lookup k = none :=
      fun k => lookup_empty k
    refine ⟨fun k shown found => ?_, fun k peer found => ?_⟩
    · rw [lookup_cardsOf, nobody] at found
      cases found
    · rw [nobody] at found
      cases found
  refine ⟨told.follows, fun host a t effects recalculates update => ?_⟩
  obtain ⟨few, interested⟩ := update_few recalculates update told.keyed
  rw [length_unchoked_cardsOf] at few
  refine ⟨few, fun k peer found unchoked => interested k (card peer) ?_ unchoked⟩
  rw [lookup_cardsOf, found, map_some]

namespace TwoSessions

def events : List Event :=
  [.handle {} (.registerPeer "a" none), .handle {} (.peerInterested "a"), .handle {} (.setDataAvailability false),
    .handle {} (.setDataAvailability true), .handle {} (.peerDisconnected "a" false),
    .handle {} (.registerPeer "a" none), .handle {} (.peerInterested "a")]

end TwoSessions

open TwoSessions in
/-- The second session of a peer starts choked again, and its one command is an unchoke. -/
theorem second_session_unchoked : ∃ w : Watched, w.told "a" = [.unchoke] ∧
    ∀ peer, w.state.peers.lookup "a" = some peer → peer.amChoking = .unchoke := by
  obtain ⟨w, steps, history⟩ := Steps.exists_replay (fun _ _ => True) Watched.next (fun _ _ => true) events
    ⟨emptyState, fun _ => []⟩ (fun w => w.told "a" = [.unchoke]) (fun _ _ _ _ => trivial) (by decide +kernel)
  refine ⟨w, history, fun peer found => ?_⟩
  have alternates := ((choke_commands_alternate ⟨emptyState, ⟨_, _, _, _, _, rfl⟩, steps⟩).1 "a" peer found).2
  rw [history] at alternates
  exact (some.inj alternates).symm

end Superseedr
