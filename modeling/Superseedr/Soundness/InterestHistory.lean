import Superseedr.Model.Session
import Superseedr.Soundness.ChokeHistory

/-! # What a peer says about its interest

Every session of a peer starts without interest, and the flag is set when the peer says that it is interested. The
session does not pass on that the peer is no longer interested, so the flag is what the peer said last only as
long as no peer withdraws its interest.
-/

namespace Superseedr

open Ledger List Option Function

variable {peer : PeerState} {actions : List Action} {s t : TorrentState} {k : PeerId} {action : Action}
  {hosts : ℕ → Host} {expected : Bool}

section Updates

open TorrentState

variable {host : Host} {a : Action} {effects : List Effect}

theorem peerInterested_interested (found : (s.peerInterested k).1.peers.lookup k = some peer) :
    peer.peerIsInterestedInUs = true := by
  dsimp only [peerInterested] at found
  split at found
  · rename_i absent
    rw [absent] at found
    cases found
  rename_i before present
  split_ifs at found
  all_goals
    rw [AList.lookup_modify_self, present, map_some] at found
    rw [← some.inj found]

theorem update_keeps_interest (run : update host s a = some (t, effects)) (silent : a ≠ .peerInterested k)
    (goesOn : begins s (.handle host a) k = false) (found : t.peers.lookup k = some peer) :
    ∃ before, s.peers.lookup k = some before ∧ peer.peerIsInterestedInUs = before.peerIsInterestedInUs := by
  by_cases registers : ∃ addr, a = .registerPeer k addr
  · obtain ⟨addr, rfl⟩ := registers
    simp only [begins, decide_true, Bool.true_and, Bool.or_eq_false_iff, decide_eq_false_iff_not, not_not] at goesOn
    exact ⟨peer, (registerPeer_lookup goesOn.1 goesOn.2 run).symm.trans found, rfl⟩
  · obtain ⟨before, foundBefore, -, same⟩ := (update_records run).traces (fun _ permits => registers permits) found
    exact ⟨before, foundBefore, same fun _ => ⟨fun permits => silent permits, fun permits => silent permits⟩⟩

end Updates

/-- A message about the interest of its sender. -/
def Message.tellsInterest : Message → Bool
  | .interested | .notInterested => true
  | _ => false

def lastInterest (heard : List Message) : Option Message := (heard.filter Message.tellsInterest).getLast?

theorem lastInterest_append (heard : List Message) (message : Message) :
    lastInterest (heard ++ [message]) = if message.tellsInterest then some message else lastInterest heard := by
  rw [lastInterest, filter_append]
  split_ifs with tells
  · rw [filter_cons_of_pos tells, filter_nil, getLast?_concat]
  · rw [filter_cons_of_neg tells, filter_nil, append_nil, lastInterest]

/-- The torrent state with what every peer has said since its session began. -/
structure Heard where
  state : TorrentState
  heard : PeerId → List Message

/-- A message arrives at the session of a peer, or anything else happens. -/
inductive Input where
  | message (k : PeerId) (message : Message) (expected : Bool) (hosts : ℕ → Host)
  | other (event : Event)

/-- The manager handles actions one after the other. -/
def runActions (hosts : ℕ → Host) : List Action → TorrentState → Option TorrentState
  | [], s => some s
  | action :: rest, s => (update (hosts 0) s action).bind fun (t, _) => runActions (fun i => hosts (i + 1)) rest t

/-- Only the session of a peer says that the peer is interested. -/
def Event.isInterest : Event → Bool
  | .handle _ (.peerInterested _) => true
  | _ => false

def Heard.next (w : Heard) : Input → Option Heard
  | .message k message expected hosts =>
    let heard := Function.update w.heard k (w.heard k ++ [message])
    match message.command expected with
    | none => some { w with heard }
    | some command => (command.actions w.state k).bind fun actions =>
      (runActions hosts actions w.state).map fun state => { state, heard }
  | .other event =>
    if event.isInterest then none
    else (event.run w.state).map fun (state, _) =>
      { state, heard := fun k => if begins w.state event k then [] else w.heard k }

/-- No peer withdraws its interest. -/
def Heard.Steady (w : Heard) : Input → Prop
  | .message k .notInterested _ _ => lastInterest (w.heard k) ≠ some .interested
  | _ => True

def Heard.Tracked (w : Heard) : Prop :=
  ∀ k peer, w.state.peers.lookup k = some peer →
    (peer.peerIsInterestedInUs = true ↔ lastInterest (w.heard k) = some .interested)

theorem SessionCommand.actions_silent {command : SessionCommand} (dispatched : command.actions s k = some actions)
    (listed : action ∈ actions) :
    (∀ host t j, begins t (.handle host action) j = false) ∧
      ((∃ j, action = .peerInterested j) → command = .peerInterested) := by
  cases command with
  | merkleHashData root pieceIndex baseLayer proof =>
    simp only [SessionCommand.actions, TorrentState.merkleHashData] at dispatched
    split at dispatched
    · cases dispatched
      cases listed
    split_ifs at dispatched
    cases dispatched
    obtain ⟨p, -, rfl⟩ := mem_map.mp listed
    exact ⟨fun _ _ _ => rfl, nofun⟩
  | getHashes =>
    cases dispatched
    cases listed
  | peerInterested =>
    cases dispatched
    obtain rfl := mem_singleton.mp listed
    exact ⟨fun _ _ _ => rfl, fun _ => rfl⟩
  | _ =>
    cases dispatched
    obtain rfl := mem_singleton.mp listed
    exact ⟨fun _ _ _ => rfl, nofun⟩

theorem runActions_keeps_interest (run : runActions hosts actions s = some t) (silent : .peerInterested k ∉ actions)
    (goesOn : ∀ action ∈ actions, ∀ host s, begins s (.handle host action) k = false)
    (found : t.peers.lookup k = some peer) :
    ∃ before, s.peers.lookup k = some before ∧ peer.peerIsInterestedInUs = before.peerIsInterestedInUs := by
  induction actions generalizing hosts s with
  | nil =>
    cases run
    exact ⟨peer, found, rfl⟩
  | cons action rest ih =>
    obtain ⟨⟨u, effects⟩, first, later⟩ := bind_eq_some_iff.mp run
    rw [mem_cons, not_or] at silent
    obtain ⟨middle, foundMiddle, same⟩ := ih later silent.2 fun other member => goesOn other (.tail action member)
    obtain ⟨before, foundBefore, equal⟩ :=
      update_keeps_interest first (Ne.symm silent.1) (goesOn action mem_cons_self _ s) foundMiddle
    exact ⟨before, foundBefore, same.trans equal⟩

theorem Heard.tracked_command {w : Heard} {message : Message} {command : SessionCommand} (tracked : w.Tracked)
    (sent : message.command expected = some command) (dispatched : command.actions w.state k = some actions)
    (run : runActions hosts actions w.state = some t) :
    Heard.Tracked ⟨t, Function.update w.heard k (w.heard k ++ [message])⟩ := by
  intro j peer found
  have goesOn : ∀ action ∈ actions, ∀ host s, begins s (.handle host action) j = false :=
    fun action listed host s => (SessionCommand.actions_silent dispatched listed).1 host s j
  by_cases speaks : command = .peerInterested
  · have said : message = .interested := by
      cases message <;> simp_all [Message.command]
    obtain rfl : actions = [.peerInterested k] := by
      subst speaks
      exact (some.inj dispatched).symm
    subst said
    rcases eq_or_ne j k with rfl | same
    · obtain ⟨⟨u, effects⟩, first, later⟩ := bind_eq_some_iff.mp run
      obtain rfl := some.inj later
      obtain rfl : (w.state.peerInterested j).1 = u := congrArg Prod.fst (some.inj first)
      dsimp only
      rw [update_self, lastInterest_append]
      exact iff_of_true (peerInterested_interested found) rfl
    have silent : Action.peerInterested j ∉ [Action.peerInterested k] := by
      rw [mem_singleton]
      exact fun equal => same (Action.peerInterested.inj equal)
    obtain ⟨before, foundBefore, equal⟩ := runActions_keeps_interest run silent goesOn found
    dsimp only
    rw [update_of_ne same, equal]
    exact tracked j before foundBefore
  · have silent : Action.peerInterested j ∉ actions := fun listed =>
      speaks ((SessionCommand.actions_silent dispatched listed).2 ⟨j, rfl⟩)
    obtain ⟨before, foundBefore, equal⟩ := runActions_keeps_interest run silent goesOn found
    have quiet : message.tellsInterest = false := by
      cases message <;> simp_all [Message.command, Message.tellsInterest]
    have same : lastInterest (Function.update w.heard k (w.heard k ++ [message]) j) = lastInterest (w.heard j) := by
      rcases eq_or_ne j k with rfl | own
      · rw [update_self, lastInterest_append, quiet, if_neg Bool.false_ne_true]
      · rw [update_of_ne own]
    rw [same, equal]
    exact tracked j before foundBefore

variable {input : Input}

theorem Heard.tracked_next {w u : Heard} (tracked : w.Tracked) (steady : w.Steady input)
    (step : w.next input = some u) : u.Tracked := by
  cases input with
  | message k message expected hosts =>
    dsimp only [Heard.next] at step
    split at step
    · rename_i unsaid
      cases step
      intro j peer found
      rcases eq_or_ne j k with rfl | own
      · dsimp only
        rw [update_self, lastInterest_append]
        split_ifs with tells
        · -- The peer says that it is not interested, and the flag was not set.
          have withdrawn : message = .notInterested := by
            cases message <;> simp_all [Message.command, Message.tellsInterest]
          subst withdrawn
          have before := tracked j peer found
          refine iff_of_false (fun flag => steady (before.mp flag)) (by decide)
        · exact tracked j peer found
      · dsimp only
        rw [update_of_ne own]
        exact tracked j peer found
    · rename_i command sent
      obtain ⟨actions, dispatched, step⟩ := bind_eq_some_iff.mp step
      obtain ⟨t, run, rfl⟩ := map_eq_some_iff.mp step
      exact Heard.tracked_command tracked sent dispatched run
  | other event =>
    dsimp only [Heard.next] at step
    split_ifs at step with isInterest
    obtain ⟨⟨t, effects⟩, run, rfl⟩ := map_eq_some_iff.mp step
    cases event with
    | recountRarity =>
      cases run
      intro k peer found
      exact tracked k peer found
    | handle host a =>
      intro k peer found
      dsimp only
      by_cases starts : begins w.state (.handle host a) k = true
      · rw [if_pos starts]
        refine iff_of_false ?_ (by decide)
        cases a with
        | registerPeer j addr =>
          simp only [begins, Bool.and_eq_true, Bool.or_eq_true, decide_eq_true_eq] at starts
          obtain ⟨rfl, ended⟩ := starts
          rw [(registerPeer_fresh ended run found).2.1]
          exact Bool.false_ne_true
        | _ => cases starts
      · rw [if_neg starts]
        have silent : a ≠ .peerInterested k := by
          rintro rfl
          exact isInterest rfl
        obtain ⟨before, foundBefore, equal⟩ := update_keeps_interest run silent (Bool.of_not_eq_true starts) found
        rw [equal]
        exact tracked k before foundBefore

/-- As long as no peer withdraws its interest, the flag of every registered peer tells what it said last. -/
theorem interest_tracked {w : Heard} (run : ∃ start, Initial start ∧
      Steps (fun input before after => Heard.next before input = some after) Heard.Steady ⟨start, fun _ => []⟩ w) :
    ∀ k peer, w.state.peers.lookup k = some peer →
      (peer.peerIsInterestedInUs = true ↔ lastInterest (w.heard k) = some .interested) := by
  obtain ⟨start, initial, steps⟩ := run
  refine steps.preserves Heard.Tracked (fun _ _ _ steady step before => Heard.tracked_next before steady step) ?_
  obtain ⟨infoHash, trackers, validated, name, now, rfl⟩ := initial
  intro k peer found
  have nobody : (TorrentState.new infoHash trackers validated name now).peers.lookup k = none := AList.lookup_empty k
  rw [nobody] at found
  cases found

def connecting : List Input := [.other (.handle {} (.registerPeer "a" none))]

def saying (message : Message) : Input := .message "a" message false fun _ => {}

/-- A peer that has withdrawn its interest still counts as interested. -/
theorem withdrawn_interest_kept : ∃ w : Heard,
    Steps (fun input before after => Heard.next before input = some after) (fun _ _ => True)
        ⟨emptyState, fun _ => []⟩ w ∧ lastInterest (w.heard "a") = some .notInterested ∧
      (w.state.peers.lookup "a").any (fun peer => peer.peerIsInterestedInUs) = true := by
  exact Steps.exists_replay (fun _ _ => True) Heard.next (fun _ _ => true)
    (connecting ++ [saying .interested, saying .notInterested]) ⟨emptyState, fun _ => []⟩
    (fun w => lastInterest (w.heard "a") = some .notInterested ∧
      (w.state.peers.lookup "a").any (fun peer => peer.peerIsInterestedInUs) = true) (fun _ _ _ _ => trivial)
    (by decide +kernel)

instance (w : Heard) (input : Input) : Decidable (w.Steady input) := by
  unfold Heard.Steady
  split <;> infer_instance

/-- A peer that was not interested at first and then is counts as interested. -/
theorem interest_tracked_gained : ∃ w : Heard, lastInterest (w.heard "a") = some .interested ∧
    ∀ peer, w.state.peers.lookup "a" = some peer →
      (peer.peerIsInterestedInUs = true ↔ lastInterest (w.heard "a") = some .interested) := by
  obtain ⟨w, steps, reached⟩ := Steps.exists_replay Heard.Steady Heard.next (fun w input => decide (w.Steady input))
    (connecting ++ [saying .notInterested, saying .interested]) ⟨emptyState, fun _ => []⟩
    (fun w => lastInterest (w.heard "a") = some .interested) (fun _ _ _ => of_decide_eq_true) (by decide +kernel)
  refine ⟨w, reached, fun peer found => ?_⟩
  exact interest_tracked ⟨emptyState, ⟨_, _, _, _, _, rfl⟩, steps⟩ "a" peer found

end Superseedr
