import Superseedr.Soundness.ChokeHistory
import Superseedr.Soundness.PieceConservation
import Superseedr.Soundness.SessionWindow

/-! # What a manager and a session take to be outstanding

The manager and the session of a peer are joined by two queues. The manager counts the blocks it has requested of the
peer and has not received; each of them is in a command or a task that has not come to it, is tracked by the session,
or is on its way back. This agreement lasts as long as neither side drops a request behind the back of the other: the
session does so when a permit does not come in time, the writer is gone, the peer chokes or a cancellation meets a
tracked block, and the queue to the session does so when it is full. A block that comes late makes the manager
count one request too few.
-/

namespace Superseedr

variable {p offset i : ℕ} {data : Bytes} {others : List RequestTask} {progress : Progress} {task later : RequestTask}
  {message : Message} {event : PeerSession.Event} {k : PeerId} {effects : List Effect} {b : BlockRequest}
  {t s : TorrentState} {commands : List TorrentCommand}

namespace Scheduler

def Counted (k : PeerId) (known : Finset BlockRequest) (c : Core) : Prop :=
  ∀ peer, c.peers k = some peer → peer.inflight = peer.active.card ∧
    ∀ b ∈ peer.active, b.1 < c.pm.bitfield.length ∧ (b ∈ known ∨ (k, b) ∈ c.sent)

def KeepsActive (k : PeerId) (c d : Core) : Prop :=
  ∀ peer, d.peers k = some peer → (peer.inflight = 0 ∧ peer.active = ∅) ∨
    ∃ before, c.peers k = some before ∧ peer.inflight = before.inflight ∧ peer.active = before.active

variable {c d : Core} {label : Label} {known : Finset BlockRequest}

theorem Move.keepsActive (move : Move label c d) (asks : ∀ b, label ≠ .request k b)
    (delivers : ∀ b, label ≠ .deliver k b) : KeepsActive k c d := by
  -- another peer may change in any way
  let kept (j : PeerId) (peer : PeerView) : Prop := j = k → (peer.inflight = 0 ∧ peer.active = ∅) ∨
    ∃ before, c.peers k = some before ∧ peer.inflight = before.inflight ∧ peer.active = before.active
  have before : ∀ j peer, c.peers j = some peer → kept j peer := by
    rintro j peer found rfl
    exact .inr ⟨peer, found, rfl, rfl⟩
  suffices each : ∀ j peer, d.peers j = some peer → kept j peer from fun peer found => each k peer found rfl
  cases move with
  | assign | drop | forget | unchoke | advertise => exact each_adjust before fun _ _ same => same
  | choke => exact each_adjust before fun _ _ _ _ => .inl ⟨rfl, rfl⟩
  | load | adopt => exact each_adjustAll before fun _ _ _ same => same
  | finish => exact each_adjustAll before fun _ _ _ _ _ => .inl ⟨rfl, rfl⟩
  | @request _ j b => exact each_adjust before fun _ _ _ same => absurd (by rw [same]) (asks b)
  | @deliver _ j b => exact each_adjust before fun _ _ _ same => absurd (by rw [same]) (delivers b)
  | register =>
    refine each_update before fun peer fresh _ => ?_
    cases fresh
    exact .inl ⟨rfl, rfl⟩
  | unregister => exact each_update before fun _ => nofun
  | wipe => exact fun _ _ => nofun
  | _ => exact before

theorem Counted.move (counted : Counted k known c) (sound : Sound c) (move : Move label c d)
    (delivers : ∀ b, label ≠ .deliver k b) : Counted k known d := by
  by_cases asks : ∃ b, label = .request k b
  · obtain ⟨b, rfl⟩ := asks
    cases move with
    | @request _ _ _ peer found listening asked idle =>
      intro after foundAfter
      simp only [Core.adjust, Function.update_self, found, Option.map_some] at foundAfter
      cases foundAfter
      obtain ⟨count, each⟩ := counted peer found
      refine ⟨by rw [Finset.card_insert_of_notMem idle, count], fun b' member => ?_⟩
      rcases Finset.mem_insert.mp member with rfl | earlier
      · exact ⟨sound.inside k b'.1 ⟨peer, found, asked⟩, .inr (List.mem_append_right _ (.head _))⟩
      · exact ⟨(each b' earlier).1, (each b' earlier).2.imp id (List.mem_append_left _)⟩
  · rw [not_exists] at asks
    have sent : ∀ request ∈ c.sent, request ∈ d.sent := by
      rcases move.sent with same | ⟨_, _, -, more⟩
      · exact fun request made => same ▸ made
      · exact fun request made => more ▸ List.mem_append_left _ made
    intro peer found
    rcases move.keepsActive asks delivers peer found with ⟨none, nothing⟩ | ⟨before, foundBefore, same, kept⟩
    · simp [none, nothing]
    obtain ⟨count, each⟩ := counted before foundBefore
    rw [same, kept]
    refine ⟨count, fun b member => ⟨?_, (each b member).2.imp id (sent _)⟩⟩
    by_cases loads : ∃ torrent, label = .load torrent
    · obtain ⟨torrent, rfl⟩ := loads
      have inside := (each b member).1
      cases move with
      | load unloaded => simp [sound.unloaded unloaded] at inside
    · rw [move.length_bitfield sound.consistent (not_exists.mp loads)]
      exact (each b member).1

/-- A block that was outstanding, or came when nothing was, is counted. -/
theorem Counted.deliver (counted : Counted k known c) (move : Move (.deliver k b) c d)
    (expected : ∀ peer, c.peers k = some peer → b ∈ peer.active ∨ peer.active = ∅) : Counted k (known.erase b) d := by
  cases move with
  | deliver =>
    intro after found
    simp only [Core.adjust, Function.update_self, Option.map_eq_some_iff] at found
    obtain ⟨peer, found, rfl⟩ := found
    obtain ⟨count, each⟩ := counted peer found
    refine ⟨?_, fun b' member => ?_⟩
    · rcases expected peer found with active | nothing
      · rw [Finset.card_erase_of_mem active, count]
      · rw [count, nothing, Finset.erase_empty, Finset.card_empty]
    · obtain ⟨differ, earlier⟩ := Finset.mem_erase.mp member
      exact ⟨(each b' earlier).1, (each b' earlier).2.imp (fun old => Finset.mem_erase.mpr ⟨differ, old⟩) id⟩

end Scheduler

open Scheduler List SessionCommand EmittingStep

section Updates

variable {host : Host} {a : Action} {known : Finset BlockRequest} {sent : List (PeerId × BlockRequest)}

theorem update_counts (small : (Event.handle host a).Addressable)
    (quiet : ∀ p offset data, a ≠ .incomingBlock k p offset data) (run : update host s a = some (t, effects))
    (sound : Sound (abs s sent ∅)) (counted : Counted k known (abs s sent ∅)) :
    Sound (abs t (sent ++ requestsOf effects) ∅) ∧ Counted k known (abs t (sent ++ requestsOf effects) ∅) := by
  refine (update_simulates run sent).preserves (fun c => Sound c ∧ Counted k known c) ?_ ⟨sound, counted⟩
  rintro c d label permits move ⟨sound, counted⟩
  refine ⟨sound.move (permits.addressable small) move, counted.move sound move ?_⟩
  rintro b rfl
  obtain ⟨data, same, -⟩ := permits
  exact quiet _ _ _ same

theorem incomingBlock_counts (run : update host s (.incomingBlock k p offset data) = some (t, effects))
    (sound : Sound (abs s [] ∅)) (expected : ∀ peer, s.peers.lookup k = some peer →
      blockOf p offset data ∈ peer.activeBlocks ∨ peer.activeBlocks = ∅) (counted : Counted k known (abs s [] ∅)) :
    Sound (abs t (requestsOf effects) ∅) ∧
      Counted k (known.erase (blockOf p offset data)) (abs t (requestsOf effects) ∅) := by
  have expectedView : ∀ peer, (abs s [] ∅).peers k = some peer →
      blockOf p offset data ∈ peer.active ∨ peer.active = ∅ := by
    intro seen found
    obtain ⟨peer, registered, rfl⟩ := Option.map_eq_some_iff.mp found
    exact expected peer registered
  obtain ⟨c, first, rest⟩ := update_after_delivery run
  refine rest.preserves (fun c => Sound c ∧ Counted k (known.erase (blockOf p offset data)) c) ?_ ?_
  · rintro c d label ⟨permits, delivers⟩ move ⟨sound, counted⟩
    exact ⟨sound.move (permits.addressable trivial) move, counted.move sound move (delivers k)⟩
  · rcases first with ⟨rfl, outside⟩ | ⟨_, ⟨_, _, _⟩, ⟨_, ⟨⟩, rfl⟩, delivery⟩
    · -- Nothing is requested of a piece that does not exist, so nothing was outstanding.
      refine ⟨sound, fun peer found => ?_⟩
      rcases expectedView peer found with active | nothing
      · exact absurd ((counted peer found).2 _ active).1 (not_lt.mpr (outside _ _ _ _ rfl))
      · obtain ⟨count, -⟩ := counted peer found
        rw [nothing] at count ⊢
        exact ⟨count, fun b member => absurd member (Finset.notMem_empty b)⟩
    · refine ⟨sound.move ?_ delivery, counted.deliver delivery expectedView⟩
      exact trivial

end Updates

def TorrentCommand.requests : TorrentCommand → List BlockRequest
  | .bulkRequest blocks => blocks
  | .peerChoke | .peerUnchoke | .clientInterested | .notInterested | .bulkCancel _ => []

def SessionCommand.delivers : SessionCommand → Option BlockRequest
  | .block index begin data => some (blockOf index begin data)
  | _ => none

def RequestTask.upcoming : RequestTask → List BlockRequest
  | .waiting requests => requests
  | .granted request rest => request :: rest
  | .sending _ rest => rest
  | .failed _ | .finished => []

namespace PeerSession

def Carries (s : PeerSession) (b : BlockRequest) : Prop :=
  (∃ task ∈ s.requestTasks, b ∈ task.upcoming) ∨ b ∈ s.blockTracker

instance (s : PeerSession) (b : BlockRequest) : Decidable (s.Carries b) :=
  inferInstanceAs (Decidable ((∃ task ∈ s.requestTasks, b ∈ task.upcoming) ∨ b ∈ s.blockTracker))

/-- No permit comes too late, the writer is there, the peer chokes only when nothing is tracked, and nothing that is
tracked is cancelled. -/
def Patient (s : PeerSession) : Event → Prop
  | .message .choke => s.blockTracker = ∅
  | .task _ progress => progress = .acquire ∨ progress = .track ∨ progress = .sent
  | .cancel i => ∀ cancels ∈ s.cancelTasks[i]?, ∀ b ∈ cancels, b ∉ s.blockTracker
  | _ => True

variable {s t : PeerSession} {told : Option SessionCommand}

theorem Carries.of_eq (carries : s.Carries b) (tasks : t.requestTasks = s.requestTasks)
    (tracker : t.blockTracker = s.blockTracker) : t.Carries b := by
  rwa [Carries, tasks, tracker]

theorem carries_cons (same : s.requestTasks.Perm (task :: others)) :
    s.Carries b ↔ b ∈ task.upcoming ∨ (∃ other ∈ others, b ∈ other.upcoming) ∨ b ∈ s.blockTracker := by
  have members : (∃ task ∈ s.requestTasks, b ∈ task.upcoming) ↔
      b ∈ task.upcoming ∨ ∃ other ∈ others, b ∈ other.upcoming := by
    simp only [same.mem_iff, mem_cons, exists_eq_or_imp]
  rw [Carries, members, or_assoc]

theorem upcoming_advance (patient : progress = .acquire ∨ progress = .track ∨ progress = .sent)
    (step : s.advance task progress = some (t, later)) :
    s.blockTracker ⊆ t.blockTracker ∧ ∀ b ∈ task.upcoming, b ∈ later.upcoming ∨ b ∈ t.blockTracker := by
  unfold PeerSession.advance at step
  split at step
  · split_ifs at step
    cases step
    exact ⟨subset_rfl, fun b member => .inl member⟩
  · simp at patient
  · cases step
    refine ⟨Finset.subset_insert .., fun b member => ?_⟩
    rcases mem_cons.mp member with rfl | member
    · exact .inr (Finset.mem_insert_self ..)
    · exact .inl member
  · cases step
    exact ⟨subset_rfl, fun b member => .inl member⟩
  · simp at patient
  · simp at patient
  · cases step

theorem Carries.advanceTask (carries : s.Carries b)
    (patient : progress = .acquire ∨ progress = .track ∨ progress = .sent) (step : s.advanceTask i progress = some t) :
    t.Carries b := by
  obtain ⟨task, place, step⟩ := Option.bind_eq_some_iff.mp step
  obtain ⟨⟨u, later⟩, advanced, rfl⟩ := Option.map_eq_some_iff.mp step
  obtain ⟨others, front, back⟩ := perm_set place
  obtain ⟨grows, each⟩ := upcoming_advance patient advanced
  have after : (u.requestTasks.set i later).Perm (later :: others) := by
    rw [requestTasks_advance advanced]
    exact (back later).symm
  refine (carries_cons after).mpr ?_
  rcases (carries_cons front).mp carries with own | other | tracked
  · exact (each b own).imp id .inr
  · exact .inr (.inl other)
  · exact .inr (.inr (grows tracked))

/-- A message leaves the requests of a session, but for the block it brings. -/
theorem Carries.receive (carries : s.Carries b) (patient : s.Patient (.message message)) :
    (s.receive message).1.Carries b ∨ (s.receive message).2.bind delivers = some b := by
  unfold PeerSession.receive
  split
  · rename_i index begin data
    dsimp only
    by_cases expected : blockOf index.toNat begin.toNat data ∈ s.blockTracker
    · rw [decide_eq_true expected, if_pos rfl]
      by_cases same : b = blockOf index.toNat begin.toNat data
      · exact .inr (same ▸ rfl)
      refine .inl ?_
      unfold PeerSession.takeBlock
      dsimp only
      have kept := carries.imp id fun tracked => Finset.mem_erase.mpr ⟨same, tracked⟩
      split_ifs
      · exact kept
      · exact kept
    · rw [decide_eq_false expected, if_neg Bool.false_ne_true]
      exact .inl carries
  · refine .inl (carries.of_eq rfl ?_)
    exact (show s.blockTracker = ∅ from patient).symm
  · exact .inl carries

theorem Carries.adjustWindowSize (carries : s.Carries b) (change : SpeedChange) :
    (s.adjustWindowSize change).Carries b := by
  have shrinks : s.shrinkWindow.Carries b := by
    unfold PeerSession.shrinkWindow
    dsimp only
    split_ifs <;> exact carries
  unfold PeerSession.adjustWindowSize
  split
  · cases change with
    | faster =>
      dsimp only
      split <;> exact carries
    | slower => exact shrinks
    | similar => exact carries
  · split
    · exact shrinks
    · exact carries

theorem Carries.next (carries : s.Carries b) (patient : s.Patient event) (step : s.next event = some (t, told)) :
    t.Carries b ∨ told.bind delivers = some b := by
  cases event with
  | command command =>
    cases step
    refine .inl ?_
    cases command with
    | bulkRequest requests =>
      exact carries.imp (fun ⟨task, listed, member⟩ => ⟨task, mem_append_left _ listed, member⟩) id
    | bulkCancel | peerChoke | peerUnchoke | clientInterested | notInterested => exact carries
  | message message =>
    obtain same := Option.some.inj step
    have received := carries.receive patient
    rwa [same] at received
  | task i progress =>
    obtain ⟨u, advanced, same⟩ := Option.map_eq_some_iff.mp step
    cases same
    exact .inl (carries.advanceTask patient advanced)
  | cancel i =>
    obtain ⟨cancels, place, same⟩ := Option.map_eq_some_iff.mp step
    cases same
    refine .inl (carries.imp id fun tracked => Finset.mem_sdiff.mpr ⟨tracked, fun cancelled => ?_⟩)
    exact patient cancels place b (mem_toFinset.mp (Finset.mem_inter.mp cancelled).1) tracked
  | adjust change =>
    cases step
    exact .inl (carries.adjustWindowSize change)

end PeerSession

/-- The torrent, the session of one peer, and the queues between them. -/
structure Coupled where
  state : TorrentState
  session : PeerSession
  toSession : List TorrentCommand
  toManager : List SessionCommand

/-- An event that only the session of a peer causes. -/
def Event.isFrom (k : PeerId) : Event → Bool
  | .handle _ (.incomingBlock j _ _ _) | .handle _ (.peerChoked j) | .handle _ (.peerUnchoked j)
  | .handle _ (.peerInterested j) | .handle _ (.peerHavePiece j _) | .handle _ (.peerBitfieldReceived j _)
  | .handle _ (.requestUpload j _ _ _) | .handle _ (.cancelUpload j _ _ _)
  | .handle _ (.merkleProofReceived j _ _) => j = k
  | _ => false

/-- Commands come from the queue only. -/
def PeerSession.Event.isCommand : PeerSession.Event → Bool
  | .command _ => true
  | .message _ | .task _ _ | .cancel _ | .adjust _ => false

/-- The commands for a peer among effects, if it is still registered. -/
def commandsTo (k : PeerId) (t : TorrentState) (effects : List Effect) : List TorrentCommand :=
  if k ∈ t.peers then
    effects.filterMap fun
      | .sendToPeer j command => if j = k then some command else none
      | _ => none
  else []

def roomFor (accepted : ℕ → Bool) (commands : List TorrentCommand) : List TorrentCommand :=
  (commands.zipIdx.filter fun entry => accepted entry.2).map Prod.fst

namespace Coupled

inductive Input where
  /-- The manager handles something that does not come from the session. -/
  | manage (event : Event) (accepted : ℕ → Bool)
  /-- The manager handles the first command of the session. -/
  | handle (hosts : ℕ → Host) (accepted : ℕ → Bool)
  /-- The session takes the first command of the manager. -/
  | take
  /-- Something happens in the session; only blocks wait for room in the queue to the manager. -/
  | session (event : PeerSession.Event) (accepted : Bool)

def next (k : PeerId) (w : Coupled) : Input → Option Coupled
  | .manage event accepted =>
    if event.isFrom k then none
    else (event.run w.state).map fun (state, effects) =>
      let commands := roomFor accepted (commandsTo k state effects)
      if begins w.state event k then { w with state, session := .new, toSession := commands }
      else { w with state, toSession := w.toSession ++ commands }
  | .handle hosts accepted =>
    match w.toManager with
    | [] => none
    | command :: rest => (command.actions w.state k).bind fun actions =>
      (forEach actions (fun i a s => update (hosts i) s a) w.state).map fun (state, effects) =>
        { w with
          state
          toSession := w.toSession ++ roomFor accepted (commandsTo k state effects)
          toManager := rest }
  | .take =>
    match w.toSession with
    | [] => none
    | command :: rest => some { w with session := w.session.processManagerCommand command, toSession := rest }
  | .session event accepted =>
    if event.isCommand then none
    else (w.session.next event).map fun (session, told) =>
      { w with
        session
        toManager := w.toManager ++ told.toList.filter fun command => command.delivers.isSome || accepted }

/-- A block is between the manager and the peer: in a command or a task that has not come to it, tracked, or on its way
back. -/
def Outstanding (w : Coupled) (b : BlockRequest) : Prop :=
  (∃ command ∈ w.toSession, b ∈ command.requests) ∨ w.session.Carries b ∨
    ∃ command ∈ w.toManager, command.delivers = some b

instance (w : Coupled) (b : BlockRequest) : Decidable (w.Outstanding b) :=
  inferInstanceAs (Decidable ((∃ command ∈ w.toSession, b ∈ command.requests) ∨ w.session.Carries b ∨
    ∃ command ∈ w.toManager, command.delivers = some b))

/-- The queue to the session has room, the session is patient, and the manager gets no block that it does not expect
while it expects others. -/
def Lossless (k : PeerId) (w : Coupled) : Input → Prop
  | .manage event accepted => event.Addressable ∧ ∀ i, accepted i = true
  | .handle _ accepted => (∀ i, accepted i = true) ∧ ∀ b ∈ w.toManager.head?.bind delivers,
    ∀ peer ∈ w.state.peers.lookup k, b ∈ peer.activeBlocks ∨ peer.activeBlocks = ∅
  | .take => True
  | .session event _ => w.session.Patient event

structure Agreed (k : PeerId) (w : Coupled) : Prop where
  sound : Sound (abs w.state [] ∅)
  counted : ∀ peer, w.state.peers.lookup k = some peer → peer.inflightRequests = peer.activeBlocks.card ∧
    ∀ b ∈ peer.activeBlocks, b.1 < w.state.pieceManager.bitfield.length ∧ w.Outstanding b

end Coupled

variable {accepted : ℕ → Bool}

theorem roomFor_all (all : ∀ i, accepted i = true) (commands : List TorrentCommand) :
    roomFor accepted commands = commands := by
  rw [roomFor, filter_eq_self.mpr fun entry _ => all entry.2, zipIdx_map_fst]

theorem mem_commandsTo (registered : k ∈ t.peers) (requested : (k, b) ∈ requestsOf effects) :
    ∃ command ∈ commandsTo k t effects, b ∈ command.requests := by
  obtain ⟨blocks, emitted, member⟩ := mem_requestsOf.mp requested
  refine ⟨.bulkRequest blocks, ?_, member⟩
  rw [commandsTo, if_pos registered]
  exact mem_filterMap.mpr ⟨_, emitted, if_pos rfl⟩

theorem SessionCommand.actions_plain {command : SessionCommand} {actions : List Action}
    (nothing : command.delivers = none) (dispatched : command.actions s k = some actions) {action : Action}
    (listed : action ∈ actions) :
    (∀ host, (Event.handle host action).Addressable) ∧ ∀ p offset data, action ≠ .incomingBlock k p offset data := by
  cases command with
  | block => cases nothing
  | merkleHashData root pieceIndex baseLayer proof =>
    simp only [SessionCommand.actions, TorrentState.merkleHashData] at dispatched
    split at dispatched
    · cases dispatched
      cases listed
    split_ifs at dispatched
    cases dispatched
    obtain ⟨p, -, rfl⟩ := mem_map.mp listed
    exact ⟨fun _ => trivial, nofun⟩
  | getHashes =>
    cases dispatched
    cases listed
  | _ =>
    cases dispatched
    obtain rfl := mem_singleton.mp listed
    exact ⟨fun _ => trivial, nofun⟩

namespace Coupled

variable {w v : Coupled} {known : Finset BlockRequest}

def active (k : PeerId) (s : TorrentState) : Finset BlockRequest := (s.peers.lookup k).elim ∅ (·.activeBlocks)

theorem Agreed.of_counted (sound : Sound (abs w.state (requestsOf effects) ∅))
    (counted : Counted k known (abs w.state (requestsOf effects) ∅)) (kept : ∀ b ∈ known, w.Outstanding b)
    (told : ∀ command ∈ commandsTo k w.state effects, command ∈ w.toSession) : Agreed k w := by
  refine ⟨sound.of_abs [] ∅, fun peer registered => ?_⟩
  obtain ⟨count, each⟩ := counted (view peer) (peersView_of_lookup registered)
  refine ⟨count, fun b member => ⟨(each b member).1, ?_⟩⟩
  rcases (each b member).2 with old | requested
  · exact kept b old
  · obtain ⟨command, listed, among⟩ := mem_commandsTo (AList.mem_of_lookup_eq_some registered) requested
    exact .inl ⟨command, told command listed, among⟩

theorem Outstanding.told (outstanding : w.Outstanding b) :
    Outstanding { w with state := t, toSession := w.toSession ++ commands } b :=
  outstanding.imp (fun ⟨command, listed, member⟩ => ⟨command, mem_append_left _ listed, member⟩) id

variable (agreed : Agreed k w)
include agreed

theorem Agreed.counts : Counted k (active k w.state) (abs w.state [] ∅) := by
  intro seen found
  obtain ⟨peer, registered, rfl⟩ := Option.map_eq_some_iff.mp found
  obtain ⟨count, each⟩ := agreed.counted peer registered
  refine ⟨count, fun b member => ⟨(each b member).1, .inl ?_⟩⟩
  rwa [active, registered]

theorem Agreed.outstanding (member : b ∈ active k w.state) : w.Outstanding b := by
  cases registered : w.state.peers.lookup k with
  | none =>
    rw [active, registered] at member
    cases member
  | some peer =>
    rw [active, registered] at member
    exact ((agreed.counted peer registered).2 b member).2

/-- Blocks that move from one place to the next stay outstanding. -/
theorem Agreed.of_outstanding (state : v.state = w.state) (moves : ∀ b, w.Outstanding b → v.Outstanding b) :
    Agreed k v := by
  refine ⟨state ▸ agreed.sound, fun peer registered => ?_⟩
  rw [state] at registered ⊢
  obtain ⟨count, each⟩ := agreed.counted peer registered
  exact ⟨count, fun b member => ⟨(each b member).1, moves b (each b member).2⟩⟩

theorem Agreed.manage {event : Event} (lossless : Lossless k w (.manage event accepted))
    (step : w.next k (.manage event accepted) = some v) : Agreed k v := by
  obtain ⟨small, all⟩ := lossless
  dsimp only [next] at step
  split_ifs at step with own starts
  · obtain ⟨⟨t, effects⟩, run, rfl⟩ := Option.map_eq_some_iff.mp step
    cases event with
    | recountRarity => cases starts
    | handle host a =>
      cases a with
      | registerPeer j addr =>
        simp only [begins, Bool.and_eq_true, Bool.or_eq_true, decide_eq_true_eq] at starts
        obtain ⟨rfl, ended⟩ := starts
        refine ⟨update_sound small run agreed.sound, fun peer registered => ?_⟩
        obtain ⟨-, -, none, nothing⟩ := registerPeer_fresh ended run registered
        rw [none, nothing]
        exact ⟨rfl, fun b member => absurd member (Finset.notMem_empty b)⟩
      | _ => cases starts
  · obtain ⟨⟨t, effects⟩, run, rfl⟩ := Option.map_eq_some_iff.mp step
    suffices accounted : Sound (abs t (requestsOf effects) ∅) ∧
        Counted k (active k w.state) (abs t (requestsOf effects) ∅) by
      rw [roomFor_all all]
      exact Agreed.of_counted accounted.1 accounted.2 (fun b member => (agreed.outstanding member).told)
        fun command listed => mem_append_right _ listed
    cases event with
    | recountRarity =>
      cases run
      have move := updateRarity_move w.state
      have plain : Label.recount.Addressable := trivial
      refine ⟨agreed.sound.move plain move, agreed.counts.move agreed.sound move fun b delivers => ?_⟩
      cases delivers
    | handle host a =>
      refine update_counts small ?_ run agreed.sound agreed.counts
      rintro p offset data rfl
      exact own (decide_eq_true rfl)

theorem Agreed.handle {hosts : ℕ → Host} (lossless : Lossless k w (.handle hosts accepted))
    (step : w.next k (.handle hosts accepted) = some v) : Agreed k v := by
  obtain ⟨all, expected⟩ := lossless
  dsimp only [next] at step
  split at step
  · cases step
  rename_i command rest queue
  rw [queue, head?_cons, Option.bind_some] at expected
  obtain ⟨actions, dispatched, step⟩ := Option.bind_eq_some_iff.mp step
  obtain ⟨⟨t, effects⟩, run, rfl⟩ := Option.map_eq_some_iff.mp step
  rw [roomFor_all all]
  -- Only what the first command delivers is no longer outstanding.
  have kept : ∀ b, w.Outstanding b → command.delivers ≠ some b →
      Outstanding ⟨t, w.session, w.toSession ++ commandsTo k t effects, rest⟩ b := by
    rintro b (⟨other, listed, member⟩ | carried | ⟨other, listed, delivers⟩) stays
    · exact .inl ⟨other, mem_append_left _ listed, member⟩
    · exact .inr (.inl carried)
    · rw [queue] at listed
      rcases mem_cons.mp listed with rfl | listed
      · exact absurd delivers stays
      · exact .inr (.inr ⟨other, listed, delivers⟩)
  cases delivery : command.delivers with
  | none =>
    obtain ⟨sound, counted⟩ := forEachFrom_rule
      (R := fun s effects t => ∀ sent, Sound (abs s sent ∅) ∧ Counted k (active k w.state) (abs s sent ∅) →
        Sound (abs t (sent ++ requestsOf effects) ∅) ∧
          Counted k (active k w.state) (abs t (sent ++ requestsOf effects) ∅))
      (fun s sent before => by rwa [requestsOf_nil, append_nil])
      (fun first second sent start => by
        rw [requestsOf_append, ← append_assoc]
        exact second _ (first sent start))
      (fun i action s t effects listed run sent before => by
        obtain ⟨small, quiet⟩ := actions_plain delivery dispatched listed
        exact update_counts (small _) quiet run before.1 before.2) run [] ⟨agreed.sound, agreed.counts⟩
    exact Agreed.of_counted sound counted (fun b member => kept b (agreed.outstanding member) (by simp [delivery]))
      fun command listed => mem_append_right _ listed
  | some b =>
    cases command with
    | block index begin data =>
      cases dispatched
      obtain ⟨u, before, after, first, second, rfl⟩ := andThen_eq_some.mp run
      cases second
      rw [append_nil] at kept ⊢
      obtain ⟨sound, counted⟩ := incomingBlock_counts first agreed.sound (expected _ rfl) agreed.counts
      refine Agreed.of_counted sound counted (fun b member => ?_) fun command listed => mem_append_right _ listed
      obtain ⟨differ, member⟩ := Finset.mem_erase.mp member
      exact kept b (agreed.outstanding member) fun same => differ (Option.some.inj same).symm
    | _ => cases delivery

theorem Agreed.take (step : w.next k .take = some v) : Agreed k v := by
  dsimp only [next] at step
  split at step
  · cases step
  rename_i command rest queue
  cases step
  refine agreed.of_outstanding rfl ?_
  rintro b (⟨other, listed, member⟩ | carried | returning)
  · rw [queue] at listed
    rcases mem_cons.mp listed with rfl | listed
    · cases other with
      | bulkRequest blocks => exact .inr (.inl (.inl ⟨.waiting blocks, mem_append_right _ (.head _), member⟩))
      | _ => cases member
    · exact .inl ⟨other, listed, member⟩
  · have patient : w.session.Patient (.command command) := trivial
    rcases carried.next patient rfl with carried | told
    · exact .inr (.inl carried)
    · cases told
  · exact .inr (.inr returning)

theorem Agreed.session {accepted : Bool} (patient : w.session.Patient event)
    (step : w.next k (.session event accepted) = some v) : Agreed k v := by
  dsimp only [next] at step
  split_ifs at step
  obtain ⟨⟨session, told⟩, next, rfl⟩ := Option.map_eq_some_iff.mp step
  refine agreed.of_outstanding rfl ?_
  rintro b (queued | carried | ⟨command, listed, delivers⟩)
  · exact .inl queued
  · rcases carried.next patient next with carried | brings
    · exact .inr (.inl carried)
    · obtain ⟨command, rfl, delivers⟩ := Option.bind_eq_some_iff.mp brings
      refine .inr (.inr ⟨command, mem_append_right _ ?_, delivers⟩)
      simp [delivers]
  · exact .inr (.inr ⟨command, mem_append_left _ listed, delivers⟩)

variable {input : Coupled.Input}

theorem Agreed.next (lossless : Lossless k w input) (step : w.next k input = some v) : Agreed k v := by
  cases input with
  | manage event accepted => exact agreed.manage lossless step
  | handle hosts accepted => exact agreed.handle lossless step
  | take => exact agreed.take step
  | session event accepted => exact agreed.session lossless step

end Coupled

/-- As long as no request is dropped and no block comes late, the manager counts what it has requested of a peer, and
every such block is in a command or a task that has not come to it, tracked by the session, or on its way back. -/
theorem outstanding_agrees {w : Coupled}
    (run : ∃ start, Initial start ∧ Steps (fun input before after => Coupled.next k before input = some after)
      (Coupled.Lossless k) ⟨start, .new, [], []⟩ w) :
    ∀ peer, w.state.peers.lookup k = some peer →
      peer.inflightRequests = peer.activeBlocks.card ∧ ∀ b ∈ peer.activeBlocks, w.Outstanding b := by
  obtain ⟨start, initial, steps⟩ := run
  have agreed := steps.preserves (Coupled.Agreed k) (fun _ _ _ lossless step before => before.next lossless step) ?_
  · intro peer registered
    obtain ⟨count, each⟩ := agreed.counted peer registered
    exact ⟨count, fun b member => (each b member).2⟩
  refine ⟨sound_initial initial, fun peer registered => ?_⟩
  obtain ⟨infoHash, trackers, validated, name, now, rfl⟩ := initial
  have nobody : (TorrentState.new infoHash trackers validated name now).peers.lookup k = none := AList.lookup_empty k
  rw [nobody] at registered
  cases registered

namespace Coupled

/-- Nothing is dropped. -/
def anyway : ℕ → Bool := fun _ => true

def managing (events : List Event) : List Input := events.map fun event => .manage event anyway

def connected : List Input :=
  managing (downloadOf (plainTorrent 2) ++ [.handle {} (.registerPeer "a" none)]) ++
    [.session (.message (.bitfield [0xC0])) true, .handle (fun _ => {}) anyway]

def requested : List Input :=
  connected ++ [.session (.message .unchoke) true, .handle (fun _ => {}) anyway, .take, .take] ++
    (replicate 2
      [.session (.task 0 .acquire) true, .session (.task 0 .track) true, .session (.task 0 .sent) true]).flatten

def cancelled : List Input :=
  requested ++ managing (newPeer "b" [0xC0] ++
    [.handle {} (.incomingBlock "b" 0 0 [1, 2, 3, 4]), .handle {} (.pieceVerified "b" 0 true [1, 2, 3, 4]),
      .handle {} (.pieceWrittenToDisk "b" 0)]) ++ [.take, .session (.cancel 0) true]

def answered : List Input :=
  requested ++ [.session (.message (.piece 0 0 [1, 2, 3, 4])) true, .handle (fun _ => {}) anyway]

def expects (w : Coupled) : Bool :=
  decide (∀ b ∈ w.toManager.head?.bind delivers, ∀ peer ∈ w.state.peers.lookup "a",
    b ∈ peer.activeBlocks ∨ peer.activeBlocks = ∅)

end Coupled

open Coupled in
/-- A block that the session has cancelled stays active: nothing is going to bring it, and it counts as in flight. -/
theorem cancelled_block_stays_active : ∃ w : Coupled,
    Steps (fun input before after => next "a" before input = some after) (fun _ _ => True)
      ⟨emptyState, .new, [], []⟩ w ∧
    ∃ peer, w.state.peers.lookup "a" = some peer ∧ (0, 0, 4) ∈ peer.activeBlocks ∧ peer.inflightRequests = 2 ∧
      ¬w.Outstanding (0, 0, 4) := by
  obtain ⟨w, run, reached⟩ := Steps.exists_replay (fun _ _ => True) (next "a") (fun _ _ => true) cancelled
    ⟨emptyState, .new, [], []⟩ (fun w => (w.state.peers.lookup "a").any (fun peer => decide
      ((0, 0, 4) ∈ peer.activeBlocks ∧ peer.inflightRequests = 2 ∧ ¬w.Outstanding (0, 0, 4))) = true)
    (fun _ _ _ _ => trivial) (by decide +kernel)
  obtain ⟨peer, registered, facts⟩ := (Option.any_eq_true _ _).mp reached
  exact ⟨w, run, peer, registered, of_decide_eq_true facts⟩

open Coupled in
/-- Two blocks are requested and the first is delivered; the other stays outstanding. -/
theorem outstanding_agrees_answered : ∃ w : Coupled, ∃ peer, w.state.peers.lookup "a" = some peer ∧
    peer.activeBlocks = {(1, 0, 4)} ∧
    peer.inflightRequests = peer.activeBlocks.card ∧ ∀ b ∈ peer.activeBlocks, w.Outstanding b := by
  obtain ⟨w, steps, reached⟩ := Steps.exists_replay (Lossless "a") (next "a") (fun w _ => expects w) answered
    ⟨emptyState, .new, [], []⟩ (fun w => (w.state.peers.lookup "a").any (fun peer =>
      decide (peer.activeBlocks = {(1, 0, 4)})) = true)
    (by simp [answered, requested, connected, managing, downloadOf, replicate_succ, Lossless, anyway, expects,
      PeerSession.Patient, Event.Addressable, numPieces_plainTorrent]) (by decide +kernel)
  obtain ⟨peer, registered, facts⟩ := (Option.any_eq_true _ _).mp reached
  exact ⟨w, peer, registered, of_decide_eq_true facts,
    outstanding_agrees ⟨emptyState, ⟨_, _, _, _, _, rfl⟩, steps⟩ peer registered⟩

end Superseedr
