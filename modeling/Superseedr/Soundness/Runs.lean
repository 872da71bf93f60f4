import Superseedr.Soundness.LifecycleRefinement
import Superseedr.Soundness.Moves

/-! # Runs of the torrent state

The reducer refines the scheduler: every update is a run of moves that its action permits, from the
abstraction of the state before to the abstraction of the state after. A torrent starts out knowing
nothing but its hash, and a state is reachable when a finite sequence of events leads to it. What a
run of events preserves follows from what the moves preserve.
-/

namespace Superseedr

open Scheduler TorrentState Simulates

variable {host : Host} {s t : TorrentState} {a : Action} {effects : List Effect} {c : Scheduler.Core}
  {label : Scheduler.Label} {count : ℕ}

theorem update_simulates (run : update host s a = some (t, effects)) : Simulates (Permits host s a) s effects t := by
  have forgets : Forgets (Permits host s a) := fun k c p done => .inl done
  have dismisses : ∀ k ∈ releases host s a, Dismisses (Permits host s a) k :=
    fun k member => ⟨fun _ _ => member, fun _ => member⟩
  have removes : ∀ k ∈ releases host s a, Removes (Simulates (Permits host s a)) k :=
    fun k member => removePeer_simulates (dismisses k member) forgets
  have finishes : ∀ c, Permits host s a c .finish := fun c => trivial
  cases a with
  | peerPolicyUpdated policy => exact peerPolicyUpdated_rule simulates_disconnecting removes run
  | tick dtMs => exact tick_simulates run
  | recalculateChokes seed => exact (recalculateChokes_simulates host seed).of_result run
  | checkCompletion => exact checkCompletion_simulates finishes run
  | assignWork k => exact (assignWork_simulates host ⟨fun _ _ => rfl, fun _ _ => rfl⟩).of_result run
  | registerPeer k addr => exact registerPeer_simulates removes (fun c => ⟨addr, rfl⟩) run
  | peerTransportSelected | updatePeerId =>
    refine of_result (withPeer_simulates ?_) run
    exact fun _ => rfl
  | peerSuccessfullyConnected k => exact peerSuccessfullyConnected_simulates.of_result run
  | peerDisconnected k force => exact peerDisconnected_rule simulates_disconnecting removes run
  | peerBitfieldReceived k bits =>
    exact (peerBitfieldReceived_simulates (fun _ _ => .inl ⟨bits, rfl⟩) ⟨fun _ _ => rfl, fun _ _ => rfl⟩).of_result run
  | peerChoked k => exact peerChoked_simulates (fun _ _ => List.mem_singleton_self k) forgets (fun _ => rfl) run
  | peerUnchoked k =>
    exact of_result (peerUnchoked_simulates (fun _ => rfl) ⟨fun _ _ => rfl, fun _ _ => rfl⟩) run
  | peerInterested k => exact peerInterested_simulates.of_result run
  | peerHavePiece k p =>
    exact (peerHavePiece_simulates (fun _ _ => .inr ⟨p, rfl⟩) ⟨fun _ _ => rfl, fun _ _ => rfl⟩).of_result run
  | incomingBlock k p offset data =>
    exact incomingBlock_simulates run (fun _ => ⟨data, rfl, rfl⟩) (fun _ => .inl ⟨k, p, offset, data, rfl⟩)
      ⟨fun _ _ => rfl, fun _ _ => rfl⟩
  | pieceVerified k p valid data =>
    refine (pieceVerified_simulates (fun accepted c reason => ?_) (fun rejected c => ?_)
      ⟨fun _ _ => rfl, fun _ _ => rfl⟩).of_result run
    · exact reason.imp id fun ⟨start, writing⟩ => ⟨start, writing, data, by rw [accepted]⟩
    · exact .inr ⟨k, p, data, by rw [rejected]⟩
  | pieceWrittenToDisk k p =>
    exact pieceWrittenToDisk_simulates (fun _ => ⟨k, rfl⟩) forgets finishes
      (fun _ => ⟨fun _ _ => rfl, fun _ _ => rfl⟩) run
  | pieceWriteFailed p => exact pieceWriteFailed_simulates (fun c start => ⟨start, rfl⟩) run
  | metadataReceived torrent length =>
    exact metadataReceived_simulates (fun _ => ⟨length, rfl⟩)
      (fun c unloaded status => ⟨status, .inl ⟨torrent, length, rfl, unloaded⟩⟩) run
  | merkleProofReceived k p proof => exact .of_verifying (merkleProofReceived_verifying run)
  | validationComplete completed =>
    exact validationComplete_simulates (fun c start => ⟨start, rfl⟩) finishes
      (fun _ => ⟨fun _ _ => rfl, fun _ _ => rfl⟩) run
  | blockSentToPeer k count =>
    refine of_result (.of_unseen rfl ?_) run
    exact unseen_of_peers rfl rfl rfl rfl (peersView_modify_of_unseen fun _ => rfl)
  | cleanup => exact cleanup_simulates removes (fun _ => rfl) finishes run
  | pause =>
    exact pause_simulates (fun c start => ⟨start, .inl rfl⟩) dismisses forgets run
  | delete => exact of_result (delete_simulates fun _ => rfl) run
  | setUserTorrentConfig path priorities name =>
    exact setUserTorrentConfig_simulates finishes
      (fun c start starts => ⟨start.status, .inr ⟨start, path, priorities, name, rfl, starts⟩⟩)
      (fun c new pm peers calculated status => ⟨pm, peers, path, priorities, name, rfl, calculated, status⟩) run
  | setDataAvailability available =>
    refine of_result (.after_unseen ?_ (recalculateChokes_simulates host 0)) run
    exact fun _ _ => rfl
  | fatalError =>
    exact pause_simulates (fun c start => ⟨start, .inr rfl⟩) dismisses forgets run
  | _ => exact .of_idle (update_idle rfl run)

theorem update_preserves (holds : Core → Prop)
    (step : ∀ c d label, Permits host s a c label → Move label c d → holds c → holds d)
    (run : update host s a = some (t, effects)) (initial : holds (abs s [] ∅)) : holds (abs t (requestsOf effects) ∅) :=
  (update_simulates run []).preserves holds step initial

theorem update_after_delivery (run : update host s a = some (t, effects)) : ∃ c, ((c = abs s [] ∅ ∧
        ∀ k p offset data, a = .incomingBlock k p offset data → s.pieceManager.bitfield.length ≤ p) ∨
        ∃ k b, Permits host s a (abs s [] ∅) (.deliver k b) ∧ Move (.deliver k b) (abs s [] ∅) c) ∧
      Steps Move (fun c label => Permits host s a c label ∧ ∀ k b, label ≠ .deliver k b) c
        (abs t (requestsOf effects) ∅) := by
  by_cases arrives : ∃ k p offset data, a = .incomingBlock k p offset data
  · obtain ⟨k, p, offset, data, rfl⟩ := arrives
    rcases le_or_gt s.pieceManager.bitfield.length p with outside | inside
    · refine ⟨abs s [] ∅, .inl ⟨rfl, ?_⟩, incomingBlock_outside run outside []⟩
      rintro _ _ _ _ ⟨⟩
      exact outside
    obtain ⟨unneeded, rest⟩ : ∃ unneeded, Simulates
        (fun c label => Permits host s (.incomingBlock k p offset data) c label ∧ ∀ k b, label ≠ .deliver k b)
        (s.receiveBlock k p offset data.length unneeded) effects t :=
      incomingBlock_received run inside (fun c => ⟨.inl ⟨k, p, offset, data, rfl⟩, by simp⟩)
        ⟨fun c b => ⟨rfl, by simp⟩, fun c q => ⟨rfl, by simp⟩⟩
    refine ⟨abs (s.receiveBlock k p offset data.length unneeded) [] ∅, .inr ⟨k, (p, offset, u32 data.length), ?_⟩,
      rest []⟩
    exact ⟨⟨data, rfl, rfl⟩, receiveBlock_move p offset data.length unneeded []⟩
  · refine ⟨abs s [] ∅, .inl ⟨rfl, fun k p offset data same => absurd ⟨k, p, offset, data, same⟩ arrives⟩,
      (update_simulates run []).mono fun c label permits => ⟨permits, ?_⟩⟩
    rintro k b rfl
    obtain ⟨data, rfl, -⟩ := permits
    exact arrives ⟨k, b.1, b.2.1, data, rfl⟩

/-- Handlers that do not hand out work request nothing. -/
theorem requestsOf_eq_nil (idle : a.assigns = false) (run : update host s a = some (t, effects)) :
    requestsOf effects = [] := by
  refine update_preserves (fun c => c.sent = []) (fun c d label permits move before => ?_) run rfl
  rcases move.sent with same | ⟨k, b, rfl, -⟩
  · rw [same, before]
  · exact absurd permits (by simp [Permits, idle])

/-- Handlers that hand out work leave metadata and priorities alone. -/
theorem Scheduler.Permits.not_repaints (permits : Permits host s a c label) (assigns : a.assigns = true) :
    ¬label.Repaints := by
  cases label with
  | prioritize new =>
    obtain ⟨-, -, path, priorities, name, rfl, -, -⟩ := permits
    simp [Action.assigns] at assigns
  | load torrent =>
    obtain ⟨length, rfl⟩ := permits
    simp [Action.assigns] at assigns
  | wipe =>
    obtain rfl : a = .delete := permits
    simp [Action.assigns] at assigns
  | _ => exact id

/-- An action is handled, or the manager's rarity timer fires. -/
inductive Event where
  | handle (host : Host) (action : Action)
  | recountRarity

/-- What an event does to the state, with what it emits. -/
def Event.run (s : TorrentState) : Event → Update
  | .handle host action => update host s action
  | .recountRarity => some (updateRarity s, [])

/-- An event leads from one state to another. -/
def Happens (event : Event) (s t : TorrentState) : Prop := ∃ effects, event.run s = some (t, effects)

/-- A torrent of which only the hash, the trackers and the persisted flag are known. -/
def Initial (s : TorrentState) : Prop :=
  ∃ infoHash trackers validated containerName now, s = new infoHash trackers validated containerName now

/-- A finite sequence of events, each allowed in the state it meets, leads to the state. -/
def Reachable (allowed : TorrentState → Event → Prop) (s : TorrentState) : Prop :=
  ∃ start, Initial start ∧ Steps Happens allowed start s

variable {allowed : TorrentState → Event → Prop}

theorem Reachable.invariant (reachable : Reachable allowed s) (holds : TorrentState → Prop)
    (start : ∀ s, Initial s → holds s)
    (handled : ∀ host a s t effects, allowed s (.handle host a) → update host s a = some (t, effects) →
      holds s → holds t) (recounted : ∀ s, holds s → holds (updateRarity s)) : holds s := by
  obtain ⟨first, initial, steps⟩ := reachable
  refine steps.preserves holds ?_ (start first initial)
  rintro s t event admitted ⟨effects, run⟩ before
  cases event with
  | handle host action => exact handled host action s t effects admitted run before
  | recountRarity =>
    simp only [Event.run] at run
    cases run
    exact recounted s before

variable {event : Event}

theorem Reachable.step (reachable : Reachable allowed s) (admitted : allowed s event)
    (run : event.run s = some (t, effects)) : Reachable allowed t := by
  obtain ⟨start, initial, steps⟩ := reachable
  exact ⟨start, initial, steps.trans (.single admitted ⟨effects, run⟩)⟩

/-- Run events one after another and forget what they emit. -/
def runEvents : TorrentState → List Event → Option TorrentState
  | s, [] => some s
  | s, event :: rest => (event.run s).bind fun (t, _) => runEvents t rest

def runChecked (check : TorrentState → Event → Bool) : TorrentState → List Event → Option TorrentState
  | s, [] => some s
  | s, event :: rest => if check s event then (event.run s).bind fun (t, _) => runChecked check t rest else none

/-- A torrent of version 1 whose files are single pieces of four bytes. -/
def plainTorrent (count : ℕ) : Torrent where
  info :=
    { pieceLength := 4
      pieces := List.replicate (20 * count) 0
      files := List.replicate count { length := 4, path := ["f"] }
      name := "t"
      length := 0
      metaVersion := none
      fileTree := none }

theorem numPieces_plainTorrent (positive : 0 < count) : (plainTorrent count).numPieces = count := by
  have nonempty : (plainTorrent count).info.pieces ≠ [] := by
    simp only [plainTorrent, ne_eq, List.replicate_eq_nil_iff]
    omega
  rw [Torrent.numPieces, if_pos nonempty]
  simp only [plainTorrent, List.length_replicate]
  omega

/-- The state before anything is known. -/
def emptyState : TorrentState := new [] ∅ false none 0

def downloadOf (torrent : Torrent) : List Event :=
  [.handle {} (.setUserTorrentConfig "d" ∅ none), .handle {} (.metadataReceived torrent 0),
    .handle {} (.validationComplete [])]

def newPeer (k : PeerId) (bits : Bytes) : List Event :=
  [.handle {} (.registerPeer k none), .handle {} (.peerBitfieldReceived k bits), .handle {} (.peerUnchoked k)]

theorem Reachable.initial : Reachable allowed emptyState :=
  ⟨emptyState, ⟨_, _, _, _, _, rfl⟩, .refl⟩

variable {events : List Event} {check : TorrentState → Event → Bool}

theorem Reachable.runChecked (reachable : Reachable allowed s)
    (admitted : ∀ event ∈ events, ∀ s, check s event = true → allowed s event)
    (run : Superseedr.runChecked check s events = some t) : runEvents s events = some t ∧ Reachable allowed t := by
  induction events generalizing s with
  | nil =>
    obtain rfl : s = t := Option.some.inj run
    exact ⟨rfl, reachable⟩
  | cons event rest ih =>
    rw [Superseedr.runChecked] at run
    split_ifs at run with passed
    obtain ⟨⟨u, effects⟩, first, others⟩ := Option.bind_eq_some_iff.mp run
    rw [runEvents, first]
    exact ih (reachable.step (admitted event (.head _) s passed) first)
      (fun later member => admitted later (.tail event member)) others

theorem exists_reachable (allowed : TorrentState → Event → Prop) (check : TorrentState → Event → Bool)
    (events : List Event) (facts : TorrentState → Prop) [DecidablePred facts]
    (admitted : ∀ event ∈ events, ∀ s, check s event = true → allowed s event)
    (checked : (runChecked check emptyState events).any (fun s => decide (facts s)) = true) :
    ∃ s, runEvents emptyState events = some s ∧ Reachable allowed s ∧ facts s := by
  obtain ⟨s, run, reached⟩ := (Option.any_eq_true _ _).mp checked
  obtain ⟨replayed, reachable⟩ := Reachable.initial.runChecked admitted run
  exact ⟨s, replayed, reachable, of_decide_eq_true reached⟩

theorem exists_reached (events : List Event) (facts : TorrentState → Prop) [DecidablePred facts]
    (checked : (runChecked (fun _ _ => true) emptyState events).any (fun s => decide (facts s)) = true) :
    ∃ s, Reachable (fun _ _ => True) s ∧ facts s := by
  obtain ⟨s, -, reached⟩ := exists_reachable _ (fun _ _ => true) events facts (fun _ _ _ _ => trivial) checked
  exact ⟨s, reached⟩

end Superseedr
