import Superseedr.Soundness.UtpDelivery

/-! # The window of a uTP connection

A window is advertised only in packets, and a packet that is not an answer to another one is sent only by a sender
that has something in flight or room in the window. If the last packet of the receiver has advertised a full
buffer, nobody learns that its application has read it. If every packet is sent while a packet's worth of the
window is open, the sender can always go on.
-/

namespace Superseedr.Utp.Connection

open List Option Connection Sender Endpoint

variable {c c' : Connection} {side : Bool} {endpoint : Utp.Endpoint} {datagrams : List Utp.Datagram}
  {pending rest : List Bytes} {bound packetSize maxSize maxWindowBytes : ℕ} {payload : Bytes}
  {event : Utp.Connection.Event}

def Roomy (c : Connection) (label : Bool × Event) : Prop :=
  match label.2 with
  | .flush .. | .finish | .retransmit _ | .sendState =>
    maxPacketSize ≤ (c.endpoints label.1).receiver.advertisedWindow
  | _ => True

instance (c : Connection) : (label : Bool × Event) → Decidable (c.Roomy label)
  | (_, .flush ..) | (_, .finish) | (_, .retransmit _) | (_, .sendState) => inferInstanceAs (Decidable (_ ≤ _))
  | (_, .write _) | (_, .close) | (_, .read _) | (_, .readLocal _) | (_, .receive _) => inferInstanceAs (Decidable True)

structure Endpoint.Going (endpoint : Endpoint) : Prop where
  room : maxPacketSize ≤ endpoint.sender.remoteWindowBytes
  sized : ∀ payload ∈ endpoint.sender.pendingPayloads, payload.length ≤ maxPacketSize
  driven : endpoint.stopped = true → endpoint.sender.pendingPayloads = [] ∨ endpoint.sender.unackedPackets ≠ []

/-- Both senders can go on, and every window on the network has room. -/
def Open (c : Connection) : Prop :=
  ∀ side, Endpoint.Going (c.endpoints side) ∧ ∀ d ∈ c.network side, maxPacketSize ≤ d.packet.wndSize

theorem Open.proceed (isOpen : c.Open) (going : Endpoint.Going endpoint)
    (roomy : ∀ d ∈ datagrams, maxPacketSize ≤ d.packet.wndSize) : (c.proceed side endpoint datagrams).Open := by
  intro which
  rcases eq_or_ne which side with rfl | same
  · simp only [proceed, Function.update_self]
    exact ⟨going, forall_mem_append.mpr ⟨(isOpen which).2, roomy⟩⟩
  · simpa only [Connection.proceed, Function.update_of_ne same] using isOpen which

theorem popNextPayloadChunk_sized (sized : ∀ other ∈ pending, other.length ≤ bound)
    (run : popNextPayloadChunk packetSize maxSize pending = some (payload, rest)) :
    ∀ other ∈ rest, other.length ≤ bound := by
  cases pending with
  | nil => cases run
  | cons front others =>
    have frontSized := sized front (.head _)
    rw [popNextPayloadChunk] at run
    split_ifs at run
    · obtain ⟨-, rfl⟩ := Prod.mk.inj (some.inj run)
      exact fun other member => sized other (.tail front member)
    cases run
    intro other member
    rcases mem_cons.mp member with rfl | member
    · rw [length_drop]
      omega
    · exact sized other (.tail front member)

theorem Open.next (isOpen : c.Open) (roomy : c.Roomy (side, event)) (step : c.next side event = some c') : c'.Open := by
  obtain ⟨⟨room, sized, driven⟩, -⟩ := isOpen side
  cases event with dsimp only [Connection.next] at step
  | write | read =>
    split_ifs at step
    cases step
    exact isOpen.proceed ⟨room, sized, driven⟩ nofun
  | close =>
    cases step
    exact isOpen.proceed ⟨room, sized, driven⟩ nofun
  | readLocal size =>
    split_ifs at step with blocked
    obtain ⟨s, run, rfl⟩ := map_eq_some_iff.mp step
    unfold readLocal at run
    split_ifs at run
    · cases run
      exact isOpen.proceed ⟨room, sized, driven⟩ nofun
    cases run
    refine isOpen.proceed ⟨room, forall_mem_append.mpr ⟨sized, forall_mem_singleton.mpr ?_⟩,
      fun stopped => absurd stopped (not_or.mp blocked).1⟩ nofun
    have most : 1 ≤ maxPacketSize := by decide
    rw [length_take]
    omega
  | flush maxWindowBytes packetSize maxSize =>
    split_ifs at step with stopped
    obtain ⟨⟨s, segment⟩, run, rfl⟩ := map_eq_some_iff.mp step
    dsimp only [flush] at run
    split_ifs at run
    obtain ⟨⟨payload, rest⟩, popped, run⟩ := map_eq_some_iff.mp run
    cases run
    exact isOpen.proceed ⟨room, popNextPayloadChunk_sized sized popped, fun other => absurd other stopped⟩
      (forall_mem_singleton.mpr roomy)
  | finish =>
    split_ifs at step with blocked sent
    · cases step
      simp only [not_or, not_not] at blocked
      exact isOpen.proceed ⟨room, sized, fun _ => .inl blocked.2.2.1⟩ nofun
    · cases step
      exact isOpen.proceed ⟨room, sized, fun stopped => absurd stopped (not_or.mp blocked).1⟩
        (forall_mem_singleton.mpr roomy)
  | retransmit seqNr =>
    split_ifs at step with stopped
    obtain ⟨found, search, rfl⟩ := map_eq_some_iff.mp step
    split_ifs
    · refine isOpen.proceed ⟨room, sized, fun _ => .inr fun nothing => ?_⟩ nofun
      rw [nothing] at search
      cases search
    · exact isOpen.proceed ⟨room, sized, fun other => absurd other stopped⟩ (forall_mem_singleton.mpr roomy)
  | sendState =>
    split_ifs at step
    cases step
    exact isOpen.proceed ⟨room, sized, driven⟩ (forall_mem_singleton.mpr roomy)
  | receive i =>
    split_ifs at step with stopped
    obtain ⟨d, listed, rfl⟩ := map_eq_some_iff.mp step
    have advertised := (isOpen !side).2 d (mem_of_getElem? listed)
    unfold process
    dsimp only
    split_ifs
    all_goals exact isOpen.proceed ⟨advertised, sized, fun other => absurd other stopped⟩ nofun

theorem Endpoint.Going.isSome_flush {s : Sender} (room : maxPacketSize ≤ s.remoteWindowBytes)
    (sized : ∀ payload ∈ s.pendingPayloads, payload.length ≤ maxPacketSize) (pending : s.pendingPayloads ≠ [])
    (acknowledged : s.unackedPackets = []) (admitted : packetSize ≤ max maxWindowBytes minPacketSize) :
    (s.flush maxWindowBytes packetSize maxSize).isSome := by
  obtain ⟨front, rest, split⟩ := exists_cons_of_ne_nil pending
  have frontSized := sized front (split ▸ (.head _))
  have positive : 0 < minPacketSize ∧ 0 < maxPacketSize ∧ 0 < maxInflightPackets := by decide
  simp only [flush, unackedPayloadBytes, sendWindowBytes, acknowledged, split, map_nil,
    sum_nil, length_nil, head?_cons, map_some, getD_some]
  rw [if_neg (by omega), if_neg (by omega), isSome_map, popNextPayloadChunk]
  split_ifs <;> rfl

/-- If every packet is sent while the advertised window has room for a packet, a sender with pending payload and nothing
unacknowledged can send, as soon as its congestion window admits a packet. -/
theorem sender_can_transmit (first : Bool → UInt16) (run : Steps Move Roomy (established first) c) (side : Bool)
    (pending : (c.endpoints side).sender.pendingPayloads ≠ [])
    (acknowledged : (c.endpoints side).sender.unackedPackets = []) (maxWindowBytes packetSize maxSize : ℕ)
    (admitted : packetSize ≤ max maxWindowBytes minPacketSize) :
    (c.next side (.flush maxWindowBytes packetSize maxSize)).isSome := by
  have initial : (established first).Open := fun _ =>
    ⟨⟨(by decide : maxPacketSize ≤ receiveWindow), nofun, nofun⟩, nofun⟩
  have isOpen := run.preserves Open (fun _ _ _ roomy step before => before.next roomy step) initial
  obtain ⟨⟨room, sized, driven⟩, -⟩ := isOpen side
  have running : (c.endpoints side).stopped = false := by
    by_contra stopped
    rcases driven (Bool.of_not_eq_false stopped) with nothing | inFlight
    · exact pending nothing
    · exact inFlight acknowledged
  dsimp only [next]
  rw [running, if_neg Bool.false_ne_true, isSome_map]
  exact Endpoint.Going.isSome_flush room sized pending acknowledged admitted

/-- What the applications and the network do, as opposed to the drivers. -/
def Event.isOutside : Event → Bool
  | .write _ | .close | .read _ | .receive _ => true
  | .readLocal _ | .flush .. | .finish | .retransmit _ | .sendState => false

/-- The events of a run one after the other. -/
def replay (c : Connection) (labels : List (Bool × Event)) : Option Connection :=
  labels.foldlM (fun c label => c.next label.1 label.2) c

structure Endpoint.Blocked (endpoint : Endpoint) : Prop where
  writing : endpoint.sender.closed = false
  reading : endpoint.sender.localEof = false
  unread : endpoint.sender.unread = []
  unacked : endpoint.sender.unackedPackets = []
  answered : endpoint.receiver.ackPending = false
  window : endpoint.sender.pendingPayloads = [] ∨ endpoint.sender.remoteWindowBytes = 0

/-- Such a driver does nothing. -/
theorem Endpoint.Blocked.next_eq_none (blocked : Endpoint.Blocked (c.endpoints side))
    (inside : event.isOutside = false) : c.next side event = none := by
  obtain ⟨writing, reading, unread, unacked, answered, window⟩ := blocked
  cases event with
  | write _ | close | read _ | receive _ => cases inside
  | readLocal size =>
    simp only [next, readLocal, unread, writing, if_true, Bool.false_eq_true, if_false, map_none, ite_self]
  | flush maxWindowBytes packetSize maxSize =>
    have nothing : (c.endpoints side).sender.flush maxWindowBytes packetSize maxSize = none := by
      dsimp only [flush]
      split_ifs with full closed
      · rfl
      · rfl
      rcases window with empty | zero
      · rw [empty, popNextPayloadChunk, map_none]
      · refine absurd (.inl ?_) closed
        rw [sendWindowBytes, zero, Nat.min_zero]
        exact Nat.zero_le _
    simp only [next, nothing, map_none, ite_self]
  | finish => simp only [next, reading, Bool.not_false, true_or, or_true, if_true]
  | retransmit seqNr => simp only [next, unacked, find?_nil, map_none, ite_self]
  | sendState => simp only [next, answered, Bool.not_false, or_true, if_true]

/-- A packet is written, sent, taken and acknowledged. -/
def exchange (k : ℕ) : List (Bool × Event) :=
  [(false, .write (replicate 2048 0)), (false, .readLocal 2048), (false, .flush 2560 2560 2560), (true, .receive k),
    (true, .sendState), (false, .receive k)]

def stalling : List (Bool × Event) :=
  (range 128).flatMap exchange ++ [(false, .write [1]), (false, .readLocal 1), (true, .read receiveWindow)]

/-- When the receiver has advertised a full buffer and everything has arrived, its application reads all of it, and no
driver does anything any more, with a byte left to send. -/
theorem window_never_reopens : ∃ labels c, (established fun _ => 0).replay labels = some c ∧
    (∀ side i, i < (c.network side).length → (!side, Event.receive i) ∈ labels) ∧
    (c.endpoints false).sender.pendingPayloads ≠ [] ∧ (c.endpoints false).sender.unackedPackets = [] ∧
    (c.endpoints true).receiver.localReceiveBufferedBytes = 0 ∧
    (c.endpoints true).receiver.advertisedWindow = receiveWindow ∧
    ∀ side (event : Event), event.isOutside = false → c.next side event = none := by
  have replayed : ((established fun _ => 0).replay stalling).any (fun c => decide (
      (∀ side, (c.network side).length = 128 ∧ (c.endpoints side).sender.closed = false ∧
        (c.endpoints side).sender.localEof = false ∧ (c.endpoints side).sender.unread = [] ∧
        (c.endpoints side).sender.unackedPackets = [] ∧ (c.endpoints side).receiver.ackPending = false ∧
        ((c.endpoints side).sender.pendingPayloads = [] ∨ (c.endpoints side).sender.remoteWindowBytes = 0)) ∧
      (c.endpoints false).sender.pendingPayloads ≠ [] ∧ (c.endpoints true).receiver.localReceiveBufferedBytes = 0 ∧
      (c.endpoints true).receiver.advertisedWindow = receiveWindow)) = true := by decide +kernel
  obtain ⟨c, run, facts⟩ := (any_eq_true _ _).mp replayed
  obtain ⟨sides, pending, drained, window⟩ := of_decide_eq_true facts
  refine ⟨stalling, c, run, fun side i bound => ?_, pending, (sides false).2.2.2.2.1, drained, window,
    fun side event inside => ?_⟩
  · rw [(sides side).1] at bound
    refine mem_append_left _ (mem_flatMap.mpr ⟨i, mem_range.mpr bound, ?_⟩)
    cases side
    · exact mem_of_getElem? (i := 3) rfl
    · exact mem_of_getElem? (i := 5) rfl
  · obtain ⟨-, writing, reading, unread, unacked, answered, blocked⟩ := sides side
    exact Endpoint.Blocked.next_eq_none ⟨writing, reading, unread, unacked, answered, blocked⟩ inside

/-- After a packet that was acknowledged, a byte is written and can be sent. -/
theorem sender_can_transmit_again : ∃ c : Connection, (c.endpoints false).sender.pendingPayloads = [[1]] ∧
    (c.next false (.flush 1200 1200 1200)).isSome := by
  obtain ⟨c, run, reached⟩ := exists_run (fun _ => 0) Roomy (exchange 0 ++ [(false, .write [1]), (false, .readLocal 1)])
    (fun c => (c.endpoints false).sender.pendingPayloads = [[1]] ∧ (c.endpoints false).sender.unackedPackets = [])
    (by decide +kernel)
  exact ⟨c, reached.1, sender_can_transmit _ run false (by rw [reached.1]; exact cons_ne_nil _ _) reached.2 1200 1200
    1200 (by decide)⟩

end Superseedr.Utp.Connection
