import Superseedr.ToMathlib.LabeledSteps
import Superseedr.Soundness.UtpEndpoint

/-! # In-order delivery over uTP

In each direction of a connection the receiver has taken the first segments that were sent, the sender keeps what
the receiver does not have, and everything on the network carries a segment of its sender and acknowledges what
its sender has. So what the reader gets is what was written. The reader sees the end of the stream behind the
last byte, unless the driver returns earlier.
-/

namespace Superseedr.Utp

open List Option Function Connection

variable {later sent : List Utp.Segment} {u : Utp.Receiver} {note : Utp.SentPacket → Utp.SentPacket}
  {datagrams : List Utp.Datagram} {index : ℕ} {event : Utp.Connection.Event}

section Direction

/-- One direction of a connection. -/
structure Link (first : UInt16) (s : Sender) (r : Receiver) : Prop where
  sender : s.Sound first
  receiver : r.Sound first s.sent
  settled : r.Settled
  window : ∃ acked ≤ r.received, s.Window acked
  /-- What the receiver does not have, the sender keeps. -/
  kept : ∀ i < s.sent.length, (∃ p ∈ s.unackedPackets, p.index = i) ∨ r.Has first i

def Datagram.Carries (first : UInt16) (sent : List Segment) (d : Datagram) : Prop :=
  d.packet.packetType ≠ .state → ∃ segment, sent[d.index]? = some segment ∧
    d.packet.packetType = segment.packetType ∧ d.packet.seqNr = numbered first d.index ∧
    d.packet.payload = segment.payload

structure Datagram.Acks (first : UInt16) (r : Receiver) (d : Datagram) : Prop where
  ackNr : d.packet.ackNr = numbered first d.ackIndex - 1
  taken : d.ackIndex ≤ r.received
  short : d.packet.selectiveAck.length ≤ sackExtensionBytes
  marked : ∀ i, d.ackIndex < i → i < d.ackIndex + 33 →
    selectiveAckContains d.packet.selectiveAck d.packet.ackNr (numbered first i) = true → r.Has first i

variable {first : UInt16} {s t : Sender} {r : Receiver} {sent : List Segment} {segment : Segment} {d : Datagram}

theorem Datagram.Carries.mono (carries : d.Carries first sent) (grows : sent <+: later) : d.Carries first later := by
  intro isSegment
  obtain ⟨segment, place, rest⟩ := carries isSegment
  obtain ⟨more, rfl⟩ := grows
  exact ⟨segment, place_append place _, rest⟩

theorem Datagram.Acks.mono (acks : d.Acks first r) (advances : r.Advances first u) : d.Acks first u where
  __ := acks
  taken := acks.taken.trans advances.received
  marked i behind near contained := advances.has i (acks.marked i behind near contained)

variable (link : Link first s r)
include link

theorem Link.endsStream : EndsStream s.sent := fun i segment place isFin =>
  ⟨(link.sender.last i segment place isFin).1, (link.sender.last i segment place isFin).2.1⟩

theorem Link.ahead : s.sent.length ≤ r.received + 98 := by
  obtain ⟨acked, within, window⟩ := link.window
  have := window.length_sent_le link.sender.few
  omega

theorem Link.of_sender (sound : t.Sound first) (sent : t.sent = s.sent)
    (unacked : t.unackedPackets = s.unackedPackets) : Link first t r where
  sender := sound
  receiver := sent ▸ link.receiver
  settled := link.settled
  window := by
    obtain ⟨acked, within, window⟩ := link.window
    exact ⟨acked, within, unacked ▸ window.behind, sent ▸ unacked ▸ window.kept⟩
  kept := by rw [sent, unacked]; exact link.kept

theorem Link.send (sound : t.Sound first) (sent : t.sent = (s.send segment).sent)
    (unacked : t.unackedPackets = (s.send segment).unackedPackets) : Link first t r where
  sender := sound
  receiver := sent ▸ link.receiver.send segment
  settled := link.settled
  window := by
    obtain ⟨acked, within, window⟩ := link.window
    have next := window.send (within.trans link.receiver.taken) segment
    exact ⟨acked, within, unacked ▸ next.behind, sent ▸ unacked ▸ next.kept⟩
  kept i bound := by
    simp only [sent, unacked, Sender.send, length_append, length_singleton, mem_append, mem_singleton] at bound ⊢
    rcases Nat.lt_or_ge i s.sent.length with old | new
    · rcases link.kept i old with ⟨p, listed, place⟩ | has
      · exact .inl ⟨p, .inl listed, place⟩
      · exact .inr has
    · exact .inl ⟨_, .inr rfl, by dsimp only; omega⟩

/-- The sender changes what it notes about its packets besides their contents. -/
theorem Link.renote (same : ∀ p, (note p).seqNr = p.seqNr ∧ (note p).segment = p.segment ∧ (note p).index = p.index) :
    Link first { s with unackedPackets := s.unackedPackets.map note } r where
  sender :=
    { link.sender with
      unacked := fun p listed => by
        obtain ⟨q, old, rfl⟩ := mem_map.mp listed
        obtain ⟨seqNr, segment, index⟩ := same q
        rw [seqNr, segment, index]
        exact link.sender.unacked q old
      few := (length_map ..).trans_le link.sender.few }
  __ := link
  window := by
    obtain ⟨acked, within, window⟩ := link.window
    refine ⟨acked, within, fun p listed => ?_, fun i far below => ?_⟩
    · obtain ⟨q, old, rfl⟩ := mem_map.mp listed
      exact (same q).2.2 ▸ window.behind q old
    · obtain ⟨q, old, place⟩ := window.kept i far below
      exact ⟨note q, mem_map_of_mem old, (same q).2.2.trans place⟩
  kept i bound := (link.kept i bound).imp_left fun ⟨p, listed, place⟩ =>
    ⟨note p, mem_map_of_mem listed, (same p).2.2.trans place⟩

/-- An acknowledgement that is not too old takes away only what the receiver has. -/
theorem Link.acknowledge (acks : d.Acks first r) (recent : s.sent.length ≤ d.ackIndex + 2 ^ 15) :
    Link first (s.acknowledge d.packet) r where
  sender := link.sender.acknowledge d.packet
  __ := link
  window := by
    obtain ⟨acked, within, window⟩ := link.window
    obtain ⟨later, bound, next⟩ := window.acknowledge link.sender acks.ackNr acks.short
      (acks.taken.trans link.receiver.taken) recent
    exact ⟨later, bound.trans (max_le within acks.taken), next⟩
  kept i bound := by
    rcases link.kept i bound with ⟨p, listed, rfl⟩ | has
    · by_cases remains : p ∈ (s.acknowledge d.packet).unackedPackets
      · exact .inl ⟨p, remains, rfl⟩
      right
      obtain ⟨acked, within, window⟩ := link.window
      have behind := window.behind p listed
      have ahead := window.length_sent_le link.sender.few
      have taken := acks.taken.trans link.receiver.taken
      have bound : p.index < s.sent.length := bound
      unfold Sender.acknowledge acknowledgePackets at remains
      split_ifs at remains
      · exact absurd listed remains
      rw [mem_filter, not_and, Bool.not_eq_true', Bool.not_eq_false, Bool.or_eq_true,
        (link.sender.unacked p listed).1] at remains
      rcases remains listed with cumulative | selective
      · -- Behind the acknowledged places nothing is acknowledged.
        refine .inl ((Nat.not_le.mp fun later => ?_).trans_le acks.taken)
        rw [acks.ackNr, not_seqLte_ack later (by omega)] at cumulative
        cases cumulative
      · have range := range_of_selectiveAckContains acks.short (by omega) (by omega) (acks.ackNr ▸ selective)
        exact acks.marked p.index range.1 range.2 selective
    · exact .inr has

theorem Link.of_reaches (reached : r.Reaches first s.sent u) : Link first s u where
  sender := link.sender
  receiver := reached.sound
  settled := reached.settled
  window := by
    obtain ⟨acked, within, window⟩ := link.window
    exact ⟨acked, within.trans reached.advances.received, window⟩
  kept i bound := (link.kept i bound).imp_right (reached.advances.has i)

theorem Link.process (carries : d.Carries first s.sent) (recent : s.sent.length ≤ d.index + 2 ^ 15) :
    r.Reaches first s.sent (r.process d.packet).1 ∧
      ((r.process d.packet).2 = true → (r.process d.packet).1.shutdown = true) := by
  have noted : { r with ackPending := true }.Sound first s.sent := { link.receiver with }
  have advances : r.Advances first { r with ackPending := true } := ⟨le_refl _, fun _ has => has⟩
  unfold Receiver.process
  cases kind : d.packet.packetType with
  | state => exact ⟨⟨link.receiver, link.settled, .refl⟩, nofun⟩
  | data =>
    obtain ⟨segment, place, type, seqNr, payload⟩ := carries (by rw [kind]; decide)
    have isFin : segment.isFin = false := by
      by_contra isFin
      rw [kind, Segment.packetType, if_pos (Bool.of_not_eq_false isFin)] at type
      cases type
    rw [seqNr, payload]
    obtain ⟨reached, told⟩ := noted.processData link.settled link.endsStream link.ahead place isFin recent
    exact ⟨⟨reached.sound, reached.settled, advances.trans reached.advances⟩, told⟩
  | fin =>
    obtain ⟨segment, place, type, seqNr, payload⟩ := carries (by rw [kind]; decide)
    have isFin : segment.isFin = true := by
      by_contra isFin
      rw [kind, Segment.packetType, if_neg isFin] at type
      cases type
    rw [seqNr]
    obtain ⟨reached, told⟩ := noted.processFin link.settled link.endsStream link.ahead place isFin recent
    exact ⟨⟨reached.sound, reached.settled, advances.trans reached.advances⟩, told⟩

theorem Link.delivered_written : r.delivered <+: s.written := by
  rw [link.receiver.delivered, link.sender.written, append_assoc]
  obtain ⟨rest, split⟩ := take_prefix r.received s.sent
  refine ⟨rest.flatMap (·.payload) ++ (s.pendingPayloads.flatten ++ s.unread), ?_⟩
  rw [← append_assoc, ← flatMap_append, split]

theorem Link.complete_of_shutdown (ended : r.shutdown = true) : r.delivered = s.sent.flatMap (·.payload) := by
  obtain ⟨i, segment, before, place, isFin⟩ := link.receiver.ended.mp ended
  obtain ⟨final, -⟩ := link.endsStream i segment place isFin
  rw [link.receiver.delivered, take_of_length_le (by omega)]

end Direction

namespace Connection

def Sound (first : Bool → UInt16) (c : Connection) : Prop :=
  ∀ side, Link (first side) (c.endpoints side).sender (c.endpoints !side).receiver ∧
    ∀ d ∈ c.network side, d.Carries (first side) (c.endpoints side).sender.sent ∧
      d.Acks (first !side) (c.endpoints side).receiver

/-- What happens at a side of the connection. -/
def Move (label : Bool × Event) (c d : Connection) : Prop := c.next label.1 label.2 = some d

/-- No datagram arrives that is older than half of all sequence numbers, in its own number and in the one it
acknowledges, both counted from the next number to be used. -/
def Fresh (c : Connection) (label : Bool × Event) : Prop :=
  match label.2 with
  | .receive i => ∀ d ∈ (c.network !label.1)[i]?,
    (c.endpoints !label.1).sender.sent.length ≤ d.index + 2 ^ 15 ∧
      (c.endpoints label.1).sender.sent.length ≤ d.ackIndex + 2 ^ 15
  | _ => True

instance (c : Connection) : (label : Bool × Event) → Decidable (c.Fresh label)
  | (side, .receive i) => inferInstanceAs (Decidable (∀ d ∈ (c.network !side)[i]?, _ ∧ _))
  | (_, .write _) | (_, .close) | (_, .read _) | (_, .readLocal _) | (_, .flush ..) | (_, .finish)
  | (_, .retransmit _) | (_, .sendState) => inferInstanceAs (Decidable True)

variable {first : Bool → UInt16} {c c' : Connection} {side : Bool} {endpoint : Endpoint} {segment : Segment}

theorem Sound.proceed (sound : c.Sound first)
    (outbound : Link (first side) endpoint.sender (c.endpoints !side).receiver)
    (inbound : Link (first !side) (c.endpoints !side).sender endpoint.receiver)
    (grows : (c.endpoints side).sender.sent <+: endpoint.sender.sent)
    (advances : (c.endpoints side).receiver.Advances (first !side) endpoint.receiver)
    (carried : ∀ d ∈ datagrams, d.Carries (first side) endpoint.sender.sent ∧ d.Acks (first !side) endpoint.receiver) :
    (c.proceed side endpoint datagrams).Sound first := by
  have other : (!side) ≠ side := by cases side <;> decide
  intro which
  obtain rfl | rfl : which = side ∨ which = !side := by cases which <;> cases side <;> decide
  · simp only [proceed, update_self, update_of_ne other]
    refine ⟨outbound, forall_mem_append.mpr ⟨fun d old => ?_, carried⟩⟩
    obtain ⟨carries, acks⟩ := (sound which).2 d old
    exact ⟨carries.mono grows, acks.mono advances⟩
  · simp only [Connection.proceed, Bool.not_not, update_self, update_of_ne other]
    refine ⟨inbound, fun d listed => ?_⟩
    have old := (sound !side).2 d listed
    rwa [Bool.not_not] at old

theorem Sound.inbound (sound : c.Sound first) (side : Bool) :
    Link (first !side) (c.endpoints !side).sender (c.endpoints side).receiver := by
  have link := (sound !side).1
  rwa [Bool.not_not] at link

theorem acks_datagram {first : UInt16} (sound : endpoint.receiver.Sound first sent) (segment : Segment) (seqNr : UInt16)
    (index : ℕ) : (endpoint.datagram segment seqNr index).Acks first endpoint.receiver where
  ackNr := sound.last
  taken := le_refl _
  short := Nat.zero_le _
  marked i _ _ contained := by
    rw [selectiveAckContains_eq, Bool.and_eq_true] at contained
    cases contained.2

theorem carries_datagram {first : UInt16} (place : sent[index]? = some segment) :
    (endpoint.datagram segment (numbered first index) index).Carries first sent :=
  fun _ => ⟨segment, place, rfl, rfl, rfl⟩

/-- An acknowledgement says what was taken and what is buffered. -/
theorem acks_stateDatagram {first : UInt16} (sound : endpoint.receiver.Sound first sent) :
    endpoint.stateDatagram.Acks first endpoint.receiver where
  ackNr := sound.last
  taken := le_refl _
  short := length_selectiveAckFor_le ..
  marked i behind near contained := by
    have near : i < endpoint.receiver.received + 33 := near
    have buffered := ((selectiveAckContains_selectiveAckFor ..).mp contained).1
    exact .inr ⟨by omega, AList.mem_keys.mpr buffered⟩

/-- Every event keeps both directions sound, as long as nothing too old arrives. -/
theorem Sound.next (sound : c.Sound first) (fresh : c.Fresh (side, event)) (step : c.next side event = some c') :
    c'.Sound first := by
  have out := (sound side).1
  have inn := sound.inbound side
  cases event with dsimp only [Connection.next] at step
  | write bytes =>
    split_ifs at step
    cases step
    have written : { (c.endpoints side).sender with
        written := (c.endpoints side).sender.written ++ bytes
        unread := (c.endpoints side).sender.unread ++ bytes }.Sound (first side) :=
      { out.sender with written := by dsimp only; rw [out.sender.written, append_assoc] }
    exact sound.proceed (out.of_sender written rfl rfl) inn (prefix_refl _) .refl nofun
  | close =>
    cases step
    exact sound.proceed (out.of_sender { out.sender with } rfl rfl) inn (prefix_refl _) .refl nofun
  | read count =>
    split_ifs at step
    cases step
    refine sound.proceed out (inn.of_reaches ⟨{ inn.receiver with }, inn.settled, ?_⟩) (prefix_refl _) ?_ nofun
    all_goals exact ⟨le_refl _, fun _ has => has⟩
  | readLocal size =>
    split_ifs at step with blocked
    obtain ⟨s, run, rfl⟩ := map_eq_some_iff.mp step
    have reading : (c.endpoints side).sender.localEof = false := by
      simpa only [not_or, Bool.not_eq_true] using (not_or.mp (not_or.mp blocked).2).1
    have same : s.sent = (c.endpoints side).sender.sent ∧
        s.unackedPackets = (c.endpoints side).sender.unackedPackets := by
      unfold Sender.readLocal at run
      split_ifs at run
      all_goals cases run
      all_goals exact ⟨rfl, rfl⟩
    exact sound.proceed (out.of_sender (out.sender.readLocal reading run) same.1 same.2) inn
      (same.1 ▸ prefix_refl _) .refl nofun
  | flush maxWindowBytes packetSize maxSize =>
    split_ifs at step
    obtain ⟨⟨s, segment⟩, run, rfl⟩ := map_eq_some_iff.mp step
    obtain ⟨next, rest, rfl⟩ := out.sender.flush run
    refine sound.proceed (out.send next rfl rfl) inn (prefix_append ..) .refl fun d listed => ?_
    obtain rfl := mem_singleton.mp listed
    rw [out.sender.next]
    exact ⟨carries_datagram getElem?_concat_length, acks_datagram inn.receiver ..⟩
  | finish =>
    split_ifs at step with blocked sent
    · cases step
      exact sound.proceed out inn (prefix_refl _) .refl nofun
    cases step
    simp only [not_or, Bool.not_eq_true', Bool.not_eq_true, not_not, Bool.not_eq_false] at blocked
    have next := out.sender.sendFin (Bool.of_not_eq_true sent) blocked.2.1 blocked.2.2.1 blocked.2.2.2
    refine sound.proceed (out.send next rfl rfl) inn (prefix_append ..) .refl fun d listed => ?_
    obtain rfl := mem_singleton.mp listed
    rw [out.sender.next]
    exact ⟨carries_datagram getElem?_concat_length, acks_datagram inn.receiver ..⟩
  | retransmit seqNr =>
    split_ifs at step
    obtain ⟨found, search, rfl⟩ := map_eq_some_iff.mp step
    split_ifs
    · exact sound.proceed out inn (prefix_refl _) .refl nofun
    refine sound.proceed (out.renote fun p => ?_) inn (prefix_refl _) .refl fun d listed => ?_
    · split_ifs <;> exact ⟨rfl, rfl, rfl⟩
    · obtain rfl := mem_singleton.mp listed
      obtain ⟨number, place⟩ := out.sender.unacked found (mem_of_find?_eq_some search)
      rw [number]
      exact ⟨carries_datagram place, acks_datagram inn.receiver ..⟩
  | sendState =>
    split_ifs at step
    cases step
    refine sound.proceed out (inn.of_reaches ⟨{ inn.receiver with }, inn.settled, ?_⟩) (prefix_refl _) ?_
      fun d listed => ?_
    · exact ⟨le_refl _, fun _ has => has⟩
    · exact ⟨le_refl _, fun _ has => has⟩
    · obtain rfl := mem_singleton.mp listed
      exact ⟨fun isSegment => absurd rfl isSegment,
        (acks_stateDatagram inn.receiver).mono ⟨le_refl _, fun _ has => has⟩⟩
  | receive i =>
    split_ifs at step
    obtain ⟨d, listed, rfl⟩ := map_eq_some_iff.mp step
    obtain ⟨recent, recentAck⟩ := fresh d listed
    obtain ⟨carries, acks⟩ := (sound !side).2 d (mem_of_getElem? listed)
    rw [Bool.not_not] at acks
    have acknowledged := out.acknowledge acks recentAck
    obtain ⟨reached, -⟩ := inn.process carries recent
    unfold Endpoint.process
    dsimp only
    split_ifs
    · exact sound.proceed (acknowledged.of_sender acknowledged.sender.setLocalEof rfl rfl)
        (inn.of_reaches ⟨{ reached.sound with }, reached.settled, ⟨reached.advances.received, reached.advances.has⟩⟩)
        (prefix_refl _) ⟨reached.advances.received, reached.advances.has⟩ nofun
    · exact sound.proceed acknowledged (inn.of_reaches reached) (prefix_refl _) reached.advances nofun

theorem sound_established : (established first).Sound first := by
  intro side
  refine ⟨⟨⟨?_, nofun, Nat.zero_le _, nofun, nofun, rfl⟩, ⟨?_, le_refl _, nofun, nofun, ?_, rfl⟩, nofun, ?_, nofun⟩,
    nofun⟩
  · exact numbered_zero.symm
  · have zero : numbered (first side) ((established first).endpoints !side).receiver.received = first side :=
      numbered_zero
    rw [zero]
    exact congrArg (fun which => first which - 1) (Bool.not_not side)
  · exact ⟨nofun, fun ⟨_, _, before, _⟩ => absurd before (Nat.not_lt_zero _)⟩
  · exact ⟨0, le_refl _, nofun, nofun⟩

/-- Every state of a run in which nothing too old arrives is sound. -/
theorem sound_of_run (run : Steps Move Fresh (established first) c) : c.Sound first :=
  run.preserves (Sound first) (fun _ _ _ fresh step sound => sound.next fresh step) sound_established

/-- An application closes its sending side only when it was handed all that the other one has written, and writes
nothing when the other one has closed; and no packet is repeated too often. -/
def Orderly (c : Connection) (label : Bool × Event) : Prop :=
  match label.2 with
  | .write _ => (c.endpoints !label.1).sender.closed = false
  | .close => (c.endpoints label.1).receiver.delivered = (c.endpoints !label.1).sender.written
  | .retransmit seqNr =>
    ∀ p ∈ (c.endpoints label.1).sender.unackedPackets, p.seqNr = seqNr → p.retransmits < maxRetransmits
  | _ => True

instance (c : Connection) : (label : Bool × Event) → Decidable (c.Orderly label)
  | (_, .write _) | (_, .close) => inferInstanceAs (Decidable (_ = _))
  | (side, .retransmit seqNr) => inferInstanceAs
    (Decidable (∀ p ∈ (c.endpoints side).sender.unackedPackets, p.seqNr = seqNr → p.retransmits < maxRetransmits))
  | (_, .read _) | (_, .readLocal _) | (_, .flush ..) | (_, .finish) | (_, .sendState) | (_, .receive _) =>
    inferInstanceAs (Decidable True)

/-- The driver of an endpoint returns only at the end of what it reads from the application, which is there when the
application has closed or the other stream has ended; and an application that has closed was handed everything. -/
structure Patient (endpoint : Endpoint) (written : Bytes) : Prop where
  closed : endpoint.sender.closed = true → endpoint.receiver.delivered = written
  localEof : endpoint.sender.localEof = true → endpoint.sender.closed = true ∨ endpoint.receiver.shutdown = true
  stopped : endpoint.stopped = true → endpoint.sender.localEof = true

def AllPatient (c : Connection) : Prop := ∀ side, Patient (c.endpoints side) (c.endpoints !side).sender.written

theorem AllPatient.proceed (patient : c.AllPatient) (own : Patient endpoint (c.endpoints !side).sender.written)
    (written : (c.endpoints !side).sender.closed = true →
      endpoint.sender.written = (c.endpoints side).sender.written) :
    (c.proceed side endpoint datagrams).AllPatient := by
  have other : (!side) ≠ side := by cases side <;> decide
  intro which
  obtain rfl | rfl : which = side ∨ which = !side := by cases which <;> cases side <;> decide
  · simpa only [proceed, update_self, update_of_ne other] using own
  have old := patient !side
  rw [Bool.not_not] at old
  simp only [Connection.proceed, update_of_ne other, Bool.not_not, update_self]
  exact ⟨fun closed => (old.closed closed).trans (written closed).symm, old.localEof, old.stopped⟩

/-- A receiver that has gone on has handed out more, and its stream has not ended less. -/
theorem Reaches.delivered {first : UInt16} {r t : Receiver} (sound : r.Sound first sent)
    (reached : r.Reaches first sent t) : r.delivered <+: t.delivered ∧ (r.shutdown = true → t.shutdown = true) := by
  constructor
  · rw [sound.delivered, reached.sound.delivered]
    obtain ⟨rest, split⟩ := take_prefix_take_left reached.advances.received
    rw [← split, flatMap_append]
    exact prefix_append ..
  · intro ended
    obtain ⟨i, segment, before, rest⟩ := sound.ended.mp ended
    exact reached.sound.ended.mpr ⟨i, segment, before.trans_le reached.advances.received, rest⟩

/-- Every event of an orderly run keeps both endpoints patient. -/
theorem AllPatient.next {event : Event} (sound : c.Sound first) (patient : c.AllPatient) (fresh : c.Fresh (side, event))
    (orderly : c.Orderly (side, event)) (step : c.next side event = some c') : c'.AllPatient := by
  obtain ⟨closed, localEof, stopped⟩ := patient side
  cases event with dsimp only [Connection.next] at step
  | write bytes =>
    split_ifs at step
    cases step
    refine patient.proceed ⟨closed, localEof, stopped⟩ fun isClosed => ?_
    exact absurd (isClosed.symm.trans orderly) Bool.noConfusion
  | close =>
    cases step
    exact patient.proceed ⟨fun _ => orderly, fun _ => .inl rfl, stopped⟩ fun _ => rfl
  | read | sendState =>
    split_ifs at step
    cases step
    exact patient.proceed ⟨closed, localEof, stopped⟩ fun _ => rfl
  | readLocal size =>
    split_ifs at step
    obtain ⟨s, run, rfl⟩ := map_eq_some_iff.mp step
    unfold Sender.readLocal at run
    split_ifs at run with unread isClosed
    · cases run
      exact patient.proceed ⟨closed, fun _ => .inl isClosed, fun _ => rfl⟩ fun _ => rfl
    · cases run
      exact patient.proceed ⟨closed, localEof, stopped⟩ fun _ => rfl
  | flush maxWindowBytes packetSize maxSize =>
    split_ifs at step
    obtain ⟨⟨s, segment⟩, run, rfl⟩ := map_eq_some_iff.mp step
    obtain ⟨-, rest, rfl⟩ := (sound side).1.sender.flush run
    exact patient.proceed ⟨closed, localEof, stopped⟩ fun _ => rfl
  | finish =>
    split_ifs at step with blocked sent
    · cases step
      simp only [not_or, Bool.not_eq_true', Bool.not_eq_false] at blocked
      exact patient.proceed ⟨closed, localEof, fun _ => blocked.2.1⟩ fun _ => rfl
    · cases step
      exact patient.proceed ⟨closed, localEof, stopped⟩ fun _ => rfl
  | retransmit seqNr =>
    split_ifs at step
    obtain ⟨found, search, rfl⟩ := map_eq_some_iff.mp step
    have few := orderly found (mem_of_find?_eq_some search) (by simpa using find?_some search)
    rw [if_neg (Nat.not_le.mpr few)]
    exact patient.proceed ⟨closed, localEof, stopped⟩ fun _ => rfl
  | receive i =>
    split_ifs at step
    obtain ⟨d, listed, rfl⟩ := map_eq_some_iff.mp step
    have inn := sound.inbound side
    obtain ⟨reached, told⟩ := inn.process ((sound !side).2 d (mem_of_getElem? listed)).1 (fresh d listed).1
    obtain ⟨more, lasting⟩ := Reaches.delivered inn.receiver reached
    have same : (c.endpoints side).sender.closed = true →
        ((c.endpoints side).receiver.process d.packet).1.delivered = (c.endpoints !side).sender.written := by
      intro isClosed
      rw [closed isClosed] at more
      exact ((inn.of_reaches reached).delivered_written.eq_of_length_le more.length_le)
    unfold Endpoint.process
    dsimp only
    split_ifs with ended
    · exact patient.proceed ⟨same, fun _ => .inr (told ended), fun _ => rfl⟩ fun _ => rfl
    · exact patient.proceed ⟨same, fun eof => (localEof eof).imp_right lasting, stopped⟩ fun _ => rfl

/-- In a patient endpoint the reader sees the end of the stream behind everything that was sent. -/
theorem Patient.complete {first : UInt16} {s : Sender} (patient : Patient endpoint s.written)
    (link : Link first s endpoint.receiver) (told : endpoint.eof = true) :
    endpoint.receiver.delivered = s.sent.flatMap (·.payload) := by
  have ending : endpoint.receiver.shutdown = true ∨ endpoint.sender.closed = true := by
    rcases (Bool.or_eq_true _ _).mp told with ended | stopped
    · exact .inl ended
    · exact (patient.localEof (patient.stopped stopped)).symm
  rcases ending with ended | closed
  · exact link.complete_of_shutdown ended
  -- All that was written was handed out, and what was sent lies in between.
  have all := patient.closed closed
  rw [link.sender.written] at all
  have taken := link.receiver.delivered
  have part : endpoint.receiver.delivered <+: s.sent.flatMap (·.payload) := by
    obtain ⟨rest, split⟩ := take_prefix endpoint.receiver.received s.sent
    rw [taken]
    exact ⟨rest.flatMap (·.payload), by rw [← flatMap_append, split]⟩
  refine part.eq_of_length_le ?_
  rw [all, length_append, length_append]
  omega

theorem exists_run (first : Bool → UInt16) (guard : Connection → Bool × Event → Prop)
    [∀ c label, Decidable (guard c label)] (labels : List (Bool × Event)) (facts : Connection → Prop)
    [DecidablePred facts]
    (replayed : (labels.foldlM (fun c label => if decide (guard c label) then c.next label.1 label.2 else none)
      (established first)).any (fun c => decide (facts c)) = true) :
    ∃ c, Steps Move guard (established first) c ∧ facts c :=
  Steps.exists_replay guard _ _ labels _ facts (fun _ _ _ admitted => of_decide_eq_true admitted) replayed

end Connection

end Superseedr.Utp
