import Mathlib.Data.List.Infix
import Superseedr.ToMathlib.AssocMap
import Superseedr.Soundness.UtpSequence

/-! # The two halves of a uTP endpoint

The sender never gets far ahead of the receiver: beyond the reach of selective acknowledgements it keeps every
packet until all before it are taken. So the receiver can tell places by their numbers, and takes the segments
one after the other.
-/

namespace Superseedr.Utp

open List Option AList Receiver Sender

variable {i a size packetSize maxSize maxWindowBytes : ℕ} {sent : List Segment} {segment : Segment}
  {packet : Utp.Packet} {t : Utp.Sender} {pending rest : List Bytes} {payload : Bytes} {added : Utp.Segment}
  {first : UInt16}

theorem lt_of_place (place : sent[i]? = some segment) : i < sent.length := (List.getElem?_eq_some_iff.mp place).1

theorem place_append (place : sent[i]? = some segment) (later : List Segment) : (sent ++ later)[i]? = some segment :=
  (getElem?_append_left (lt_of_place place)).trans place

section Sending

structure Sender.Sound (first : UInt16) (s : Sender) : Prop where
  next : s.nextSendSeqNr = numbered first s.sent.length
  unacked : ∀ p ∈ s.unackedPackets, p.seqNr = numbered first p.index ∧ s.sent[p.index]? = some p.segment
  few : s.unackedPackets.length ≤ maxInflightPackets
  last : ∀ i segment, s.sent[i]? = some segment → segment.isFin = true →
    i + 1 = s.sent.length ∧ segment.payload = [] ∧ s.localFinSent = true
  finished : s.localFinSent = true → s.localEof = true ∧ s.pendingPayloads = []
  written : s.written = s.sent.flatMap (·.payload) ++ s.pendingPayloads.flatten ++ s.unread

/-- All packets before a place are acknowledged, and beyond the reach of a selective acknowledgement none is. -/
structure Sender.Window (s : Sender) (acked : ℕ) : Prop where
  behind : ∀ p ∈ s.unackedPackets, acked ≤ p.index
  kept : ∀ i, acked + 34 ≤ i → i < s.sent.length → ∃ p ∈ s.unackedPackets, p.index = i

variable {s : Sender} {acked : ℕ}

theorem Sender.Window.length_sent_le (window : s.Window acked) (few : s.unackedPackets.length ≤ maxInflightPackets) :
    s.sent.length ≤ acked + 98 := by
  have among : range' (acked + 34) (s.sent.length - (acked + 34)) ⊆ s.unackedPackets.map (·.index) := by
    intro i member
    rw [mem_range'_1] at member
    obtain ⟨p, listed, same⟩ := window.kept i member.1 (by omega)
    exact mem_map.mpr ⟨p, listed, same⟩
  have count := (subperm_of_subset nodup_range' among).length_le
  rw [length_range', length_map] at count
  rw [maxInflightPackets] at few
  omega

theorem Sender.Window.send (window : s.Window acked) (within : acked ≤ s.sent.length) (segment : Segment) :
    (s.send segment).Window acked where
  behind := forall_mem_append.mpr ⟨window.behind, forall_mem_singleton.mpr within⟩
  kept i far below := by
    simp only [Sender.send, length_append, length_singleton, mem_append, mem_singleton] at below ⊢
    rcases Nat.lt_or_ge i s.sent.length with old | new
    · obtain ⟨p, listed, same⟩ := window.kept i far old
      exact ⟨p, .inl listed, same⟩
    · exact ⟨_, .inr rfl, by dsimp only; omega⟩

/-- An acknowledgement that is not too old takes away what was taken, and nothing that is far ahead. -/
theorem Sender.Window.acknowledge (sound : s.Sound first) (window : s.Window acked)
    (ackNr : packet.ackNr = numbered first a - 1) (short : packet.selectiveAck.length ≤ sackExtensionBytes)
    (within : a ≤ s.sent.length) (recent : s.sent.length ≤ a + 2 ^ 15) :
    ∃ later ≤ max acked a, (s.acknowledge packet).Window later := by
  have ahead := window.length_sent_le sound.few
  unfold Sender.acknowledge acknowledgePackets
  split_ifs with ignored
  · exact ⟨acked, le_max_left .., window.behind, window.kept⟩
  refine ⟨max acked a, le_refl _, ?_, ?_⟩
  · intro p listed
    obtain ⟨old, remains⟩ := mem_filter.mp listed
    obtain ⟨seqNr, place⟩ := sound.unacked p old
    refine max_le (window.behind p old) (Nat.not_lt.mp fun before => ?_)
    have behind := window.behind p old
    rw [seqNr, ackNr, seqLte_ack before (by omega)] at remains
    cases remains
  · intro i far below
    obtain ⟨p, old, rfl⟩ := window.kept i (by omega) below
    refine ⟨p, mem_filter.mpr ⟨old, ?_⟩, rfl⟩
    dsimp only at below
    have unmarked :
        selectiveAckContains packet.selectiveAck (numbered first a - 1) (numbered first p.index) = false := by
      by_contra contained
      have := range_of_selectiveAckContains short (by omega) (by omega) (Bool.of_not_eq_false contained)
      omega
    rw [(sound.unacked p old).1, ackNr, not_seqLte_ack (by omega) (by omega), unmarked]
    rfl

theorem Sender.Sound.acknowledge (sound : s.Sound first) (packet : Packet) : (s.acknowledge packet).Sound first := by
  have fewer : (s.acknowledge packet).unackedPackets.Sublist s.unackedPackets := by
    unfold Sender.acknowledge acknowledgePackets
    split_ifs
    · exact .refl _
    · exact filter_sublist
  exact
    { next := sound.next
      unacked := fun p listed => sound.unacked p (fewer.subset listed)
      few := fewer.length_le.trans sound.few
      last := sound.last
      finished := sound.finished
      written := sound.written }

theorem Sender.Sound.setLocalEof (sound : s.Sound first) : { s with localEof := true }.Sound first :=
  { sound with finished := fun sent => ⟨rfl, (sound.finished sent).2⟩ }

theorem Sender.Sound.readLocal (sound : s.Sound first) (reading : s.localEof = false)
    (run : s.readLocal size = some t) : t.Sound first := by
  unfold Sender.readLocal at run
  split_ifs at run with nothing closed
  · cases run
    exact sound.setLocalEof
  cases run
  refine { sound with finished := fun sent => ?_, written := ?_ }
  · rw [(sound.finished sent).1] at reading
    cases reading
  · rw [sound.written, flatten_append, flatten_singleton, append_assoc, append_assoc, append_assoc, take_append_drop]

theorem popNextPayloadChunk_flatten (run : popNextPayloadChunk packetSize maxSize pending = some (payload, rest)) :
    pending.flatten = payload ++ rest.flatten := by
  cases pending with
  | nil => cases run
  | cons front others =>
    rw [popNextPayloadChunk] at run
    split_ifs at run
    · cases run
      rfl
    · cases run
      rw [flatten_cons, flatten_cons, ← append_assoc, take_append_drop]

variable (sound : s.Sound first)
include sound

theorem Sender.Sound.unacked_send (segment : Segment) :
    (s.send segment).nextSendSeqNr = numbered first (s.send segment).sent.length ∧
      ∀ p ∈ (s.send segment).unackedPackets,
        p.seqNr = numbered first p.index ∧ (s.send segment).sent[p.index]? = some p.segment := by
  refine ⟨?_, fun p listed => ?_⟩
  · simp only [send, length_append, length_singleton, sound.next, numbered_succ]
  · rcases mem_append.mp listed with old | new
    · obtain ⟨seqNr, place⟩ := sound.unacked p old
      exact ⟨seqNr, place_append place _⟩
    · obtain rfl := mem_singleton.mp new
      exact ⟨sound.next, getElem?_concat_length⟩

theorem Sender.Sound.isFin_of_unsent (unsent : s.localFinSent = false) (place : s.sent[i]? = some segment) :
    segment.isFin = false := by
  by_contra isFin
  have sent := (sound.last i segment place (Bool.of_not_eq_false isFin)).2.2
  rw [unsent] at sent
  cases sent

theorem Sender.Sound.eq_of_isFin (unsent : s.localFinSent = false) (place : (s.send added).sent[i]? = some segment)
    (isFin : segment.isFin = true) : i = s.sent.length ∧ segment = added := by
  rcases Nat.lt_trichotomy i s.sent.length with old | new | beyond
  · rw [send, getElem?_append_left old] at place
    rw [sound.isFin_of_unsent unsent place] at isFin
    cases isFin
  · subst new
    rw [send, getElem?_concat_length] at place
    exact ⟨rfl, (some.inj place).symm⟩
  · rw [send, getElem?_eq_none (by simp; omega)] at place
    cases place

theorem Sender.Sound.flush (run : s.flush maxWindowBytes packetSize maxSize = some (t, segment)) :
    t.Sound first ∧ ∃ rest, t = { s with pendingPayloads := rest }.send segment := by
  dsimp only [Sender.flush] at run
  split_ifs at run with full closed
  obtain ⟨⟨payload, rest⟩, popped, run⟩ := map_eq_some_iff.mp run
  cases run
  have waiting := popNextPayloadChunk_flatten popped
  have unsent : s.localFinSent = false := by
    by_contra sent
    rw [(sound.finished (Bool.of_not_eq_false sent)).2] at popped
    cases popped
  obtain ⟨next, unacked⟩ := sound.unacked_send ⟨false, payload⟩
  refine ⟨⟨next, unacked, ?_, fun i segment place isFin => ?_, fun sent => ?_, ?_⟩, rest, rfl⟩
  · simp only [send, length_append, length_singleton]
    omega
  · obtain ⟨-, rfl⟩ := sound.eq_of_isFin unsent place isFin
    cases isFin
  · cases unsent.symm.trans sent
  · simp only [send, flatMap_append, flatMap_cons, flatMap_nil, append_nil]
    rw [sound.written, waiting]
    simp only [append_assoc]

theorem Sender.Sound.sendFin (unsent : s.localFinSent = false) (ended : s.localEof = true)
    (nothing : s.pendingPayloads = []) (acknowledged : s.unackedPackets = []) :
    { s.send ⟨true, []⟩ with localFinSent := true }.Sound first := by
  obtain ⟨next, unacked⟩ := sound.unacked_send ⟨true, []⟩
  refine ⟨next, unacked, ?_, fun i segment place isFin => ?_, fun _ => ⟨ended, nothing⟩, ?_⟩
  · simp only [send, acknowledged, nil_append, length_singleton]
    decide
  · obtain ⟨rfl, rfl⟩ := sound.eq_of_isFin unsent place isFin
    exact ⟨by simp [send], rfl, rfl⟩
  · simp only [send, flatMap_append, flatMap_cons, flatMap_nil, append_nil]
    exact sound.written

end Sending

section Receiving

structure Receiver.Sound (first : UInt16) (sent : List Segment) (r : Receiver) : Prop where
  last : r.lastRemoteSeqNr = numbered first r.received - 1
  taken : r.received ≤ sent.length
  held : ∀ seqNr payload, r.outOfOrderPayloads.lookup seqNr = some payload →
    ∃ i segment, r.received ≤ i ∧ sent[i]? = some segment ∧ seqNr = numbered first i ∧ payload = segment.payload ∧
      (segment.isFin = true → r.remoteFinSeqNr = some seqNr)
  fin : ∀ seqNr, r.remoteFinSeqNr = some seqNr →
    ∃ i segment, sent[i]? = some segment ∧ segment.isFin = true ∧ seqNr = numbered first i
  ended : r.shutdown = true ↔ ∃ i segment, i < r.received ∧ sent[i]? = some segment ∧ segment.isFin = true
  delivered : r.delivered = (sent.take r.received).flatMap (·.payload)

/-- What comes next is not buffered. -/
def Receiver.Settled (r : Receiver) : Prop := r.expectedSeqNr ∉ r.outOfOrderPayloads

/-- The segment at a place was taken or is held. -/
def Receiver.Has (first : UInt16) (r : Receiver) (i : ℕ) : Prop :=
  i < r.received ∨ i < r.received + 2 ^ 15 ∧ numbered first i ∈ r.outOfOrderPayloads

structure Receiver.Advances (first : UInt16) (r t : Receiver) : Prop where
  received : r.received ≤ t.received
  has : ∀ i, r.Has first i → t.Has first i

theorem Receiver.Advances.refl {r : Receiver} : r.Advances first r := ⟨le_refl _, fun _ has => has⟩

theorem Receiver.Advances.trans {r t u : Receiver} (left : r.Advances first t) (right : t.Advances first u) :
    r.Advances first u :=
  ⟨left.received.trans right.received, fun i has => right.has i (left.has i has)⟩

variable {r : Receiver}

section

variable (sound : r.Sound first sent)
include sound

theorem Receiver.Sound.expectedSeqNr : r.expectedSeqNr = numbered first r.received := by
  rw [Receiver.expectedSeqNr, sound.last, UInt16.sub_add_cancel]

theorem Receiver.Sound.send (segment : Segment) : r.Sound first (sent ++ [segment]) where
  last := sound.last
  taken := by
    rw [length_append]
    exact sound.taken.trans (Nat.le_add_right ..)
  held seqNr payload buffered := by
    obtain ⟨i, other, behind, place, rest⟩ := sound.held seqNr payload buffered
    exact ⟨i, other, behind, place_append place _, rest⟩
  fin seqNr marked := by
    obtain ⟨i, other, place, rest⟩ := sound.fin seqNr marked
    exact ⟨i, other, place_append place _, rest⟩
  ended := by
    rw [sound.ended]
    refine exists₂_congr fun i other => and_congr_right fun before => ?_
    rw [getElem?_append_left (before.trans_le sound.taken)]
  delivered := by rw [sound.delivered, take_append_of_le_length sound.taken]

theorem Receiver.Sound.lt_of_settled (settled : r.Settled) (behind : r.received ≤ i)
    (buffered : r.outOfOrderPayloads.lookup (numbered first i) = some payload) : r.received < i := by
  rcases Nat.lt_or_eq_of_le behind with later | rfl
  · exact later
  · rw [Settled, sound.expectedSeqNr, ← lookup_eq_none, buffered] at settled
    cases settled

/-- Leaving out the next segment leaves the later ones. -/
theorem Receiver.Sound.erase :
    { r with outOfOrderPayloads := r.outOfOrderPayloads.erase r.expectedSeqNr }.Sound first sent :=
  { sound with held := fun seqNr payload buffered => sound.held seqNr payload (lookup_of_erase buffered) }

theorem Receiver.Sound.take (settled : r.Settled) (next : sent[r.received]? = some segment) (closed : Bool)
    (closes : closed = true ↔ r.shutdown = true ∨ segment.isFin = true) :
    { (r.deliver segment.payload).record r.expectedSeqNr with shutdown := closed }.Sound first sent where
  last := by
    rw [sound.expectedSeqNr]
    change _ = numbered first (r.received + 1) - 1
    rw [numbered_succ, UInt16.add_sub_cancel]
    rfl
  taken := lt_of_place next
  held seqNr payload buffered := by
    obtain ⟨i, other, behind, place, rfl, rest⟩ := sound.held seqNr payload buffered
    exact ⟨i, other, sound.lt_of_settled settled behind buffered, place, rfl, rest⟩
  fin := sound.fin
  ended := by
    refine closes.trans ⟨?_, ?_⟩
    · rintro (ended | isFin)
      · obtain ⟨i, other, before, rest⟩ := sound.ended.mp ended
        exact ⟨i, other, Nat.lt_succ_of_lt before, rest⟩
      · exact ⟨r.received, segment, Nat.lt_succ_self _, next, isFin⟩
    · rintro ⟨i, other, before, place, isFin⟩
      rcases Nat.lt_or_eq_of_le (Nat.le_of_lt_succ before) with earlier | rfl
      · exact .inl (sound.ended.mpr ⟨i, other, earlier, place, isFin⟩)
      · exact .inr (mem_unique next place ▸ isFin)
  delivered := by
    simp only [record, deliver]
    rw [sound.delivered, take_add_one, next, toList_some, flatMap_append, flatMap_singleton]

theorem Receiver.Sound.takeFin (settled : r.Settled) (next : sent[r.received]? = some segment)
    (isFin : segment.isFin = true) (empty : segment.payload = []) :
    { r.record r.expectedSeqNr with shutdown := true }.Sound first sent := by
  have taken := sound.take settled next true (by simp [isFin])
  rwa [empty, deliver, append_nil] at taken

theorem Receiver.Sound.settled_at_end (complete : r.received = sent.length) : r.Settled := by
  intro buffered
  obtain ⟨payload, found⟩ := Option.isSome_iff_exists.mp (lookup_isSome.mpr buffered)
  obtain ⟨i, segment, behind, place, -⟩ := sound.held _ payload found
  have := lt_of_place place
  omega

end

theorem Receiver.Sound.has_of_record {t : Receiver} (sound : r.Sound first sent) (has : r.Has first i)
    (received : t.received = r.received + 1)
    (buffered : ∀ seqNr ∈ r.outOfOrderPayloads, seqNr ≠ r.expectedSeqNr → seqNr ∈ t.outOfOrderPayloads) :
    t.Has first i := by
  rcases Nat.lt_or_ge i (r.received + 1) with before | behind
  · exact .inl (received ▸ before)
  rcases has with taken | ⟨near, held⟩
  · omega
  refine .inr ⟨by omega, buffered _ held fun same => ?_⟩
  rw [sound.expectedSeqNr] at same
  have := numbered_inj same (by omega) (by omega)
  omega

structure Receiver.Reaches (first : UInt16) (sent : List Segment) (r t : Receiver) : Prop where
  sound : t.Sound first sent
  settled : t.Settled
  advances : r.Advances first t

def EndsStream (sent : List Segment) : Prop :=
  ∀ i segment, sent[i]? = some segment → segment.isFin = true → i + 1 = sent.length ∧ segment.payload = []

/-- The result of a loop that tells whether it came to the end of the stream. -/
def Receiver.closing (result : Receiver × Bool) : Receiver :=
  if result.2 then { result.1 with shutdown := true } else result.1

variable (sound : r.Sound first sent)
include sound

/-- The loop that empties the buffer takes what comes next until it is not there. -/
theorem Receiver.Sound.deliverBufferedFrom {rounds : ℕ} (ends : EndsStream sent) (ahead : sent.length ≤ r.received + 98)
    (enough : r.outOfOrderPayloads.entries.length ≤ rounds) :
    r.Reaches first sent (closing (deliverBufferedFrom rounds r)) := by
  induction rounds generalizing r with
  | zero =>
    refine ⟨sound, fun buffered => ?_, .refl⟩
    have buffered : r.expectedSeqNr ∈ r.outOfOrderPayloads := buffered
    rw [AList.mem_keys, AList.keys, length_eq_zero_iff.mp (Nat.le_zero.mp enough)] at buffered
    cases buffered
  | succ rounds ih =>
    rw [deliverBufferedFrom]
    split
    · rename_i absent
      exact ⟨sound, lookup_eq_none.mp absent, .refl⟩
    rename_i payload found
    obtain ⟨i, segment, behind, place, number, rfl, marked⟩ := sound.held _ payload found
    have bound := lt_of_place place
    have here : i = r.received := by
      rw [sound.expectedSeqNr] at number
      exact (numbered_inj number (by omega) (by omega)).symm
    subst here
    have taken := sound.erase
    have settled : { r with outOfOrderPayloads := r.outOfOrderPayloads.erase r.expectedSeqNr }.Settled :=
      lookup_eq_none.mp (lookup_erase ..)
    have others : ∀ seqNr ∈ r.outOfOrderPayloads, seqNr ≠ r.expectedSeqNr →
        seqNr ∈ r.outOfOrderPayloads.erase r.expectedSeqNr := fun seqNr buffered differs =>
      mem_erase.mpr ⟨differs, buffered⟩
    split
    · -- The marked number is that of a segment that ends the stream, and no other segment has it.
      rename_i isEnd
      obtain ⟨j, last, lastPlace, isFin, lastNumber⟩ := sound.fin _ isEnd
      obtain ⟨final, empty⟩ := ends j last lastPlace isFin
      have same : j = r.received := numbered_inj (lastNumber.symm.trans sound.expectedSeqNr) (by omega) (by omega)
      subst same
      have reached := taken.takeFin settled lastPlace isFin empty
      exact ⟨reached, reached.settled_at_end final, ⟨Nat.le_succ _, fun k has => sound.has_of_record has rfl others⟩⟩
    · rename_i notEnd
      have data : segment.isFin = false := by
        by_contra isFin
        exact notEnd (marked (Bool.of_not_eq_false isFin))
      have next := taken.take settled place r.shutdown (by simp [data])
      have fewer : (r.outOfOrderPayloads.erase r.expectedSeqNr).entries.length ≤ rounds := by
        have member : r.expectedSeqNr ∈ r.outOfOrderPayloads.keys := mem_keys.mp (lookup_isSome.mp (found ▸ rfl))
        have count := length_erase_of_mem member
        have length (m : AList fun _ : UInt16 => Bytes) : m.keys.length = m.entries.length := length_map ..
        rw [← keys_erase, length, length] at count
        omega
      have reached := ih next (by dsimp only [record, deliver]; omega) fewer
      refine ⟨reached.sound, reached.settled, .trans ⟨Nat.le_succ _, fun k has => ?_⟩ reached.advances⟩
      exact sound.has_of_record has rfl others

theorem Receiver.Sound.buffer (settled : r.Settled) (place : sent[i]? = some segment) (later : r.received < i)
    (near : i < r.received + 2 ^ 16) (marked : segment.isFin = true → r.remoteFinSeqNr = some (numbered first i)) :
    r.Reaches first sent
      { r with outOfOrderPayloads := r.outOfOrderPayloads.insert (numbered first i) segment.payload } where
  sound :=
    { sound with
      held := fun seqNr payload buffered => by
        rw [lookup_insert_ite] at buffered
        split_ifs at buffered with new
        · exact ⟨i, segment, later.le, place, new, (some.inj buffered).symm, new ▸ marked⟩
        · exact sound.held seqNr payload buffered }
  settled buffered := by
    rcases (mem_insert _).mp buffered with same | old
    · have number := sound.expectedSeqNr.symm.trans same
      have := numbered_inj number (by omega) near
      omega
    · exact settled old
  advances := by
    refine ⟨le_refl _, fun j has => has.imp_right fun ⟨close, old⟩ => ⟨close, ?_⟩⟩
    exact (mem_insert _).mpr (.inr old)

theorem Receiver.Sound.mark (ends : EndsStream sent) (place : sent[i]? = some segment) (isFin : segment.isFin = true) :
    { r with remoteFinSeqNr := some (numbered first i) }.Sound first sent :=
  { sound with
    held := fun seqNr payload buffered => by
      obtain ⟨j, other, behind, otherPlace, rfl, same, -⟩ := sound.held seqNr payload buffered
      refine ⟨j, other, behind, otherPlace, rfl, same, fun otherFin => ?_⟩
      have : j = i := by
        have := (ends j other otherPlace otherFin).1
        have := (ends i segment place isFin).1
        omega
      rw [this]
    fin := fun seqNr marked => ⟨i, segment, place, isFin, (some.inj marked).symm⟩ }

section

variable (settled : r.Settled) (ends : EndsStream sent) (ahead : sent.length ≤ r.received + 98)
  (place : sent[i]? = some segment)
include settled ends ahead place

theorem Receiver.Sound.processData (data : segment.isFin = false) (recent : sent.length ≤ i + 2 ^ 15) :
    r.Reaches first sent (r.processData (numbered first i) segment.payload).1 ∧
      ((r.processData (numbered first i) segment.payload).2 = true →
        (r.processData (numbered first i) segment.payload).1.shutdown = true) := by
  have bound := lt_of_place place
  have taken := sound.taken
  unfold Receiver.processData
  split_ifs with expected beyond buffered
  · rw [sound.expectedSeqNr] at expected
    obtain rfl : i = r.received := numbered_inj expected (by omega) (by omega)
    have next : ((r.deliver segment.payload).record r.expectedSeqNr).Sound first sent :=
      sound.take settled place r.shutdown (by simp [data])
    rw [sound.expectedSeqNr] at next
    have reached := next.deliverBufferedFrom ends (by dsimp only [record, deliver]; omega) (le_refl _)
    have first : r.Advances first ((r.deliver segment.payload).record (numbered first r.received)) :=
      ⟨Nat.le_succ _, fun k has => sound.has_of_record has rfl fun _ buffered _ => buffered⟩
    rw [Receiver.deliverBufferedPayloads]
    generalize Receiver.deliverBufferedFrom _ _ = result at reached ⊢
    obtain ⟨t, _ | _⟩ := result
    · exact ⟨⟨reached.sound, reached.settled, first.trans reached.advances⟩, nofun⟩
    · exact ⟨⟨reached.sound, reached.settled, first.trans reached.advances⟩, fun _ => rfl⟩
  · exact ⟨⟨sound, settled, .refl⟩, nofun⟩
  · rw [Bool.and_eq_true, sound.expectedSeqNr] at beyond
    have later := lt_of_seqGt beyond.1 (by omega)
    exact ⟨sound.buffer settled place later (by omega) (by rw [data]; nofun), nofun⟩
  · exact ⟨⟨sound, settled, .refl⟩, nofun⟩

theorem Receiver.Sound.processFin (isFin : segment.isFin = true) (recent : sent.length ≤ i + 2 ^ 15) :
    r.Reaches first sent (r.processFin (numbered first i)).1 ∧
      ((r.processFin (numbered first i)).2 = true → (r.processFin (numbered first i)).1.shutdown = true) := by
  have taken := sound.taken
  obtain ⟨final, empty⟩ := ends i segment place isFin
  unfold Receiver.processFin
  split_ifs with expected beyond buffered
  · rw [sound.expectedSeqNr] at expected
    obtain rfl : i = r.received := numbered_inj expected (by omega) (by omega)
    have marked := sound.mark ends place isFin
    have reached := marked.takeFin settled place isFin empty
    rw [marked.expectedSeqNr] at reached
    refine ⟨⟨reached, reached.settled_at_end final, ⟨Nat.le_succ _, fun k has => ?_⟩⟩, fun _ => rfl⟩
    exact sound.has_of_record has rfl fun _ buffered _ => buffered
  · exact ⟨⟨sound.mark ends place isFin, settled, ⟨le_refl _, fun _ has => has⟩⟩, nofun⟩
  · rw [Bool.and_eq_true, sound.expectedSeqNr] at beyond
    have later := lt_of_seqGt beyond.1 (by omega)
    have marked := sound.mark ends place isFin
    have reached := marked.buffer settled place later (by dsimp only; omega) fun _ => rfl
    rw [empty] at reached
    exact ⟨⟨reached.sound, reached.settled, ⟨reached.advances.received, fun k has => reached.advances.has k has⟩⟩,
      nofun⟩
  · -- The noted end lies behind what was taken, so it was taken.
    refine ⟨⟨sound, settled, .refl⟩, fun reported => ?_⟩
    obtain ⟨fin, noted, passed⟩ := (Option.any_eq_true _ _).mp reported
    obtain ⟨j, last, lastPlace, lastFin, rfl⟩ := sound.fin fin noted
    have lastBound := lt_of_place lastPlace
    rw [sound.last] at passed
    refine sound.ended.mpr ⟨j, last, Nat.not_le.mp fun behind => ?_, lastPlace, lastFin⟩
    rw [not_seqLte_ack behind (by omega)] at passed
    cases passed

end

end Receiving

end Superseedr.Utp
