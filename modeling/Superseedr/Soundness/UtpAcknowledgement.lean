import Superseedr.Soundness.UtpDelivery

/-! # No false acknowledgement over uTP

A packet leaves the unacknowledged ones only when the receiver has handed out its payload or holds it. What the
mask of a selective acknowledgement says is exactly what is buffered in its reach, and a cumulative
acknowledgement of old or of unsent packets takes nothing away.
-/

namespace Superseedr.Utp

open List

variable {first : Bool → UInt16} {i : ℕ}

section Cumulative

variable {first : UInt16} {s : Sender} {a : ℕ}

/-- An acknowledgement of packets before all unacknowledged ones takes nothing away. -/
theorem Sender.Sound.acknowledge_stale (sound : s.Sound first) (stale : ∀ p ∈ s.unackedPackets, a ≤ p.index)
    (recent : s.sent.length ≤ a + 2 ^ 15) :
    acknowledgePackets s.unackedPackets (numbered first a - 1) [] s.nextSendSeqNr = s.unackedPackets := by
  unfold acknowledgePackets
  split_ifs
  · rfl
  refine filter_eq_self.mpr fun p listed => ?_
  obtain ⟨seqNr, place⟩ := sound.unacked p listed
  have bound := lt_of_place place
  have unmarked : selectiveAckContains [] (numbered first a - 1) p.seqNr = false := by
    rw [selectiveAckContains_eq, maskBit, getElem?_nil, Option.any_none, Bool.and_false]
  rw [unmarked, seqNr, not_seqLte_ack (stale p listed) (by omega)]
  rfl

/-- An acknowledgement of packets that were not sent takes nothing away. -/
theorem Sender.Sound.acknowledge_future (sound : s.Sound first) (future : s.sent.length < a)
    (near : a < s.sent.length + 2 ^ 15) (mask : Bytes) :
    acknowledgePackets s.unackedPackets (numbered first a - 1) mask s.nextSendSeqNr = s.unackedPackets := by
  unfold acknowledgePackets
  by_cases nothing : s.unackedPackets = []
  · rw [if_neg fun waiting => waiting.1 nothing, nothing, filter_nil]
  refine if_pos ⟨nothing, ?_⟩
  have distance : (numbered first a - 1 - (numbered first s.sent.length - 1)).toNat = a - s.sent.length := by
    rw [UInt16.toNat_sub, UInt16.toNat_sub, UInt16.toNat_sub, toNat_numbered, toNat_numbered]
    have : (1 : UInt16).toNat = 1 := rfl
    omega
  have half : (0x8000 : UInt16).toNat = 2 ^ 15 := rfl
  simp only [seqGt, sound.next, Bool.and_eq_true, decide_eq_true_eq, UInt16.lt_iff_toNat_lt, distance]
  refine ⟨fun same => ?_, by omega⟩
  rw [same, UInt16.sub_self] at distance
  have zero : (0 : UInt16).toNat = 0 := rfl
  omega

end Cumulative

namespace Connection

variable {c : Connection} {segment : Segment}

/-- A segment that is not kept any more was handed out, or is buffered under its number. -/
theorem Sound.taken_or_held (sound : c.Sound first) (side : Bool)
    (place : (c.endpoints side).sender.sent[i]? = some segment)
    (gone : ∀ p ∈ (c.endpoints side).sender.unackedPackets, p.index ≠ i) :
    i < (c.endpoints !side).receiver.received ∨
      (c.endpoints !side).receiver.outOfOrderPayloads.lookup (numbered (first side) i) = some segment.payload := by
  have link := (sound side).1
  have bound := lt_of_place place
  have ahead := link.ahead
  rcases Nat.lt_or_ge i (c.endpoints !side).receiver.received with before | behindTaken
  · exact .inl before
  rcases link.kept i bound with ⟨p, listed, same⟩ | taken | ⟨near, held⟩
  · exact absurd same (gone p listed)
  · exact .inl taken
  right
  obtain ⟨payload, found⟩ := Option.isSome_iff_exists.mp (AList.lookup_isSome.mpr held)
  obtain ⟨j, other, behind, otherPlace, number, rfl, -⟩ := link.receiver.held _ payload found
  have otherBound := lt_of_place otherPlace
  have same : i = j := numbered_inj number (by omega) (by omega)
  subst same
  rw [found, Option.mem_unique otherPlace place]

/-- No packet is acknowledged by mistake. In every run in which nothing too old arrives, a packet that was sent and is
not among the unacknowledged ones was handed out or is buffered; the mask of a selective acknowledgement says which
packets in its reach are buffered; and old and future cumulative acknowledgements take nothing away. -/
theorem no_false_acknowledgement :
    (∀ first c, Steps Move Fresh (established first) c → ∀ side i segment,
      (c.endpoints side).sender.sent[i]? = some segment →
      (∀ p ∈ (c.endpoints side).sender.unackedPackets, p.index ≠ i) →
        i < (c.endpoints !side).receiver.received ∧ (c.endpoints !side).receiver.delivered =
          ((c.endpoints side).sender.sent.take (c.endpoints !side).receiver.received).flatMap (·.payload) ∨
        (c.endpoints !side).receiver.outOfOrderPayloads.lookup (numbered (first side) i) = some segment.payload) ∧
    (∀ ackNr seqNr buffered, selectiveAckContains (selectiveAckFor ackNr buffered) ackNr seqNr = true ↔
      seqNr ∈ buffered ∧ 2 ≤ (seqNr - ackNr).toNat ∧ (seqNr - ackNr).toNat < 34) ∧
    ∀ first c, Steps Move Fresh (established first) c → ∀ side a,
      let s := (c.endpoints side).sender
      ((∀ p ∈ s.unackedPackets, a ≤ p.index) → s.sent.length ≤ a + 2 ^ 15 →
        acknowledgePackets s.unackedPackets (numbered (first side) a - 1) [] s.nextSendSeqNr = s.unackedPackets) ∧
      (s.sent.length < a → a < s.sent.length + 2 ^ 15 → ∀ mask,
        acknowledgePackets s.unackedPackets (numbered (first side) a - 1) mask s.nextSendSeqNr = s.unackedPackets) := by
  refine ⟨fun first c run side i segment place gone => ?_, fun ackNr seqNr buffered => ?_, fun first c run side a => ?_⟩
  · have sound := sound_of_run run
    exact (sound.taken_or_held side place gone).imp_left fun taken => ⟨taken, (sound side).1.receiver.delivered⟩
  · exact selectiveAckContains_selectiveAckFor ackNr seqNr buffered
  · have sound := (sound_of_run run side).1.sender
    exact ⟨sound.acknowledge_stale, sound.acknowledge_future⟩

/-- Three packets; the first is lost, the third arrives, and its acknowledgement leaves the other two. -/
def selective : List (Bool × Event) :=
  [(false, .write [1]), (false, .readLocal 1), (false, .write [2]), (false, .readLocal 1), (false, .write [3]),
    (false, .readLocal 1), (false, .flush 1200 150 1200), (false, .flush 1200 150 1200), (false, .flush 1200 150 1200),
    (true, .receive 2), (true, .sendState), (false, .receive 0)]

/-- The third packet leaves the unacknowledged ones, and it is held. -/
theorem no_false_acknowledgement_selective : ∃ c : Connection,
    (c.endpoints false).sender.unackedPackets.map (·.index) = [0, 1] ∧
    (2 < (c.endpoints true).receiver.received ∧ (c.endpoints true).receiver.delivered =
        ((c.endpoints false).sender.sent.take (c.endpoints true).receiver.received).flatMap (·.payload) ∨
      (c.endpoints true).receiver.outOfOrderPayloads.lookup (numbered 65534 2) = some [3]) := by
  obtain ⟨c, run, reached⟩ := exists_run (fun _ => 65534) Fresh selective
    (fun c => (c.endpoints false).sender.unackedPackets.map (·.index) = [0, 1] ∧
      (c.endpoints false).sender.sent[2]? = some (⟨false, [3]⟩ : Segment)) (by decide +kernel)
  refine ⟨c, reached.1, no_false_acknowledgement.1 _ c run false 2 _ reached.2 fun p listed same => ?_⟩
  have member := mem_map_of_mem (f := fun p : SentPacket => p.index) listed
  rw [reached.1, same] at member
  exact absurd member (by decide)

end Connection

end Superseedr.Utp
