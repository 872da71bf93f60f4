import Superseedr.Model.MetadataFetch
import Superseedr.ToMathlib.LabeledSteps

/-! # Metadata is put together in order

The session does not look at the header of a message. A request or a reject of the peer that is shorter than the
piece waited for is passed over, and any other is taken for the piece.
-/

namespace Superseedr

open List

/-- A session and its peer, with the number of pieces the peer has sent and everything the session has sent. -/
structure MetadataExchange where
  session : MetadataFetch
  answered : ℕ := 0
  outputs : List MetadataOutput := []

namespace MetadataExchange

/-- The peer sends the next piece behind a header, or a request or a reject. -/
inductive Event where
  | data (header : Bytes)
  | other (payload : Bytes)

variable {fromInfoBytes : Bytes → Option Torrent} {blob : Bytes} {size : Int64} {x y : MetadataExchange}

def receive (fromInfoBytes : Bytes → Option Torrent) (x : MetadataExchange) (payload : Bytes) : MetadataExchange :=
  let result := x.session.handleExtendedMessage fromInfoBytes payload
  { x with session := result.1, outputs := x.outputs ++ result.2 }

/-- The piece the peer sends next. -/
def piece (blob : Bytes) (x : MetadataExchange) : Bytes := (blob.drop (x.answered * 16384)).take 16384

def next (fromInfoBytes : Bytes → Option Torrent) (blob : Bytes) (x : MetadataExchange) :
    Event → Option MetadataExchange
  | .data header =>
    if x.answered * 16384 < blob.length then
      some { x.receive fromInfoBytes (header ++ x.piece blob) with answered := x.answered + 1 }
    else none
  | .other payload => some (x.receive fromInfoBytes payload)

abbrev Run (fromInfoBytes : Bytes → Option Torrent) (blob : Bytes) (size : Int64)
    (guard : MetadataExchange → Event → Prop) : MetadataExchange → Prop :=
  Steps (fun event x y => x.next fromInfoBytes blob event = some y) guard { session := { metadataSize := some size } }

structure Orderly (blob : Bytes) (size : Int64) (x : MetadataExchange) : Prop where
  size : x.session.metadataSize = some size
  fetching : x.session.peerSessionEstablished = false
  buffer : x.session.peerTorrentMetadataPieces = blob.take (x.answered * 16384)
  count : x.answered * 16384 < blob.length → x.session.peerTorrentMetadataPieceCount = x.answered
  reported : ∀ torrent length, .metadataTorrent torrent length ∈ x.outputs → blob.length ≤ x.answered * 16384

/-- Requests and rejects are shorter than the piece that is waited for. -/
def PassedOver (size : Int64) (x : MetadataExchange) : Event → Prop
  | .other payload => payload.length < x.session.expectedDataLen size
  | .data _ => True

theorem Orderly.data (orderly : Orderly blob size x) (sized : size.toInt = blob.length)
    (more : x.answered * 16384 < blob.length) (header : Bytes) :
    Orderly blob size { x.receive fromInfoBytes (header ++ x.piece blob) with answered := x.answered + 1 } := by
  obtain ⟨known, fetching, buffer, count, reported⟩ := orderly
  have total : asU64 size.toInt = blob.length := by
    have small := size.toInt_lt
    rw [asU64]
    omega
  have expected : x.session.expectedDataLen size = (x.piece blob).length := by
    rw [MetadataFetch.expectedDataLen, count more, total, piece, length_take, length_drop]
  have pieces : x.session.peerTorrentMetadataPieces ++ x.piece blob = blob.take ((x.answered + 1) * 16384) := by
    rw [buffer, Nat.succ_mul, take_add, piece]
  have unreported : ∀ torrent length, .metadataTorrent torrent length ∉ x.outputs := fun torrent length member =>
    absurd (reported torrent length member) (not_le.mpr more)
  simp only [receive, MetadataFetch.handleExtendedMessage, known, expected, total, length_append, Nat.add_sub_cancel,
    drop_left, pieces]
  rw [if_pos ⟨fetching, Nat.le_add_left ..⟩]
  split_ifs with last
  · rw [length_take] at last
    exact ⟨rfl, fetching, rfl, fun _ => by dsimp only at *; omega, fun _ _ _ => by dsimp only; omega⟩
  refine ⟨rfl, fetching, rfl, fun _ => congrArg (· + 1) (count more), fun torrent length member => ?_⟩
  rcases mem_append.mp member with early | late
  · exact absurd early (unreported torrent length)
  · cases mem_singleton.mp late

theorem Orderly.next {event : Event} (orderly : Orderly blob size x) (sized : size.toInt = blob.length)
    (passed : PassedOver size x event) (step : x.next fromInfoBytes blob event = some y) : Orderly blob size y := by
  cases event with
  | data header =>
    simp only [MetadataExchange.next] at step
    split_ifs at step with more
    cases step
    exact orderly.data sized more header
  | other payload =>
    cases step
    simp only [receive, MetadataFetch.handleExtendedMessage, orderly.size]
    rw [if_neg fun both => (passed : payload.length < _).not_ge both.2, append_nil]
    exact orderly

/-- In every run whose requests and rejects are passed over, the buffer is a beginning of the metadata, and metadata is
reported only when the buffer holds all of it. -/
theorem metadata_in_order (sized : size.toInt = blob.length) (run : Run fromInfoBytes blob size (PassedOver size) x) :
    x.session.peerTorrentMetadataPieces <+: blob ∧
      ∀ torrent length, .metadataTorrent torrent length ∈ x.outputs → x.session.peerTorrentMetadataPieces = blob := by
  have orderly := run.preserves (Orderly blob size) (fun x y event passed step before => before.next sized passed step)
    ⟨rfl, rfl, by simp, fun _ => rfl, nofun⟩
  rw [orderly.buffer]
  exact ⟨ take_prefix .., fun torrent length member => take_of_length_le (orderly.reported torrent length member)⟩

instance (size : Int64) (x : MetadataExchange) : (event : Event) → Decidable (PassedOver size x event)
  | .other _ => inferInstanceAs (Decidable (_ < _))
  | .data _ => inferInstanceAs (Decidable True)

def reject : Bytes := "d8:msg_typei2e5:piecei0ee".toUTF8.toList

/-- Thirty bytes of metadata, which the peer rejects to send before it does. -/
theorem metadata_in_order_rejected : ∃ x, Run (fun _ => none) (replicate 30 7) 30 (PassedOver 30) x ∧
    x.session.peerTorrentMetadataPieces.length = 30 ∧ x.session.peerTorrentMetadataPieces <+: replicate 30 7 := by
  obtain ⟨x, run, whole⟩ := Steps.exists_replay (PassedOver 30) (next (fun _ => none) (replicate 30 7))
    (fun x event => decide (PassedOver 30 x event)) [.other reject, .data "d8:msg_typei1e5:piecei0ee".toUTF8.toList]
    { session := { metadataSize := some 30 } } (fun x => x.session.peerTorrentMetadataPieces.length = 30)
    (fun _ _ _ => of_decide_eq_true) (by decide +kernel)
  exact ⟨x, run, whole, (metadata_in_order (by decide) run).1⟩

/-- A reject that is longer than the metadata is taken for it. -/
theorem reject_taken_for_metadata : ∃ x, Run (fun _ => none) [7, 8] 2 (fun _ _ => True) x ∧
    x.session.peerTorrentMetadataPieces = "ee".toUTF8.toList := by
  exact Steps.exists_replay _ (next (fun _ => none) [7, 8]) (fun _ _ => true) [.other reject]
    { session := { metadataSize := some 2 } } (fun x => x.session.peerTorrentMetadataPieces = "ee".toUTF8.toList)
    (by simp)
    (by decide +kernel)

end MetadataExchange

end Superseedr
