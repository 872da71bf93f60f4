import Superseedr.Soundness.DiskReads
import Superseedr.Soundness.Validation

/-! # What is read for uploads

A request of a peer names a piece that has to be done, an offset and a length. The offset is not compared with
the size of the piece: the range it starts is only cut off by the end of the payload. It reaches into the pieces
behind the requested one, which have to be done as well if nothing else is to be sent.
-/

namespace Superseedr

open BlockInfo Option TorrentState

variable {position : ℕ} {reader : PeerId}

/-- A byte of the payload lies in a piece that is done. -/
def TorrentState.InDonePiece (s : TorrentState) (torrent : Torrent) (position : ℕ) : Prop :=
  ∃ p, p * torrent.pieceLen ≤ position ∧ position < (p + 1) * torrent.pieceLen ∧ s.IsDone p

namespace TorrentState

variable {s t : TorrentState} {torrent : Torrent} {k : PeerId} {info : BlockInfo} {disk : Disk} {data : Bytes}
  {start length p offset : ℕ} {effects : List Effect} {host : Host}

/-- The piece of a byte is found by division. -/
theorem inDonePiece_iff (positive : 0 < torrent.pieceLen) :
    s.InDonePiece torrent position ↔ s.IsDone (position / torrent.pieceLen) := by
  constructor
  · rintro ⟨p, first, last, done⟩
    rwa [Nat.div_eq_of_lt_le first last]
  · intro done
    refine ⟨position / torrent.pieceLen, Nat.div_mul_le_self _ _, ?_, done⟩
    exact (Nat.div_lt_iff_lt_mul positive).mp (Nat.lt_succ_self _)

/-- The bytes of a range lie in done pieces exactly if all pieces that the range meets are done. -/
theorem forall_inDonePiece_iff (positive : 0 < torrent.pieceLen) (nonempty : 0 < length) :
    (∀ position, start ≤ position → position < start + length → s.InDonePiece torrent position) ↔
      ∀ q, start / torrent.pieceLen ≤ q → q ≤ (start + length - 1) / torrent.pieceLen → s.IsDone q := by
  constructor
  · intro inside q first last
    have begins : q * torrent.pieceLen ≤ start + length - 1 := (Nat.le_div_iff_mul_le positive).mp last
    have ends : start < (q + 1) * torrent.pieceLen := (Nat.div_lt_iff_lt_mul positive).mp (by omega)
    have here : max start (q * torrent.pieceLen) / torrent.pieceLen = q := by
      refine Nat.div_eq_of_lt_le (le_max_right _ _) (max_lt ends ?_)
      exact Nat.mul_lt_mul_of_pos_right (Nat.lt_succ_self q) positive
    have done := inside (max start (q * torrent.pieceLen)) (le_max_left _ _) (by omega)
    rwa [inDonePiece_iff positive, here] at done
  · intro done position first last
    rw [inDonePiece_iff positive]
    apply done
    · exact Nat.div_le_div_right first
    · exact Nat.div_le_div_right (by omega)

theorem readFromDisk_of_requestUpload (run : update host s (.requestUpload k p offset length) = some (t, effects))
    (emitted : .readFromDisk reader info ∈ effects) :
    reader = k ∧ info = ⟨p, offset, length⟩ ∧ s.IsDone p ∧ t = { s with lastActivity := .sendingPiece p } := by
  simp only [update, some.injEq] at run
  unfold requestUpload at run
  split at run
  · obtain ⟨-, rfl⟩ := Prod.mk.injEq .. ▸ run
    simp at emitted
  obtain ⟨rfl, rfl⟩ := Prod.mk.injEq .. ▸ run
  split at emitted
  case isTrue allowed =>
    obtain ⟨peer, -, granted⟩ := (any_eq_true _ _).mp allowed
    simp only [Bool.and_eq_true, decide_eq_true_eq] at granted
    simp only [List.mem_singleton, Effect.readFromDisk.injEq] at emitted
    exact ⟨emitted.1, emitted.2, granted.2, rfl⟩
  case isFalse => simp at emitted

/-- A block that is sent was read from the range of the request. -/
theorem of_readBlock (read : s.readBlock disk k info = some data) :
    ∃ torrent layout, s.torrent = some torrent ∧ s.multiFileInfo = some layout ∧
      readDataFromDisk disk layout (info.globalOffset torrent) info.length = some data := by
  unfold readBlock at read
  obtain ⟨-, -, read⟩ := bind_eq_some_iff.mp read
  obtain ⟨layout, stored, read⟩ := bind_eq_some_iff.mp read
  obtain ⟨torrent, loaded, read⟩ := bind_eq_some_iff.mp read
  exact ⟨torrent, layout, loaded, stored, read⟩

/-- What is read for an upload lies in done pieces exactly if the request is empty, or all pieces from the one of
its first byte to the one of its last byte are done. -/
theorem upload_reads_done_iff (loaded : s.torrent = some torrent) (start : ℕ)
    (begins : start = u64 (u64 (p * torrent.pieceLen) + offset))
    (run : update host s (.requestUpload k p offset length) = some (t, effects))
    (emitted : .readFromDisk reader info ∈ effects) (read : t.readBlock disk reader info = some data) :
    (∀ position, info.globalOffset torrent ≤ position → position < info.globalOffset torrent + data.length →
        t.InDonePiece torrent position) ↔
      length = 0 ∨ 0 < torrent.pieceLen ∧
        ∀ q, start / torrent.pieceLen ≤ q → q ≤ (start + length - 1) / torrent.pieceLen → s.IsDone q := by
  obtain ⟨rfl, rfl, -, rfl⟩ := readFromDisk_of_requestUpload run emitted
  obtain ⟨torrent', layout, loaded', -, read⟩ := of_readBlock read
  obtain rfl := mem_unique loaded loaded'
  rw [length_readDataFromDisk read]
  simp only [globalOffset, ← begins]
  rcases Nat.eq_zero_or_pos length with rfl | nonempty
  · simp only [true_or, iff_true]
    intro position first last
    omega
  rcases Nat.eq_zero_or_pos torrent.pieceLen with zero | positive
  · constructor
    · intro inside
      obtain ⟨q, -, behind, -⟩ := inside start le_rfl (by omega)
      rw [zero] at behind
      omega
    · rintro (rfl | ⟨positive, -⟩) <;> omega
  rw [forall_inDonePiece_iff positive nonempty]
  constructor
  · exact fun done => .inr ⟨positive, done⟩
  · rintro (rfl | ⟨-, done⟩)
    · omega
    · exact done

end TorrentState

def servedPeer : List Event :=
  [.handle {} (.setUserTorrentConfig "d" ∅ none), .handle {} (.metadataReceived (plainTorrent 2) 0),
    .handle {} (.validationComplete [0]), .handle {} (.registerPeer "k" none), .handle {} (.peerInterested "k"),
    .handle {} (.recalculateChokes 0)]

/-- The disk on which every file holds the same bytes. -/
def sameFiles : Disk := fun _ => .file [1, 2, 3, 4]

def Answers (length : ℕ) (block : Bytes) (s : TorrentState) : Prop :=
  (∃ torrent ∈ s.torrent, torrent.pieceLen = 4) ∧ s.IsDone 0 ∧ ¬s.IsDone 1 ∧
    ∃ next ∈ update {} s (.requestUpload "k" 0 0 length), .readFromDisk "k" ⟨0, 0, length⟩ ∈ next.2 ∧
      next.1.readBlock sameFiles "k" ⟨0, 0, length⟩ = some block

instance (length : ℕ) (block : Bytes) : DecidablePred (Answers length block) := fun s => by
  unfold Answers
  infer_instance

/-- Eight bytes are sent for a request into a piece of four bytes, of which the last four lie in a missing piece. -/
theorem upload_reads_missing_piece : ∃ s torrent t effects, Reachable (fun _ _ => True) s ∧
    s.torrent = some torrent ∧ update {} s (.requestUpload "k" 0 0 8) = some (t, effects) ∧
    .readFromDisk "k" ⟨0, 0, 8⟩ ∈ effects ∧
    t.readBlock sameFiles "k" ⟨0, 0, 8⟩ = some [1, 2, 3, 4, 1, 2, 3, 4] ∧
    globalOffset ⟨0, 0, 8⟩ torrent = 0 ∧ ¬t.InDonePiece torrent 4 := by
  obtain ⟨s, reachable, ⟨torrent, loaded, pieceLen⟩, -, missing, ⟨t, effects⟩, handled, emitted, read⟩ :=
    exists_reached servedPeer (Answers 8 [1, 2, 3, 4, 1, 2, 3, 4]) (by decide +kernel)
  refine ⟨s, torrent, t, effects, reachable, loaded, handled, emitted, read, by simp [globalOffset, u64], ?_⟩
  obtain ⟨-, -, -, rfl⟩ := readFromDisk_of_requestUpload handled emitted
  rw [inDonePiece_iff (by omega), pieceLen]
  exact missing

/-- A request for the whole first piece reads nothing but this piece. -/
theorem upload_reads_done_piece : ∃ s torrent t effects, Reachable (fun _ _ => True) s ∧
    s.torrent = some torrent ∧ update {} s (.requestUpload "k" 0 0 4) = some (t, effects) ∧
    .readFromDisk "k" ⟨0, 0, 4⟩ ∈ effects ∧
    t.readBlock sameFiles "k" ⟨0, 0, 4⟩ = some [1, 2, 3, 4] ∧
    ∀ position, 0 ≤ position → position < 4 → t.InDonePiece torrent position := by
  obtain ⟨s, reachable, ⟨torrent, loaded, pieceLen⟩, done, -, ⟨t, effects⟩, handled, emitted, read⟩ :=
    exists_reached servedPeer (Answers 4 [1, 2, 3, 4]) (by decide +kernel)
  have start : globalOffset ⟨0, 0, 4⟩ torrent = 0 := by simp [globalOffset, u64]
  have inside := (upload_reads_done_iff loaded 0 (by simp [u64]) handled emitted read).mpr
    (.inr ⟨by omega, fun q first last => ?_⟩)
  · rw [start] at inside
    exact ⟨s, torrent, t, effects, reachable, loaded, handled, emitted, read, inside⟩
  · rw [pieceLen] at last
    obtain rfl : q = 0 := by omega
    exact done

end Superseedr
