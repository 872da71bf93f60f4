import Superseedr.Model.Client
import Superseedr.Soundness.Authenticity
import Superseedr.Soundness.SkippedPieces
import Superseedr.Soundness.Validation

/-! # Marked pieces were verified

A piece is marked as done when it was written after its hash was found right, when a validation lists it, or,
under the persisted flag, as soon as the metadata is there. If the flag is true only for a torrent whose pieces
were all verified, every mark is backed by a verification. The torrent as a whole is done when no wanted piece is
missing; as long as no piece is skipped this means that all pieces were verified.
-/

namespace Superseedr

open Scheduler TorrentState PieceManager List Option

variable {c : Scheduler.Core} {label : Scheduler.Label} {given : Torrent} {k : PeerId} {p : ℕ} {data : Bytes}

namespace Scheduler

structure Backed (torrent : Torrent) (verified : Finset ℕ) (c : Core) : Prop where
  sound : Sound c
  own : ∀ loaded, c.torrent = some loaded → loaded = torrent ∧ c.pm.bitfield.length = torrent.numPieces
  marked : ∀ p, c.pm.bitfield[p]? = some .done → p ∈ verified
  wanted : ∀ p, ¬c.pm.Skipped p
  complete : c.status = .done → ∀ p < c.pm.bitfield.length, p ∈ verified

variable {torrent : Torrent} {verified more : Finset ℕ} {c d : Core} {label : Label}

theorem Backed.mono (backed : Backed torrent verified c) (grows : verified ⊆ more) : Backed torrent more c where
  __ := backed
  marked p done := grows (backed.marked p done)
  complete done p inside := grows (backed.complete done p inside)

theorem Backed.lt_numPieces (backed : Backed torrent verified c) (inside : p < c.pm.bitfield.length) :
    p < torrent.numPieces := by
  cases loaded : c.torrent with
  | none =>
    rw [backed.sound.unloaded loaded] at inside
    cases inside
  | some found => exact (backed.own found loaded).2 ▸ inside

theorem Backed.verified_of_complete (backed : Backed torrent verified c) (nothing : ∀ p, ¬c.pm.Missing p)
    (inside : p < c.pm.bitfield.length) : p ∈ verified := by
  refine backed.marked p ?_
  rw [getElem?_eq_getElem inside]
  cases status : c.pm.bitfield[p] with
  | done => rfl
  | need =>
    refine absurd ?_ (nothing p)
    rw [Missing, getElem?_eq_getElem inside, status]

theorem Move.status_done (move : Move label c d) (done : d.status = .done) :
    c.status = .done ∨ label = .finish ∨ label = .seed := by
  cases move with
  | assign =>
    split_ifs at done
    exact .inl done
  | adopt | validate => cases done
  | wipe =>
    split_ifs at done
  | finish => exact .inr (.inl rfl)
  | seed => exact .inr (.inr rfl)
  | _ => exact .inl done

def Label.Supported (torrent : Torrent) (verified : Finset ℕ) : Label → Prop
  | .load _ => False
  | .complete p => p ∈ verified
  | .adopt completed => ∀ p ∈ completed, p < torrent.numPieces → p ∈ verified
  | .prioritize priorities => .skip ∉ priorities
  | _ => True

variable (backed : Backed torrent verified c) (addressable : label.Addressable)
  (supported : label.Supported torrent verified) (moved : Move label c d)
include backed moved

theorem Backed.move_complete (length : d.pm.bitfield.length = c.pm.bitfield.length) (done : d.status = .done)
    (inside : p < d.pm.bitfield.length) : p ∈ verified := by
  rw [length] at inside
  rcases moved.status_done done with before | rfl | rfl
  · exact backed.complete before p inside
  · cases moved with
    | finish _ complete =>
      exact backed.verified_of_complete (fun q missing => backed.wanted q (isComplete_eq_true complete missing)) inside
  cases moved with
  | seed complete =>
    refine backed.verified_of_complete (fun q missing => ?_) inside
    exact absurd (complete _ (mem_of_getElem? missing)) (by simp)

include supported

theorem Backed.move_marked (length : d.pm.bitfield.length = c.pm.bitfield.length)
    (done : d.pm.bitfield[p]? = some .done) : p ∈ verified := by
  have inside : p < c.pm.bitfield.length := length ▸ (List.getElem?_eq_some_iff.mp done).1
  rcases moved.done_cases done with ⟨before, -⟩ | rfl | ⟨completed, rfl, found⟩ | ⟨loaded, rfl⟩
  · exact backed.marked p before
  · exact supported
  · exact supported p found (backed.lt_numPieces inside)
  · cases supported

theorem Backed.move_wanted : ¬d.pm.Skipped p := by
  intro skipped
  by_cases repaints : label.Repaints
  · cases moved with
    | prioritize _ length run =>
      have repainted := applyPriorities_eq_some backed.sound.consistent length run
      exact supported (mem_of_getElem? (Reprioritized.new_of_skipped repainted skipped))
    | load => exact supported
    | wipe fresh =>
      subst fresh
      exact not_skipped_of_priorities_nil rfl skipped
    | _ => exact repaints
  · exact backed.wanted p ((moved.skipped_iff repaints).mp skipped)

include addressable

theorem Backed.move : Backed torrent verified d := by
  have unloaded : ∀ loaded, label ≠ .load loaded := by
    rintro loaded rfl
    exact supported
  have length := moved.length_bitfield backed.sound.consistent unloaded
  exact
    { sound := backed.sound.move addressable moved
      own := fun loaded known => by
        rw [moved.torrent unloaded] at known
        exact ⟨(backed.own loaded known).1, length.trans (backed.own loaded known).2⟩
      marked := fun _ done => backed.move_marked supported moved length done
      wanted := fun _ => backed.move_wanted supported moved
      complete := fun done _ inside => backed.move_complete moved length done inside }

end Scheduler

/-! ## Updates -/

section Updates

variable {torrent : Torrent} {verified : Finset ℕ} {host : Host} {s t : TorrentState} {a : Action}
  {effects : List Effect}

def TorrentState.WantsAll (s : TorrentState) : Prop :=
  ∀ priorities, s.calculatePiecePriorities = some priorities → .skip ∉ priorities

def Action.Supported (torrent : Torrent) (verified : Finset ℕ) (s : TorrentState) : Action → Prop
  | .metadataReceived given _ => given = torrent ∧ (s.filePriorities.keys ≠ [] →
      { s with torrent := some given, pieceManager := loadedPieces given s.torrentValidationStatus }.WantsAll)
  | .setUserTorrentConfig path priorities name => (s.configured path priorities name).WantsAll
  | .pieceWrittenToDisk _ p => p ∈ verified
  | .validationComplete completed => ∀ p ∈ completed, p < torrent.numPieces → p ∈ verified
  | _ => True

theorem Scheduler.Permits.supported (permits : Permits host s a c label) (supported : a.Supported torrent verified s)
    (loads : ∀ given, label ≠ .load given) : label.Supported torrent verified := by
  cases label with
  | load given => exact loads given rfl
  | complete p =>
    obtain ⟨k, rfl⟩ := permits
    exact supported
  | adopt completed =>
    obtain ⟨-, rfl⟩ := permits
    exact supported
  | prioritize priorities =>
    obtain ⟨-, -, path, filePriorities, name, rfl, calculated, -⟩ := permits
    exact supported priorities calculated
  | _ => trivial

theorem metadataReceived_fresh {length : ℤ} (small : given.numPieces ≤ 2 ^ 32) (unloaded : s.torrent = none)
    (wants : s.filePriorities.keys ≠ [] →
      { s with torrent := some given, pieceManager := loadedPieces given s.torrentValidationStatus }.WantsAll)
    (run : s.metadataReceived host given length = some (t, effects)) :
    (∀ p, ¬t.pieceManager.Skipped p) ∧ (t.torrentStatus = .validating ∨ t.torrentStatus = s.torrentStatus) := by
  have standard : ∀ p, ¬(loadedPieces given s.torrentValidationStatus).Skipped p := fun p =>
    not_skipped_of_priorities_nil rfl
  unfold metadataReceived at run
  simp only [unloaded, isSome_none, Bool.false_eq_true, if_false] at run
  obtain ⟨pm, prioritized, result⟩ := map_eq_some_iff.mp run
  have wanted : ∀ p, ¬pm.Skipped p := by
    intro p skipped
    split_ifs at prioritized with some_given
    · obtain ⟨priorities, calculated, applied⟩ := bind_eq_some_iff.mp prioritized
      obtain ⟨⟨painted, cancelled⟩, applies, rfl⟩ := map_eq_some_iff.mp applied
      have consistent := consistent_loadedPieces small s.torrentValidationStatus
      by_cases sized : priorities.length = (loadedPieces given s.torrentValidationStatus).bitfield.length
      · have repainted := applyPriorities_eq_some consistent sized applies
        have skip := Reprioritized.new_of_skipped repainted skipped
        exact wants some_given priorities calculated (mem_of_getElem? skip)
      · rw [applyPriorities, if_pos sized] at applies
        cases applies
        exact standard p skipped
    · cases prioritized
      exact standard p skipped
  split_ifs at result
  · cases result
    have same (s : TorrentState) : s.rebuildMultiFileInfo.pieceManager = s.pieceManager :=
      congrArg Core.pm (rebuildMultiFileInfo_unseen s [] ∅)
    refine ⟨fun p => ?_, .inl rfl⟩
    rw [same]
    exact wanted p
  · cases result
    exact ⟨wanted, .inr rfl⟩

theorem update_backed (backed : Backed torrent verified (abs s [] ∅)) (small : torrent.numPieces ≤ 2 ^ 32)
    (flag : s.torrentValidationStatus = true → ∀ p < torrent.numPieces, p ∈ verified)
    (supported : a.Supported torrent verified s) (run : update host s a = some (t, effects)) :
    Backed torrent verified (abs t [] ∅) := by
  have addressable : (Event.handle host a).Addressable := by
    cases a with
    | metadataReceived given length => exact supported.1 ▸ small
    | _ => trivial
  by_cases fresh : ∃ given length, a = .metadataReceived given length ∧ s.torrent = none
  · obtain ⟨given, length, rfl, unloaded⟩ := fresh
    obtain ⟨rfl, wants⟩ := supported
    have loads := metadataReceived_loads unloaded run
    have marks := metadataReceived_bitfield unloaded run
    obtain ⟨wanted, status⟩ := metadataReceived_fresh small unloaded wants run
    refine ⟨update_sound addressable run backed.sound, fun loaded known => ⟨?_, ?_⟩, fun p done => ?_, wanted,
      fun done => ?_⟩
    · exact some.inj (known.symm.trans loads.1)
    · change t.pieceManager.bitfield.length = _
      rw [marks, length_replicate]
    · change t.pieceManager.bitfield[p]? = _ at done
      rw [marks, getElem?_replicate] at done
      split_ifs at done with inside flagged
      · exact flag flagged p inside
      · cases done
    · change t.torrentStatus = .done at done
      have awaiting := backed.sound.awaiting unloaded
      rcases status with status | status
      · cases status.symm.trans done
      · cases awaiting.symm.trans (status.symm.trans done)
  · have kept := update_preserves (fun c => c.torrent = s.torrent ∧ Backed torrent verified c)
      (fun c d label permits move holds => by
        have loads : ∀ given, label ≠ .load given := by
          rintro given rfl
          obtain ⟨length, rfl⟩ := permits
          cases move with
          | load unloaded => exact fresh ⟨given, length, rfl, holds.1.symm.trans unloaded⟩
        exact ⟨(move.torrent loads).trans holds.1,
          holds.2.move (permits.addressable addressable) (permits.supported supported loads) move⟩)
      run ⟨rfl, backed⟩
    obtain ⟨-, backed⟩ := kept
    exact { backed with sound := backed.sound.of_abs [] ∅ }

theorem update_orders (run : update host s a = some (t, effects)) (ordered : .writeToDisk k p data ∈ effects) :
    a = .pieceVerified k p true data := by
  rcases update_quiet run with ⟨j, q, offset, block, rfl, completes⟩ | ⟨quiet | ⟨j, q, answer, rfl, answers⟩, -⟩
  · obtain @⟨piece, pm, submitted, buffered, -, -, -, -, submits, filtered⟩ := completes
    have among := filtered ▸ mem_filter.mpr ⟨ordered, rfl⟩
    have member := mem_of_mem_filter among
    cases submits with
    | bySha1 | byMerkleRoot => cases mem_singleton.mp member
    | afterHash =>
      unfold hashRequest at member
      split at member
      · cases mem_singleton.mp member
      · cases member
  · obtain ⟨j, q, block, rfl, written⟩ := quiet _ ordered rfl
    obtain ⟨rfl, rfl, rfl⟩ := Effect.writeToDisk.inj written
    rfl
  · obtain ⟨-, -, ⟨rfl, -⟩ | ⟨effect, rfl, submits⟩⟩ := answers
    · cases mem_singleton.mp ordered
    · obtain ⟨_, _, _, _, _, _, _, _, _, _, _, _, _, isProof⟩ := submits.submitted
      rw [isProof] at ordered
      cases mem_singleton.mp ordered

end Updates

end Superseedr
