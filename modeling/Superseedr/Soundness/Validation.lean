import Superseedr.Model.Manager
import Superseedr.Soundness.RequestSafety
import Superseedr.Soundness.VerificationFrame

/-! # The authority of validation

The pieces a validation lists are marked as done, and no mark is ever taken back: the pieces marked after
validation are those it lists together with those marked before. Without the persisted flag nothing is
marked before a validation ends, since nothing is written without a layout and the layout is fixed once it
is known. With the flag all pieces are marked as soon as the metadata is there, and a validation that finds
the files missing lists none and leaves all of them marked.
-/

namespace Superseedr

open Scheduler TorrentState List Option EmittingStep

variable {completed : List ℕ} {c d : Scheduler.Core} {label : Scheduler.Label} {p : ℕ} {s t : TorrentState}
  {task : ValidationTask} {host : Host} {a : Action} {n m : Manager} {o : Manager.Occurrence} {effects : List Effect}
  {torrent : Torrent} {sha1 : Bytes → Bytes} {sha : Sha256} {length : ℤ}

def TorrentState.IsDone (s : TorrentState) (p : ℕ) : Prop := s.pieceManager.bitfield[p]? = some .done

instance (s : TorrentState) (p : ℕ) : Decidable (s.IsDone p) :=
  inferInstanceAs (Decidable (s.pieceManager.bitfield[p]? = some .done))

section Adoption

theorem announced_bitfield (run : andThen (some (s.announceValidated host completed)) (fun s =>
      andThen (s.checkCompletion (host.sub 1)) fun s =>
        andThen (some (s.recalculateChokes (host.sub 2) (u64 host.elapsedNanos))) fun s =>
          s.assignAll (host.sub 3)) = some (t, effects)) : t.pieceManager.bitfield = s.pieceManager.bitfield := by
  let guard (_ : Core) (label : Label) : Prop :=
    label = .finish ∨ (∃ k b, label = .request k b) ∨ ∃ k p, label = .assign k p
  have simulates : Simulates guard s effects t :=
    announced_simulates (fun _ => .inl rfl)
      (fun k => ⟨fun _ b => .inr (.inl ⟨k, b, rfl⟩), fun _ p => .inr (.inr ⟨k, p, rfl⟩)⟩) run
  refine (simulates []).preserves (fun c => c.pm.bitfield = s.pieceManager.bitfield) ?_ rfl
  rintro c d label (rfl | ⟨k, b, rfl⟩ | ⟨k, p, rfl⟩) move before
  · cases move with
    | finish => exact before
  · cases move with
    | request => exact before
  · cases move with
    | assign => exact before

/-- A validation adds its pieces to those that are marked. -/
theorem validationComplete_isDone (validating : s.torrentStatus = .validating)
    (run : s.validationComplete host completed = some (t, effects)) : t.IsDone p ↔ s.IsDone p ∨ p ∈ completed := by
  rw [validationComplete, if_neg (not_not.mpr validating)] at run
  obtain ⟨u, adopted, run⟩ := bind_eq_some_iff.mp run
  obtain ⟨pm, marked, adopted⟩ := bind_eq_some_iff.mp adopted
  obtain ⟨need, -, rfl⟩ := map_eq_some_iff.mp adopted
  rw [IsDone, announced_bitfield run]
  exact (markAllComplete_eq_some marked).done p

/-- What fresh metadata leads to, whatever the priorities are. -/
theorem metadataReceived_loads (unloaded : s.torrent = none)
    (run : s.metadataReceived host torrent length = some (t, effects)) :
    t.torrent = some torrent ∧ t.pieceToRoots = torrent.calculateV2Mapping.pieceToRoots ∧
      t.pieceManager.marks = (loadedPieces torrent s.torrentValidationStatus).marks := by
  unfold metadataReceived at run
  simp only [unloaded, isSome_none, Bool.false_eq_true, if_false] at run
  obtain ⟨pm, prioritized, result⟩ := map_eq_some_iff.mp run
  have marks : pm.marks = (loadedPieces torrent s.torrentValidationStatus).marks := by
    split_ifs at prioritized
    · obtain ⟨priorities, -, applied⟩ := bind_eq_some_iff.mp prioritized
      obtain ⟨⟨painted, cancelled⟩, applies, rfl⟩ := map_eq_some_iff.mp applied
      exact PieceManager.marks_applyPriorities applies
    · cases prioritized
      rfl
  rw [← marks]
  split_ifs at result
  · cases result
    have same (s : TorrentState) := rebuildMultiFileInfo_unseen s [] ∅
    exact ⟨congrArg Core.torrent (same _), congrArg Core.roots (same _), congrArg (·.pm.marks) (same _)⟩
  · cases result
    exact ⟨rfl, rfl, rfl⟩

theorem metadataReceived_bitfield (unloaded : s.torrent = none)
    (run : s.metadataReceived host torrent length = some (t, effects)) :
    t.pieceManager.bitfield = replicate torrent.numPieces (if s.torrentValidationStatus then .done else .need) :=
  congrArg Prod.fst (metadataReceived_loads unloaded run).2.2

theorem update_keeps_torrent (loaded : s.torrent = some torrent) (run : update host s a = some (t, effects)) :
    t.torrent = some torrent :=
  update_preserves (fun c => c.torrent = some torrent) (fun _ _ _ _ move known => (move.keeps_torrent known).2) run
    loaded

/-- Without the flag, nothing is marked before there is a layout and a validation has ended. -/
def TorrentState.Blank (s : TorrentState) : Prop :=
  s.torrentValidationStatus = false →
    (s.multiFileInfo = none ∨ s.torrentStatus = .awaitingMetadata ∨ s.torrentStatus = .validating) → ∀ p, ¬s.IsDone p

def Action.Stored (s : TorrentState) : Action → Prop
  | .validationComplete _ => s.multiFileInfo ≠ none
  | .pieceWrittenToDisk _ _ => s.multiFileInfo ≠ none
  | _ => True

theorem blank_move (stored : a.Stored s)
    (loaded : ∀ torrent length, a = .metadataReceived torrent length → s.torrent ≠ none)
    (permits : Permits host s a c label) (move : Move label c d) (same : c.torrent = s.torrent)
    (before : s.multiFileInfo = none ∨ c.status = .awaitingMetadata ∨ c.status = .validating →
      ∀ q : ℕ, c.pm.bitfield[q]? ≠ some PieceStatus.done)
    (idle : s.multiFileInfo = none ∨ d.status = .awaitingMetadata ∨ d.status = .validating) :
    d.pm.bitfield[p]? ≠ some .done := by
  intro done
  rcases move.done_cases done with ⟨earlier, kept⟩ | rfl | ⟨completed, rfl, -⟩ | ⟨torrent, rfl⟩
  · refine before ?_ p earlier
    rcases idle with missing | idle
    · exact .inl missing
    rcases move.status_cases idle with unchanged | rfl | rfl
    · exact .inr (unchanged ▸ idle)
    · obtain ⟨-, ⟨torrent, length, rfl, unloaded⟩ | ⟨-, path, priorities, name, rfl, starts⟩⟩ := permits
      · exact absurd unloaded (loaded torrent length rfl)
      · simp only [startsValidation, Bool.and_eq_true, isNone_iff_eq_none] at starts
        exact .inl starts.1.2
    · exact absurd rfl kept
  · obtain ⟨k, rfl⟩ := permits
    cases move with
    | complete running =>
      rcases idle with missing | awaiting | validating
      · exact stored missing
      · exact running.2 awaiting
      · exact running.1 validating
  · obtain ⟨-, rfl⟩ := permits
    cases move with
    | adopt =>
      rcases idle with missing | impossible | impossible
      · exact stored missing
      · cases impossible
      · cases impossible
  · obtain ⟨length, rfl⟩ := permits
    cases move with
    | load unloaded => exact loaded torrent length rfl (same.symm.trans unloaded)

theorem TorrentState.Blank.update (blank : s.Blank) (stored : a.Stored s) (run : update host s a = some (t, effects)) :
    t.Blank := by
  intro unflagged idle
  have flag : s.torrentValidationStatus = false := (update_keeps_validated run).symm.trans unflagged
  by_cases fresh : ∃ torrent length, a = .metadataReceived torrent length ∧ s.torrent = none
  · obtain ⟨torrent, length, rfl, unloaded⟩ := fresh
    intro p done
    rw [IsDone, metadataReceived_bitfield unloaded run, flag] at done
    exact absurd (eq_of_mem_replicate (mem_of_getElem? done)) (by simp)
  have loaded : ∀ torrent length, a = .metadataReceived torrent length → s.torrent ≠ none :=
    fun torrent length same unloaded => fresh ⟨torrent, length, same, unloaded⟩
  have layout : t.multiFileInfo = none → s.multiFileInfo = none := by
    intro missing
    rcases update_reconfigured run with reconfigured | ⟨⟨torrent, length, rfl⟩, unloaded, -⟩
    · by_contra known
      obtain ⟨layout, isKnown⟩ := ne_none_iff_exists'.mp known
      exact absurd (missing.symm.trans (reconfigured.layout layout isKnown)) (by simp)
    · exact absurd unloaded (loaded torrent length rfl)
  have preserved := update_preserves
    (fun c => c.torrent = s.torrent ∧
      (s.multiFileInfo = none ∨ c.status = .awaitingMetadata ∨ c.status = .validating →
        ∀ q : ℕ, c.pm.bitfield[q]? ≠ some PieceStatus.done))
    (fun c d label permits move holds =>
      ⟨(move.torrent fun torrent same => by
          subst same
          obtain ⟨length, rfl⟩ := permits
          cases move with
          | load unloaded => exact loaded torrent length rfl (holds.1.symm.trans unloaded)).trans holds.1,
        fun idle p => blank_move stored loaded permits move holds.1 holds.2 idle⟩)
    run ⟨rfl, fun idle p => blank flag idle p⟩
  exact preserved.2 (idle.imp_left layout)

end Adoption

section Outcome

variable {disk : Disk} {layout : MultiFileInfo}

/-- The result is the last message of a validation and the only one of its kind. -/
theorem outcome_of_mem_messages {run : ValidationRun} (member : Action.validationComplete completed ∈ run.messages) :
    run.outcome = some completed := by
  rcases mem_append.mp member with progress | result
  · obtain ⟨count, -, impossible⟩ := mem_map.mp progress
    cases impossible
  cases ended : run.outcome with
  | none => simp [ended] at result
  | some pieces =>
    simp only [ended, map_some, getD_some, mem_singleton, Action.validationComplete.injEq] at result
    rw [result]

/-- What a validation under the persisted flag lists. -/
theorem mem_of_trustLayout (result : (trustLayout disk layout torrent).outcome = some completed) :
    p ∈ completed ↔ hasCompleteStorageLayout disk layout.files = some true ∧ p < trustedPieceCount torrent layout := by
  unfold trustLayout at result
  split at result
  · cases result
  case h_2 complete =>
    cases result
    simp [complete]
  case h_3 incomplete =>
    cases result
    simp [incomplete]

end Outcome

namespace Manager

/-- Results of validations come from validations, and pieces are written only where there is a layout. -/
def Occurrence.Genuine (m : Manager) : Occurrence → Prop
  | .action _ (.validationComplete _) => False
  | .action _ (.validationProgress _) => False
  | .action _ (.pieceWrittenToDisk _ _) => m.state.multiFileInfo ≠ none
  | _ => True

/-- A finite sequence of genuine occurrences leads to the manager. -/
def Reachable (sha1 : Bytes → Bytes) (sha : Sha256) (m : Manager) : Prop :=
  ∃ start, Initial start ∧ Steps (fun o m n => m.occur sha1 sha o = some n) Occurrence.Genuine ⟨start, [], []⟩ m

def Belongs (s : TorrentState) (task : ValidationTask) : Prop :=
  s.torrent = some task.torrent ∧ s.multiFileInfo = some task.layout ∧ s.torrentValidationStatus = task.skipHashing

def Sent (sha1 : Bytes → Bytes) (sha : Sha256) (s : TorrentState) (messages : List Action) : Prop :=
  ∃ task order disk, Belongs s task ∧
    messages <:+ (performValidation sha1 sha order disk task.layout task.torrent task.skipHashing).messages

/-- All validations are about the torrent as it is. -/
structure Coherent (sha1 : Bytes → Bytes) (sha : Sha256) (m : Manager) : Prop where
  tasks : ∀ task ∈ m.tasks, Belongs m.state task
  inbox : ∀ messages ∈ m.inbox, Sent sha1 sha m.state messages
  blank : m.state.Blank

theorem belongs_spawn (spawned : task ∈ spawn s) : Belongs s task := by
  unfold spawn at spawned
  split at spawned
  case h_1 torrent layout loaded located =>
    rw [mem_singleton.mp spawned]
    exact ⟨loaded, located, rfl⟩
  · cases spawned

/-- Metadata, layout and flag stay once they are known. -/
theorem Belongs.update (belongs : Belongs s task) (run : Superseedr.update host s a = some (t, effects)) :
    Belongs t task := by
  obtain ⟨loaded, located, flag⟩ := belongs
  refine ⟨update_keeps_torrent loaded run, ?_, (update_keeps_validated run).trans flag⟩
  rcases update_reconfigured run with reconfigured | ⟨-, unloaded, -⟩
  · exact reconfigured.layout task.layout located
  · exact absurd (unloaded.symm.trans loaded) (by simp)

theorem Coherent.applyAction (coherent : Coherent sha1 sha m) (stored : a.Stored m.state)
    (run : m.applyAction host a = some n) : Coherent sha1 sha n := by
  obtain ⟨⟨t, effects⟩, updated, rfl⟩ := map_eq_some_iff.mp run
  refine ⟨fun task member => ?_, fun messages member => ?_, coherent.blank.update stored updated⟩
  · rcases mem_append.mp member with earlier | spawned
    · exact (coherent.tasks task earlier).update updated
    · obtain ⟨effect, -, spawned⟩ := mem_flatMap.mp spawned
      split_ifs at spawned
      · exact belongs_spawn spawned
      · cases spawned
  · obtain ⟨task, order, disk, belongs, left⟩ := coherent.inbox messages member
    exact ⟨task, order, disk, belongs.update updated, left⟩

theorem Coherent.occur (coherent : Coherent sha1 sha m) (genuine : o.Genuine m) (run : m.occur sha1 sha o = some n) :
    Coherent sha1 sha n := by
  cases o with
  | action host a =>
    refine coherent.applyAction ?_ run
    cases a with
    | validationComplete | validationProgress => cases genuine
    | pieceWrittenToDisk => exact genuine
    | _ => trivial
  | recountRarity =>
    cases run
    exact { coherent with }
  | validateLocalFile =>
    cases run
    exact ⟨forall_mem_append.mpr ⟨coherent.tasks, fun _ => belongs_spawn⟩, coherent.inbox, coherent.blank⟩
  | validate i order disk =>
    obtain ⟨task, found, rfl⟩ := map_eq_some_iff.mp run
    exact ⟨fun other member => coherent.tasks other (mem_of_mem_eraseIdx member),
      forall_mem_append.mpr ⟨coherent.inbox, forall_mem_singleton.mpr
        ⟨task, order, disk, coherent.tasks task (mem_of_getElem? found), suffix_rfl⟩⟩, coherent.blank⟩
  | receive host i =>
    simp only [Manager.occur] at run
    split at run
    case h_1 message rest waiting =>
      have sent := coherent.inbox _ (mem_of_getElem? waiting)
      have remaining : Coherent sha1 sha { m with inbox := m.inbox.set i rest } := by
        refine ⟨coherent.tasks, fun messages member => ?_, coherent.blank⟩
        rcases mem_or_eq_of_mem_set member with earlier | rfl
        · exact coherent.inbox messages earlier
        · obtain ⟨task, order, disk, belongs, left⟩ := sent
          exact ⟨task, order, disk, belongs, (suffix_cons message messages).trans left⟩
      refine remaining.applyAction ?_ run
      obtain ⟨task, order, disk, ⟨-, located, -⟩, -⟩ := sent
      have known : m.state.multiFileInfo ≠ none := by simp [located]
      cases message with
      | validationComplete | pieceWrittenToDisk => exact known
      | _ => trivial
    · cases run

theorem Reachable.coherent (reachable : m.Reachable sha1 sha) : Coherent sha1 sha m := by
  obtain ⟨start, initial, steps⟩ := reachable
  refine steps.preserves (Coherent sha1 sha) (fun _ _ _ genuine run coherent => coherent.occur genuine run) ?_
  obtain ⟨_, _, _, _, _, rfl⟩ := initial
  refine ⟨fun task member => absurd member not_mem_nil, fun messages member => absurd member not_mem_nil, ?_⟩
  intro _ _ p done
  cases done

end Manager

open Manager in
/-- A validation that ends in status Validating is the only authority on which pieces are done exactly when, under the
persisted flag, each piece marked before belongs to a complete layout. What it lists is what validation accepted for the
metadata and the layout of the torrent. -/
theorem validation_authoritative_iff {i : ℕ} {rest : List Action} (reachable : m.Reachable sha1 sha)
    (waiting : m.inbox[i]? = some (.validationComplete completed :: rest))
    (validating : m.state.torrentStatus = .validating)
    (run : update host m.state (.validationComplete completed) = some (t, effects)) :
    ∃ torrent layout order disk, m.state.torrent = some torrent ∧ m.state.multiFileInfo = some layout ∧
      (performValidation sha1 sha order disk layout torrent m.state.torrentValidationStatus).outcome = some completed ∧
      ((∀ p, t.IsDone p ↔ p ∈ completed) ↔
        (m.state.torrentValidationStatus = true → ∀ p, m.state.IsDone p →
          hasCompleteStorageLayout disk layout.files = some true ∧ p < trustedPieceCount torrent layout)) := by
  have coherent := reachable.coherent
  obtain ⟨task, order, disk, ⟨loaded, located, flag⟩, left⟩ := coherent.inbox _ (mem_of_getElem? waiting)
  have accepted := outcome_of_mem_messages (left.mem (.head _))
  refine ⟨task.torrent, task.layout, order, disk, loaded, located, flag ▸ accepted, ?_⟩
  have marked : ∀ p, t.IsDone p ↔ m.state.IsDone p ∨ p ∈ completed := fun p => validationComplete_isDone validating run
  have contained : (∀ p, t.IsDone p ↔ p ∈ completed) ↔ ∀ p, m.state.IsDone p → p ∈ completed := by
    simp only [marked, or_iff_right_iff_imp]
  rw [contained]
  cases persisted : m.state.torrentValidationStatus with
  | false =>
    have nothing := coherent.blank persisted (.inr (.inr validating))
    exact ⟨fun _ impossible => absurd impossible (by simp), fun _ p done => absurd done (nothing p)⟩
  | true =>
    rw [← flag, persisted] at accepted
    have trusted : ∀ p, p ∈ completed ↔
        hasCompleteStorageLayout disk task.layout.files = some true ∧ p < trustedPieceCount task.torrent task.layout :=
      fun p => mem_of_trustLayout accepted
    simp only [trusted, true_implies]

/-- Digests that are all zero, as the piece hashes of a plain torrent are. -/
def zeroDigest (_ : Bytes) : Bytes := replicate 20 0

/-- A hash function without content. -/
def zeroHash : Sha256 where
  digest _ := replicate 32 0
  width _ := length_replicate

def validateOnce (disk : Disk) (received : ℕ) : List Manager.Occurrence :=
  [.action {} (.setUserTorrentConfig "d" ∅ (some "")), .action {} (.metadataReceived (plainTorrent 1) 0),
    .validate 0 .stored disk] ++ replicate received (.receive {} 0)

def Manager.result (m : Manager) : Option (List ℕ) :=
  match m.inbox[0]? with
  | some [Action.validationComplete completed] => some completed
  | _ => none

theorem Manager.waiting_of_result (result : m.result = some completed) :
    m.inbox[0]? = some [.validationComplete completed] := by
  unfold Manager.result at result
  split at result
  case h_1 pieces waiting => rw [waiting, some.inj result]
  · cases result

theorem exists_validated (validated : Bool) (disk : Disk) (received : ℕ) (completed : List ℕ)
    (facts : TorrentState → Prop) [DecidablePred facts] (checked : ((validateOnce disk received).foldlM
      (fun m o => if true = true then Manager.occur zeroDigest zeroHash m o else none)
      ⟨new [] ∅ validated none 0, [], []⟩).any (fun m => decide (m.result = some completed ∧ facts m.state)) = true) :
    ∃ m, Manager.Reachable zeroDigest zeroHash m ∧ m.inbox[0]? = some [.validationComplete completed] ∧
      facts m.state := by
  have genuine : ∀ o ∈ validateOnce disk received, ∀ m, true = true → Manager.Occurrence.Genuine m o := by
    intro o member m _
    simp only [validateOnce, mem_append, mem_cons, not_mem_nil, or_false, mem_replicate] at member
    rcases member with (rfl | rfl | rfl) | ⟨-, rfl⟩ <;> trivial
  obtain ⟨m, run, result, holds⟩ := Steps.exists_replay _ _ (fun _ _ => true) _ _ _ genuine checked
  exact ⟨m, ⟨_, ⟨_, _, _, _, _, rfl⟩, run⟩, Manager.waiting_of_result result, holds⟩

/-- With the persisted flag and without any file on disk, validation lists nothing and the piece stays done. -/
theorem missing_file_stays_done : ∃ m t effects, Manager.Reachable zeroDigest zeroHash m ∧
    m.state.torrentValidationStatus = true ∧ m.inbox[0]? = some [.validationComplete []] ∧
    m.state.torrentStatus = .validating ∧ update {} m.state (.validationComplete []) = some (t, effects) ∧
    t.IsDone 0 := by
  obtain ⟨m, reachable, waiting, flagged, validating, ⟨t, effects⟩, adopted, done⟩ := exists_validated true
    (fun _ => .missing) 1 [] (fun s => s.torrentValidationStatus = true ∧ s.torrentStatus = .validating ∧
      ∃ next ∈ update {} s (.validationComplete []), next.1.IsDone 0) (by decide +kernel)
  exact ⟨m, t, effects, reachable, flagged, waiting, validating, adopted, done⟩

/-- Without the flag and with the file on disk, the piece is done because validation accepted it. -/
theorem validation_authoritative_file : ∃ m t effects, Manager.Reachable zeroDigest zeroHash m ∧
    m.state.torrentStatus = .validating ∧ update {} m.state (.validationComplete [0]) = some (t, effects) ∧
    ∀ p, t.IsDone p ↔ p ∈ [0] := by
  obtain ⟨m, reachable, waiting, unflagged, validating, adopts⟩ :=
    exists_validated false (fun _ => .file [1, 2, 3, 4]) 2 [0]
    (fun s => s.torrentValidationStatus = false ∧ s.torrentStatus = .validating ∧
      (update {} s (.validationComplete [0])).isSome) (by decide +kernel)
  obtain ⟨⟨t, effects⟩, adopted⟩ := isSome_iff_exists.mp adopts
  obtain ⟨torrent, layout, order, disk, -, -, -, authoritative⟩ :=
    validation_authoritative_iff reachable waiting validating adopted
  refine ⟨m, t, effects, reachable, validating, adopted, authoritative.mpr fun flagged => ?_⟩
  cases unflagged.symm.trans flagged

end Superseedr
