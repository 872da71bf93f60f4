import Superseedr.Soundness.VerifiedMarks
import Superseedr.Soundness.KeptTorrents

/-! # The saved validation status

The status that is saved is true for a torrent that is shown as done, that counts as many pieces as it has, or of
which any file is skipped. The first is honest as long as no piece is skipped, the second except for a snapshot
that is taken between the last progress report of a validation and its result, and the third never is. In runs
without skipped files and without such snapshots a torrent is saved as validated only when all of its pieces were
verified, and after a restart no other piece is marked.
-/

namespace Superseedr

open Scheduler TorrentState List Option AList Finset

variable {first second message folder : String} {metrics : TorrentMetrics} {previous flag : Bool} {total remaining : ℕ}
  {found : Torrent} {layout : MultiFileInfo} {s : TorrentState} {task : ValidationTask} {host : Host} {a : Action}
  {order : Arrangement} {disk : Disk} {placeholder : TorrentDisplayState} {outcome : LoadOutcome}
  {o : Manager.Occurrence} {name : Option String}

/-! ## Activity messages -/

/-- The text has neither of the capitals that `Seeding` and `Finished` begin with. -/
def Plain (message : String) : Prop := 'S' ∉ message.toList ∧ 'F' ∉ message.toList

instance (message : String) : Decidable (Plain message) := inferInstanceAs (Decidable (_ ∧ _))

theorem Plain.append (left : Plain first) (right : Plain second) : Plain (first ++ second) := by
  rw [Plain, String.toList_append, mem_append, mem_append, not_or, not_or]
  exact ⟨⟨left.1, right.1⟩, left.2, right.2⟩

theorem plain_toString (n : ℕ) : Plain (toString n) := by
  have digits : ∀ c ∈ (toString n).toList, c.isDigit = true := by
    intro c member
    rw [Nat.toString_eq_ofList_toDigits, String.toList_ofList] at member
    exact Nat.isDigit_of_mem_toDigits (by decide) (by decide) member
  exact ⟨fun member => absurd (digits _ member) (by decide), fun member => absurd (digits _ member) (by decide)⟩

theorem Plain.cap (plain : Plain message) : Plain (capActivityMessage message) := by
  unfold capActivityMessage
  split_ifs
  · exact plain
  · refine .append ?_ (by decide)
    rw [Plain, String.toList_ofList]
    exact ⟨fun member => plain.1 (mem_of_mem_take member), fun member => plain.2 (mem_of_mem_take member)⟩

theorem Plain.unmarked (plain : Plain message) : activityMarksTorrentComplete message = false := by
  rw [activityMarksTorrentComplete, Bool.or_eq_false_iff, decide_eq_false_iff_not, decide_eq_false_iff_not]
  exact ⟨fun inside => plain.1 (inside.subset (by decide)), fun inside => plain.2 (inside.subset (by decide))⟩

/-- The only other message with one of these capitals. -/
theorem unmarked_sending (p : ℕ) : activityMarksTorrentComplete ("Sending piece #" ++ toString p) = false := by
  have tail : Plain ("ending piece #" ++ toString p) := .append (by decide) (plain_toString p)
  have spelled : ("Sending piece #" ++ toString p).toList = 'S' :: ("ending piece #" ++ toString p).toList := by
    rw [String.toList_append, String.toList_append]
    rfl
  rw [activityMarksTorrentComplete, Bool.or_eq_false_iff, decide_eq_false_iff_not, decide_eq_false_iff_not, spelled]
  constructor
  · intro inside
    rcases infix_cons_iff.mp inside with atHead | later
    · rw [String.toList_append] at atHead
      have third := (cons_prefix_cons.mp (cons_prefix_cons.mp (cons_prefix_cons.mp atHead).2).2).1
      cases third
    · exact tail.1 (later.subset (by decide))
  · intro inside
    rcases mem_cons.mp (inside.subset (show 'F' ∈ "Finished".toList by decide)) with same | later
    · cases same
    · exact tail.2 later

theorem Plain.number {before after : String} (left : Plain before) (n : ℕ) (right : Plain after) :
    Plain (before ++ toString n ++ after) :=
  (left.append (plain_toString n)).append right

theorem transferMessage_unmarked (s : TorrentState) (dlSpeed ulSpeed : ℕ) :
    activityMarksTorrentComplete (s.transferMessage dlSpeed ulSpeed) = false := by
  unfold transferMessage
  extract_lets connectedPeers usefulPeers peersSendingData needCount totalPieces completedPieces completionPct
  split
  · split
    · exact (Plain.append (by decide) (plain_toString _)).unmarked
    · exact (Plain.append (by decide) (plain_toString _)).unmarked
    · decide
  split
  · split
    · exact unmarked_sending _
    · decide
  split
  · exact ((((Plain.number (by decide) _ (by decide)).number _ (by decide)).number _ (by decide)).cap).unmarked
  · exact (Plain.number (by decide) _ (by decide)).cap.unmarked
  · exact (Plain.number (by decide) _ (by decide)).cap.unmarked
  split
  · exact (Plain.number (by decide) _ (by decide)).cap.unmarked
  split
  · split
    · exact ((Plain.number (by decide) _ (by decide)).number _ (by decide)).cap.unmarked
    · exact (Plain.number (by decide) _ (by decide)).cap.unmarked
  · exact ((Plain.number (by decide) _ (by decide)).number _ (by decide)).cap.unmarked

theorem generateActivityMessage_unmarked (running : s.torrentStatus ≠ .done) (dlSpeed ulSpeed : ℕ) :
    activityMarksTorrentComplete (s.generateActivityMessage dlSpeed ulSpeed) = false := by
  unfold generateActivityMessage
  extract_lets connectedPeers totalPieces
  split
  · decide
  split
  · exact (Plain.number (by decide) _ (by decide)).cap.unmarked
  split
  · split_ifs
    · exact (Plain.number (by decide) _ (by decide)).cap.unmarked
    · exact (Plain.number (by decide) _ (by decide)).cap.unmarked
  · split_ifs
    · exact (((Plain.number (by decide) _ (by decide)).number _ (by decide)).number _ (by decide)).cap.unmarked
    · decide
  · rename_i done
    exact absurd done running
  · exact transferMessage_unmarked s dlSpeed ulSpeed
  · exact transferMessage_unmarked s dlSpeed ulSpeed

/-! ## Snapshots -/

def TorrentMetrics.Claims (metrics : TorrentMetrics) : Prop :=
  metrics.isComplete = true ∨ activityMarksTorrentComplete metrics.activityMessage = true ∨
    0 < metrics.numberOfPiecesTotal ∧ metrics.numberOfPiecesTotal ≤ metrics.numberOfPiecesCompleted

theorem claims_of_persisted (wanted : torrentHasSkippedFiles metrics = false)
    (persisted : persistedValidationStatusFromMetrics metrics previous = true) : previous = true ∨ metrics.Claims := by
  unfold persistedValidationStatusFromMetrics at persisted
  split at persisted
  · exact .inl persisted
  refine .inr ?_
  rcases Bool.or_eq_true_iff.mp persisted with complete | effectively
  · exact .inl complete
  unfold torrentIsEffectivelyIncomplete at effectively
  split at effectively
  · rename_i marks
    exact .inr (.inl marks)
  rw [wanted, if_neg Bool.false_ne_true] at effectively
  split at effectively
  · exact .inl (by simpa using effectively)
  · rename_i some_pieces
    have positive := Nat.pos_of_ne_zero some_pieces
    exact .inr (.inr ⟨positive, by simpa [positive] using effectively⟩)

variable {sha1 : Bytes → Bytes} {sha : Sha256} {torrent : Torrent}

section Snapshots

variable {verified : Finset ℕ} {dlSpeed ulSpeed : ℕ}

theorem verified_of_done (backed : Backed torrent verified (abs s [] ∅)) (done : s.torrentStatus = .done) :
    ∀ p < torrent.numPieces, p ∈ verified := by
  intro p inside
  cases loaded : s.torrent with
  | none =>
    have awaiting := backed.sound.awaiting loaded
    cases awaiting.symm.trans done
  | some found => exact backed.complete done p ((backed.own found loaded).2 ▸ inside)

/-- The pieces that are not missing are counted without overflow. -/
theorem completed_of_remaining (small : total < 2 ^ 32) (fewer : remaining ≤ total) :
    u32 (u32 total + (2 ^ 32 - u32 remaining)) = total - remaining := by
  have bounded : remaining < 2 ^ 32 := by omega
  rw [u32_of_lt small, u32_of_lt bounded, u32]
  omega

section

variable (backed : Backed torrent verified (abs s [] ∅)) (small : torrent.numPieces < 2 ^ 32)
  (early : s.torrentStatus = .validating → s.validationPiecesFound < torrent.numPieces)
include backed small early

theorem verified_of_counted (loaded : s.torrent = some found) (located : s.multiFileInfo = some layout)
    (counted : (s.sendMetrics dlSpeed ulSpeed).numberOfPiecesTotal ≤
      (s.sendMetrics dlSpeed ulSpeed).numberOfPiecesCompleted) : ∀ p < torrent.numPieces, p ∈ verified := by
  intro p inside
  have length : s.pieceManager.bitfield.length = torrent.numPieces := (backed.own found loaded).2
  have remaining : s.pieceManager.piecesRemaining = s.pieceManager.bitfield.count .need :=
    backed.sound.consistent.remaining
  have fewer : s.pieceManager.piecesRemaining ≤ torrent.numPieces := by
    rw [remaining, ← length]
    exact count_le_length
  unfold sendMetrics at counted
  rw [loaded, located] at counted
  dsimp only at counted
  rw [length, u32_of_lt small] at counted
  split_ifs at counted with validating
  · exact absurd (early validating) (by omega)
  have completed := completed_of_remaining small fewer
  rw [u32_of_lt small] at completed
  rw [completed] at counted
  have nothing : s.pieceManager.bitfield.count .need = 0 := by omega
  refine backed.verified_of_complete (fun q missing => ?_) (length ▸ inside : p < s.pieceManager.bitfield.length)
  exact count_eq_zero.mp nothing (mem_of_getElem? missing)

/-- Of a torrent whose marks are backed, a snapshot tells the truth, unless it is taken when a validation has reported
all pieces and not yet its result. -/
theorem verified_of_claims (claims : (s.sendMetrics dlSpeed ulSpeed).Claims) :
    ∀ p < torrent.numPieces, p ∈ verified := by
  have complete : (s.sendMetrics dlSpeed ulSpeed).isComplete = decide (s.torrentStatus = .done) := by
    unfold sendMetrics
    split <;> rfl
  have message : (s.sendMetrics dlSpeed ulSpeed).activityMessage = s.generateActivityMessage dlSpeed ulSpeed := by
    unfold sendMetrics
    split <;> rfl
  rcases claims with done | marks | ⟨positive, counted⟩
  · rw [complete, decide_eq_true_eq] at done
    exact verified_of_done backed done
  · rw [message] at marks
    refine verified_of_done backed ?_
    by_contra running
    cases marks.symm.trans (generateActivityMessage_unmarked running dlSpeed ulSpeed)
  cases loaded : s.torrent with
  | none => simp [sendMetrics, buildMetricsSnapshot, loaded] at positive
  | some found =>
    cases located : s.multiFileInfo with
    | none => simp [sendMetrics, buildMetricsSnapshot, loaded, located] at positive
    | some layout => exact verified_of_counted backed small early loaded located counted

end

end Snapshots

/-! ## Managers -/

def Action.Reports (torrent : Torrent) (verified : Finset ℕ) : Action → Prop
  | .validationProgress _ => True
  | .validationComplete completed => ∀ p ∈ completed, p < torrent.numPieces → p ∈ verified
  | _ => False

namespace Manager

variable {verified more : Finset ℕ} {m n : Manager} {o : Occurrence}

structure Accounted (torrent : Torrent) (verified : Finset ℕ) (m : Manager) : Prop where
  backed : Backed torrent verified (abs m.state [] ∅)
  flag : m.state.torrentValidationStatus = true → ∀ p < torrent.numPieces, p ∈ verified
  tasks : ∀ task ∈ m.tasks, task.skipHashing = m.state.torrentValidationStatus
  inbox : ∀ messages ∈ m.inbox, ∀ message ∈ messages, message.Reports torrent verified

theorem Accounted.mono (accounted : Accounted torrent verified m) (grows : verified ⊆ more) :
    Accounted torrent more m where
  backed := accounted.backed.mono grows
  flag flagged p inside := grows (accounted.flag flagged p inside)
  tasks := accounted.tasks
  inbox messages waiting message member := by
    have reports := accounted.inbox messages waiting message member
    cases message with
    | validationProgress count => trivial
    | validationComplete completed => exact fun p found inside => grows (reports p found inside)
    | _ => exact reports

theorem skipHashing_spawn (spawned : task ∈ spawn s) : task.skipHashing = s.torrentValidationStatus :=
  (belongs_spawn spawned).2.2.symm

theorem Accounted.applyAction (accounted : Accounted torrent verified m) (small : torrent.numPieces ≤ 2 ^ 32)
    (supported : a.Supported torrent verified m.state) (run : m.applyAction host a = some n) :
    Accounted torrent verified n := by
  obtain ⟨⟨t, effects⟩, updated, rfl⟩ := map_eq_some_iff.mp run
  have same := update_keeps_validated updated
  refine ⟨update_backed accounted.backed small accounted.flag supported updated,
    fun flagged => accounted.flag (same.symm.trans flagged), fun task member => ?_, accounted.inbox⟩
  rcases mem_append.mp member with earlier | spawned
  · exact (accounted.tasks task earlier).trans same.symm
  obtain ⟨effect, -, spawned⟩ := mem_flatMap.mp spawned
  split_ifs at spawned
  · exact skipHashing_spawn spawned
  · cases spawned

theorem reports_of_validation (flagged : task.skipHashing = true → ∀ p < torrent.numPieces, p ∈ verified)
    (hashed : task.skipHashing = false → ∀ completed,
      (performValidation sha1 sha order disk task.layout task.torrent false).outcome = some completed →
        ∀ p ∈ completed, p ∈ verified) :
    ∀ message ∈ (performValidation sha1 sha order disk task.layout task.torrent task.skipHashing).messages,
      message.Reports torrent verified := by
  intro message member
  rcases mem_append.mp member with progress | result
  · obtain ⟨count, -, rfl⟩ := mem_map.mp progress
    trivial
  cases ended : (performValidation sha1 sha order disk task.layout task.torrent task.skipHashing).outcome with
  | none => simp [ended] at result
  | some completed =>
    simp only [ended, map_some, getD_some, List.mem_singleton] at result
    subst result
    intro p found inside
    cases skips : task.skipHashing with
    | true => exact flagged skips p inside
    | false =>
      rw [skips] at ended
      exact hashed skips completed ended p found

def Occurrence.Supported (torrent : Torrent) (verified : Finset ℕ) (m : Manager) : Occurrence → Prop
  | .action _ a => a.Supported torrent verified m.state
  | _ => True

theorem Accounted.occur (accounted : Accounted torrent verified m) (small : torrent.numPieces ≤ 2 ^ 32)
    (supported : o.Supported torrent verified m) (run : m.occur sha1 sha o = some n) :
    Accounted torrent (verified ∪ m.verifies sha1 sha o) n := by
  have grown : Accounted torrent (verified ∪ m.verifies sha1 sha o) m := accounted.mono subset_union_left
  cases o with
  | action host a => exact (accounted.applyAction small supported run).mono subset_union_left
  | recountRarity =>
    cases run
    have addressable : Label.recount.Addressable := trivial
    have noMark : Label.recount.Supported torrent (verified ∪ m.verifies sha1 sha .recountRarity) := trivial
    exact { grown with backed := grown.backed.move addressable noMark (updateRarity_move m.state) }
  | validateLocalFile =>
    cases run
    exact { grown with tasks := forall_mem_append.mpr ⟨grown.tasks, fun _ => skipHashing_spawn⟩ }
  | validate i order disk =>
    obtain ⟨task, found, rfl⟩ := map_eq_some_iff.mp run
    refine ⟨grown.backed, grown.flag, fun other member => grown.tasks other (mem_of_mem_eraseIdx member),
      forall_mem_append.mpr ⟨grown.inbox, forall_mem_singleton.mpr ?_⟩⟩
    have flag := accounted.tasks task (mem_of_getElem? found)
    refine reports_of_validation (fun skips p inside => ?_) fun hashes completed ended p member => ?_
    · exact mem_union_left _ (accounted.flag (flag.symm.trans skips) p inside)
    · refine Finset.mem_union_right _ ?_
      simp only [verifies, found, hashes, Bool.false_eq_true, if_false, ended, getD_some, List.mem_toFinset]
      exact member
  | receive host i =>
    simp only [occur] at run
    split at run
    case h_1 message rest waiting =>
      have sent := accounted.inbox _ (mem_of_getElem? waiting)
      have remaining : Accounted torrent verified { m with inbox := m.inbox.set i rest } := by
        refine { accounted with inbox := fun messages member => ?_ }
        rcases mem_or_eq_of_mem_set member with earlier | rfl
        · exact accounted.inbox messages earlier
        · exact fun later inside => sent later (.tail message inside)
      refine (remaining.applyAction small ?_ run).mono subset_union_left
      have reports := sent message (.head _)
      cases message with
      | validationProgress count => trivial
      | validationComplete completed => exact reports
      | _ => cases reports
    · cases run

theorem orders_subset (accounted : Accounted torrent verified m) : m.orders o ⊆ m.verifies sha1 sha o := by
  intro p member
  unfold orders at member
  split at member
  · rename_i host a isHandled
    split at member
    · rename_i t effects run
      obtain ⟨effect, among, written⟩ := mem_filterMap.mp (mem_toFinset.mp member)
      obtain ⟨k, data, rfl⟩ : ∃ k data, effect = .writeToDisk k p data := by
        cases effect with
        | writeToDisk k q data =>
          cases written
          exact ⟨k, data, rfl⟩
        | _ => cases written
      obtain rfl := update_orders run among
      cases o with
      | action =>
        cases isHandled
        exact Finset.mem_singleton_self p
      | receive i =>
        simp only [handled] at isHandled
        split at isHandled
        · rename_i message rest waiting
          cases isHandled
          exact absurd (accounted.inbox _ (mem_of_getElem? waiting) _ (.head _)) id
        · cases isHandled
      | _ => cases isHandled
    · simp at member
  · simp at member

end Manager

/-! ## The client -/

namespace Client

variable {sources : TorrentSources} {c d : Client} {event : ClientEvent}

def AllVerified (torrent : Torrent) (c : Client) : Prop := ∀ p < torrent.numPieces, p ∈ c.verified

/-- The priorities of the files name no file that is skipped. -/
def NoneSkipped (filePriorities : Finmap fun _ : ℕ => FilePriority) : Prop :=
  filePriorities.any (fun _ priority => priority = .skip) = false

structure Honest (torrent : Torrent) (c : Client) : Prop where
  manager : c.manager.Accounted torrent c.verified
  ordered : c.ordered ⊆ c.verified
  told : ∀ message, c.metrics = some message → message.Claims → c.AllVerified torrent
  shown : c.display.latestState.Claims → c.AllVerified torrent
  config : c.config.validationStatus = true → c.AllVerified torrent
  saved : c.saved.validationStatus = true → c.AllVerified torrent
  display_wanted : NoneSkipped c.display.latestState.filePriorities
  saved_wanted : NoneSkipped c.saved.filePriorities

def Genuine (torrent : Torrent) (c : Client) : ClientEvent → Prop
  | .manager (.action _ (.metadataReceived given _)) => given = torrent
  | .manager (.action _ (.validationComplete _)) => False
  | .manager (.action _ (.validationProgress _)) => False
  | .manager (.action _ (.pieceWrittenToDisk _ p)) => p ∈ c.ordered
  | _ => True

/-- No file and no piece is skipped, and no snapshot is taken when a validation has reported as many pieces as there
are and not yet its result. -/
def Unskipped (torrent : Torrent) (c : Client) : ClientEvent → Prop
  | .manager (.action _ (.metadataReceived given _)) => c.manager.state.filePriorities.keys ≠ [] →
      { c.manager.state with
        torrent := some given
        pieceManager := loadedPieces given c.manager.state.torrentValidationStatus }.WantsAll
  | .manager (.action _ (.setUserTorrentConfig path priorities name)) =>
    (c.manager.state.configured path priorities name).WantsAll
  | .configure settings _ => NoneSkipped settings.filePriorities
  | .sendMetrics _ _ =>
    c.manager.state.torrentStatus = .validating → c.manager.state.validationPiecesFound < torrent.numPieces
  | _ => True

/-! ### Restarting -/

structure Shows (settings : TorrentSettings) (display : TorrentDisplayState) : Prop where
  complete : display.latestState.isComplete = settings.validationStatus
  silent : display.latestState.activityMessage = ""
  nothing : display.latestState.numberOfPiecesCompleted = 0
  priorities : display.latestState.filePriorities = settings.filePriorities ∨ display.latestState.filePriorities = ∅

def AllShow (settings : TorrentSettings) (app : App) : Prop :=
  ∀ infoHash display, app.torrents.lookup infoHash = some display → Shows settings display

variable {settings : TorrentSettings} {app : App}

theorem allShow_startRuntime {infoHash : Bytes} (name failure : String) (created : Except String Unit)
    (empty : app.torrents = ∅) (shows : Shows settings placeholder) :
    AllShow settings (app.startRuntime infoHash placeholder name failure created).1 := by
  have inserted : ∀ other display, (app.torrents.insert infoHash placeholder).lookup other = some display →
      Shows settings display := forall_insert (by simp [empty]) shows
  unfold App.startRuntime
  cases created with
  | ok => exact inserted
  | error => exact fun other display found => inserted other display (lookup_of_erase found)

theorem allShow_addConfigured (sources : TorrentSources) (outcome : LoadOutcome) (settings : TorrentSettings)
    (empty : app.torrents = ∅) : AllShow settings (app.addConfigured sources outcome settings).1 := by
  have unchanged : AllShow settings app := by
    intro infoHash display found
    rw [empty, lookup_empty] at found
    cases found
  have absent : ∀ infoHash, infoHash ∉ app.torrents := fun infoHash => empty ▸ AList.notMem_empty infoHash
  unfold App.addConfigured
  split_ifs
  · unfold App.addMagnetTorrent
    split
    · exact unchanged
    split
    · exact unchanged
    rename_i infoHash known
    dsimp only
    rw [if_neg fun both => absent infoHash both.1, if_neg (absent infoHash)]
    exact allShow_startRuntime _ _ _ empty ⟨rfl, rfl, rfl, .inr rfl⟩
  · unfold App.addTorrentFromFile
    split
    · exact unchanged
    rename_i file taken
    dsimp only
    rw [if_neg fun both => absent file.infoHash both.1, if_neg (absent file.infoHash)]
    split
    · exact unchanged
    · exact allShow_startRuntime _ _ _ empty ⟨rfl, rfl, rfl, .inl rfl⟩

theorem allShow_preserveRestoredAddedAt (shows : AllShow settings app) (restored : TorrentSettings) :
    AllShow settings (app.preserveRestoredAddedAt sources restored) := by
  unfold App.preserveRestoredAddedAt
  split
  · exact forall_modify shows fun _ shown => { shown with }
  · exact shows

theorem shows_of_loaded {display : TorrentDisplayState}
    (loaded : loadedDisplay sources outcome settings = some display) : Shows settings display := by
  unfold loadedDisplay at loaded
  extract_lets app at loaded
  obtain ⟨infoHash, -, found⟩ := bind_eq_some_iff.mp loaded
  have empty : app.torrents = ∅ := rfl
  have added := allShow_addConfigured sources outcome settings empty
  suffices shows : AllShow settings (app.loadRuntimeTorrentFromSettings sources (fun _ => outcome) settings).1 from
    shows infoHash display found
  unfold App.loadRuntimeTorrentFromSettings
  split_ifs with deleting suppressed
  · intro other display found
    rw [empty, lookup_empty] at found
    cases found
  · exact absurd suppressed (by simp [App.shouldSuppressFollowerRuntimeForTorrent, app, App.initial])
  dsimp only
  split_ifs
  · exact allShow_preserveRestoredAddedAt added settings
  · exact added

theorem Shows.claims {display : TorrentDisplayState} (shows : Shows settings display)
    (claims : display.latestState.Claims) : settings.validationStatus = true := by
  rcases claims with complete | marks | ⟨positive, counted⟩
  · exact shows.complete.symm.trans complete
  · rw [shows.silent] at marks
    cases marks
  · rw [shows.nothing] at counted
    exact absurd positive (by omega)

/-! ### Steps -/

theorem accounted_new {verified : Finset ℕ} {infoHash : Bytes} {trackers : AList fun _ : String => TrackerState}
    {containerName : Option String} {now : ℕ} (honest : flag = true → ∀ p < torrent.numPieces, p ∈ verified) :
    Manager.Accounted torrent verified ⟨TorrentState.new infoHash trackers flag containerName now, [], []⟩ where
  backed :=
    { sound := sound_initial ⟨_, _, _, _, _, rfl⟩
      own := nofun
      marked := nofun
      wanted := fun _ => PieceManager.not_skipped_of_priorities_nil rfl
      complete := nofun }
  flag := honest
  tasks _ member := absurd member not_mem_nil
  inbox _ member := absurd member not_mem_nil

theorem Genuine.supported (genuine : Genuine torrent c (.manager o)) (unskipped : Unskipped torrent c (.manager o))
    (honest : Honest torrent c) : o.Supported torrent c.verified c.manager := by
  cases o with
  | action host a =>
    cases a with
    | metadataReceived given length => exact ⟨genuine, unskipped⟩
    | setUserTorrentConfig path priorities name => exact unskipped
    | pieceWrittenToDisk k p => exact honest.ordered genuine
    | validationComplete completed => cases genuine
    | _ => trivial
  | _ => trivial

theorem persisted_honest (honest : Honest torrent c)
    (persisted : (App.persistedTorrent [c.config] c.display).validationStatus = true) : c.AllVerified torrent := by
  rcases claims_of_persisted honest.display_wanted persisted with earlier | claims
  · simp only [reverse_singleton, find?_singleton] at earlier
    split_ifs at earlier
    · exact honest.config earlier
    · exact nomatch earlier
  · exact honest.shown claims

/-- Every genuine event without skipped files keeps the client honest. -/
theorem Honest.step (honest : Honest torrent c) (small : torrent.numPieces < 2 ^ 32) (genuine : Genuine torrent c event)
    (unskipped : Unskipped torrent c event) (run : c.step sha1 sha sources event = some d) : Honest torrent d := by
  cases event with
  | manager o =>
    obtain ⟨manager, happens, rfl⟩ := map_eq_some_iff.mp run
    have grows : c.verified ⊆ c.verified ∪ c.manager.verifies sha1 sha o := subset_union_left
    have more : ∀ {claim : Prop}, (claim → c.AllVerified torrent) → claim → ∀ p < torrent.numPieces,
        p ∈ c.verified ∪ c.manager.verifies sha1 sha o :=
      fun verified claim p inside => grows (verified claim p inside)
    exact
      { manager := honest.manager.occur small.le (genuine.supported unskipped honest) happens
        ordered := union_subset_union honest.ordered (Manager.orders_subset honest.manager)
        told := fun message waiting => more (honest.told message waiting)
        shown := more honest.shown
        config := more honest.config
        saved := more honest.saved
        display_wanted := honest.display_wanted
        saved_wanted := honest.saved_wanted }
  | searchDht =>
    cases run
    have accounted := honest.manager
    exact { honest with manager := { accounted with } }
  | sendMetrics dlSpeed ulSpeed =>
    cases run
    refine { honest with told := fun message sent claims => ?_ }
    cases sent
    exact verified_of_claims honest.manager.backed small unskipped claims
  | drainMetrics =>
    obtain ⟨message, waiting, rfl⟩ := map_eq_some_iff.mp run
    exact { honest with told := nofun, shown := honest.told message waiting }
  | configure settings defaultFolder =>
    cases run
    exact { honest with shown := honest.shown, config := honest.config, display_wanted := unskipped }
  | save =>
    cases run
    have truth := persisted_honest honest
    exact { honest with config := truth, saved := truth, saved_wanted := honest.display_wanted }
  | restart outcome trackers now =>
    obtain ⟨display, loaded, rfl⟩ := map_eq_some_iff.mp run
    have shows := shows_of_loaded loaded
    refine
      { manager := accounted_new honest.saved
        ordered := empty_subset _
        told := nofun
        shown := fun claims => honest.saved (shows.claims claims)
        config := honest.saved
        saved := honest.saved
        display_wanted := ?_
        saved_wanted := honest.saved_wanted }
    rcases shows.priorities with same | empty
    · rw [NoneSkipped, same]
      exact honest.saved_wanted
    · rw [NoneSkipped, empty]
      rfl

/-- A client that has not loaded the torrent, with settings that tell the truth and skip no file. -/
def Starts (torrent : Torrent) (c : Client) : Prop :=
  ∃ saved verified, c = initial saved verified ∧ NoneSkipped saved.filePriorities ∧
    (saved.validationStatus = true → ∀ p < torrent.numPieces, p ∈ verified)

theorem Starts.honest (starts : Starts torrent c) : Honest torrent c := by
  obtain ⟨saved, verified, rfl, wanted, truth⟩ := starts
  have nothing : ¬({} : TorrentMetrics).Claims := by
    rw [TorrentMetrics.Claims]
    decide
  exact
    { manager := accounted_new nofun
      ordered := empty_subset _
      told := nofun
      shown := fun claims => absurd claims nothing
      config := truth
      saved := truth
      display_wanted := rfl
      saved_wanted := wanted }

end Client

/-- In every run without skipped files and pieces, and without a snapshot between the last report of a validation and
its result, a torrent of less than `2 ^ 32` pieces is saved as validated only if all of its pieces had been verified,
and no piece that never was is marked, through any number of restarts. -/
theorem saved_status_honest {sources : TorrentSources} {first c : Client} (small : torrent.numPieces < 2 ^ 32)
    (starts : first.Starts torrent) (run : Steps (fun event c d => c.step sha1 sha sources event = some d)
      (fun c event => c.Genuine torrent event ∧ c.Unskipped torrent event) first c) :
    (c.saved.validationStatus = true → ∀ p < torrent.numPieces, p ∈ c.verified) ∧
      ∀ p, c.manager.state.IsDone p → p ∈ c.verified := by
  have honest : c.Honest torrent := run.preserves (Client.Honest torrent)
    (fun _ _ _ allowed moved honest => honest.step small allowed.1 allowed.2 moved) starts.honest
  exact ⟨honest.saved, honest.manager.backed.marked⟩

section Pair

open TwoTorrents

/-- The client starts with a torrent of two files, one piece each. -/
def freshClient : Client := .initial { torrentOrMagnet := "/a", name := "a" } ∅

theorem freshClient_starts : freshClient.Starts (plainTorrent 2) :=
  ⟨_, _, rfl, rfl, nofun⟩

def loadPair : List ClientEvent :=
  [.restart (good "/a") ∅ 0, .manager (.action {} (.setUserTorrentConfig "d" ∅ none)),
    .manager (.action {} (.metadataReceived (plainTorrent 2) 0))]

def hashPair (received : ℕ) : List ClientEvent :=
  .manager (.validate 0 .stored fun _ => .file [1, 2, 3, 4]) :: replicate received (.manager (.receive {} 0))

/-- What the manager knows reaches the settings on disk. -/
def tellAndSave : List ClientEvent := [.sendMetrics 0 0, .drainMetrics, .save]

def skipAndSave : List ClientEvent :=
  [.configure { torrentOrMagnet := "/a", name := "a", filePriorities := Finmap.singleton 0 .skip } none, .save]

/-- Nothing is ever verified, and yet the torrent is saved as validated: when a file is skipped, so that after a
restart both pieces are marked, and when the client is saved just before the result of a validation that accepts
nothing. -/
theorem unverified_torrent_saved :
    (∃ c, Steps (fun event c d => c.step zeroDigest zeroHash sources event = some d) (Client.Genuine (plainTorrent 2))
        freshClient c ∧ c.saved.validationStatus = true ∧ c.verified = ∅ ∧
        c.manager.state.IsDone 0 ∧ c.manager.state.IsDone 1) ∧
      ∃ c, Steps (fun event c d => c.step (fun _ => []) zeroHash sources event = some d)
        (Client.Genuine (plainTorrent 2)) freshClient c ∧ c.saved.validationStatus = true ∧ c.verified = ∅ ∧
        c.saved.filePriorities = ∅ := by
  constructor
  · refine Steps.exists_replay _ (fun (c : Client) event => c.step zeroDigest zeroHash sources event) (fun _ _ => true)
      (loadPair ++ skipAndSave ++ loadPair) freshClient (fun c => c.saved.validationStatus = true ∧ c.verified = ∅ ∧
        c.manager.state.IsDone 0 ∧ c.manager.state.IsDone 1) (by simp [loadPair, skipAndSave, Client.Genuine])
      (by decide +kernel)
  · refine Steps.exists_replay _ (fun (c : Client) event => c.step (fun _ => []) zeroHash sources event)
      (fun _ _ => true) (loadPair ++ hashPair 2 ++ tellAndSave) freshClient (fun c =>
        c.saved.validationStatus = true ∧ c.verified = ∅ ∧ c.saved.filePriorities = ∅) (by
        simp [loadPair, hashPair, tellAndSave, Client.Genuine]) (by decide +kernel)

def mayHappen (c : Client) : ClientEvent → Bool
  | .sendMetrics _ _ => c.manager.state.torrentStatus ≠ .validating
  | .manager (.action _ (.setUserTorrentConfig _ _ _)) => c.manager.state.torrent.isNone
  | .manager (.action _ (.metadataReceived _ _)) => c.manager.state.filePriorities.keys = []
  | _ => true

/-- Before there is metadata, no piece is skipped. -/
theorem wantsAll_configured (unloaded : s.torrent = none) : (s.configured folder ∅ name).WantsAll := by
  intro priorities calculated
  rw [calculatePiecePriorities, configured, unloaded] at calculated
  exact some.inj calculated ▸ not_mem_nil

/-- Both pieces are hashed, the torrent is saved as validated, and after a restart both are marked. -/
theorem hashed_torrent_saved : ∃ c : Client, c.saved.validationStatus = true ∧ c.manager.state.IsDone 1 ∧
    (∀ p < (plainTorrent 2).numPieces, p ∈ c.verified) ∧ ∀ p, c.manager.state.IsDone p → p ∈ c.verified := by
  obtain ⟨c, run, facts⟩ := Steps.exists_replay
    (fun c event => c.Genuine (plainTorrent 2) event ∧ c.Unskipped (plainTorrent 2) event)
    (fun (c : Client) event => c.step zeroDigest zeroHash sources event) mayHappen
    (loadPair ++ hashPair 3 ++ tellAndSave ++ loadPair) freshClient
    (fun c => c.saved.validationStatus = true ∧ c.manager.state.IsDone 1) (by
      simp +contextual [loadPair, hashPair, tellAndSave, Client.Genuine, Client.Unskipped, mayHappen,
        wantsAll_configured]) (by decide +kernel)
  have honest := saved_status_honest (by decide) freshClient_starts run
  exact ⟨c, facts.1, facts.2, honest.1 facts.1, honest.2⟩

end Pair

end Superseedr
