import Superseedr.Model.Application

/-! # Torrents of the runtime

Whatever is added, loaded or brought in line with settings, the settings and the role of the application stay,
the startup queue loses nothing, and displays stay unless their torrents are to go. A load that ends well
leaves its torrent displayed, and the loops that start torrents leave each of them displayed or queued.
-/

namespace Superseedr

open List AList

variable {infoHash : Bytes} {placeholder : TorrentDisplayState} {name message magnetLink : String}
  {created : Except String Unit} {containerName : Option String} {filePriorities : Finmap fun _ : ℕ => FilePriority}
  {result : CommandIngestResult} {outcome : App × CommandIngestResult} {entry : (_ : Bytes) × TorrentSettings}
  {sources : TorrentSources}

namespace TorrentSources

theorem infoHashFromTorrentSource_torrentFilePath :
    sources.infoHashFromTorrentSource (sources.torrentFilePath infoHash) = some infoHash := by
  rw [infoHashFromTorrentSource, sources.torrentFilePath_isFile, if_neg Bool.false_ne_true,
    sources.fileStemHash_torrentFilePath]

theorem infoHashFromTorrentSource_magnet (isMagnet : magnetLink.startsWith "magnet:" = true)
    (parsed : ((sources.parseHybridHashes magnetLink).1 <|> (sources.parseHybridHashes magnetLink).2) = some infoHash) :
    sources.infoHashFromTorrentSource magnetLink = some infoHash := by
  rw [infoHashFromTorrentSource, if_pos isMagnet]
  simp only [canonicalInfoHashFromMagnetLink]
  cases v1 : (sources.parseHybridHashes magnetLink).1 with
  | some hash => rw [v1] at parsed; exact parsed
  | none =>
    cases v2 : (sources.parseHybridHashes magnetLink).2 with
    | some hash => rw [v1, v2] at parsed; exact parsed
    | none => rw [v1, v2] at parsed; exact nomatch parsed

end TorrentSources

/-- The copies of a torrent file are written and the manager is made. -/
structure LoadOutcome.Starts (outcome : LoadOutcome) : Prop where
  prepared : outcome.prepared = .ok ()
  created : outcome.created = .ok ()

abbrev TorrentSettings.Wanted (torrent : TorrentSettings) : Prop := torrent.torrentControlState ≠ .deleting

namespace App

/-- The info hash of a magnet link, as the code that adds it reads it. -/
def hybridHash (sources : TorrentSources) (magnetLink : String) : Option Bytes :=
  (sources.parseHybridHashes magnetLink).1 <|> (sources.parseHybridHashes magnetLink).2

/-! ## What no step breaks -/

structure Sound (sources : TorrentSources) (app : App) : Prop where
  watched : app.watches ⊆ app.managers
  displayed : ∀ infoHash ∈ app.managers, infoHash ∈ app.torrents
  sourced : ∀ infoHash display, app.torrents.lookup infoHash = some display →
    sources.infoHashFromTorrentSource display.latestState.torrentOrMagnet = some infoHash

/-- Settings and role stay, what waits keeps waiting, and of the displays those that are to be kept are. -/
structure Grows (sources : TorrentSources) (kept : Bytes → Prop) (before after : App) : Prop where
  follower : after.isFollower = before.isFollower
  configs : after.clientConfigs = before.clientConfigs
  preview : after.pendingMagnetPreviewInfoHash = before.pendingMagnetPreviewInfoHash
  deferred : before.startupDeferredLoadQueue ⊆ after.startupDeferredLoadQueue
  shown : ∀ infoHash, kept infoHash → infoHash ∈ before.torrents → infoHash ∈ after.torrents
  sound : before.Sound sources → after.Sound sources

variable {app before after : App} {kept : Bytes → Prop}

theorem Grows.refl : Grows sources kept app app := ⟨rfl, rfl, rfl, .refl _, fun _ _ => id, id⟩

theorem Grows.trans {first middle last : App} (left : Grows sources kept first middle)
    (right : Grows sources kept middle last) : Grows sources kept first last where
  follower := right.follower.trans left.follower
  configs := right.configs.trans left.configs
  preview := right.preview.trans left.preview
  deferred := List.Subset.trans left.deferred right.deferred
  shown infoHash keep member := right.shown infoHash keep (left.shown infoHash keep member)
  sound := right.sound ∘ left.sound

theorem Grows.mono {fewer : Bytes → Prop} (grows : Grows sources kept before after)
    (less : ∀ infoHash, fewer infoHash → kept infoHash) : Grows sources fewer before after :=
  { grows with shown := fun infoHash keep => grows.shown infoHash (less infoHash keep) }

theorem Grows.foldl {α : Type*} {round : App → α → App} {l : List α}
    (each : ∀ app, ∀ x ∈ l, Grows sources kept app (round app x)) : Grows sources kept app (l.foldl round app) := by
  induction l generalizing app with
  | nil => exact .refl
  | cons x rest ih =>
    exact (each app x (.head _)).trans (ih fun app y member => each app y (.tail x member))

theorem grows_modify {f : TorrentDisplayState → TorrentDisplayState}
    (keeps : ∀ display, sources.infoHashFromTorrentSource display.latestState.torrentOrMagnet = some infoHash →
      sources.infoHashFromTorrentSource (f display).latestState.torrentOrMagnet = some infoHash) :
    Grows sources kept app { app with torrents := app.torrents.modify infoHash f } :=
  ⟨rfl, rfl, rfl, .refl _, fun _ _ => mem_modify.mpr, fun sound => ⟨sound.watched,
    fun other member => mem_modify.mpr (sound.displayed other member), forall_modify sound.sourced keeps⟩⟩

theorem grows_show {display : TorrentDisplayState}
    (source : sources.infoHashFromTorrentSource display.latestState.torrentOrMagnet = some infoHash) :
    Grows sources kept app { app with torrents := app.torrents.insert infoHash display } :=
  ⟨rfl, rfl, rfl, .refl _, fun _ _ member => (mem_insert _).mpr (.inr member), fun sound => ⟨sound.watched,
    fun other member => (mem_insert _).mpr (.inr (sound.displayed other member)), forall_insert sound.sourced source⟩⟩

theorem grows_defer (infoHash : Bytes) :
    Grows sources kept app { app with startupDeferredLoadQueue := app.startupDeferredLoadQueue ++ [infoHash] } :=
  ⟨rfl, rfl, rfl, subset_append_left .., fun _ _ => id, fun sound => { sound with }⟩

theorem grows_removeTorrentRuntime (removed : Bytes) :
    Grows sources (· ≠ removed) app (app.removeTorrentRuntime removed) := by
  refine ⟨rfl, rfl, rfl, .refl _, fun other differ member => mem_erase.mpr ⟨differ, member⟩, fun sound =>
    ⟨Finset.erase_subset_erase removed sound.watched, fun other member => ?_, fun other display found =>
      sound.sourced other display (lookup_of_erase found)⟩⟩
  obtain ⟨differ, member⟩ := Finset.mem_erase.mp member
  exact mem_erase.mpr ⟨differ, sound.displayed other member⟩

/-! ## Adding torrents -/

theorem startRuntime_cleared (idle : ¬ (infoHash ∈ app.torrents ∧ infoHash ∈ app.managers)) :
    (if infoHash ∈ app.torrents then app.clearDisplayOnlyTorrent infoHash else app).startRuntime
    infoHash placeholder name message created = app.startRuntime infoHash placeholder name message created := by
  split_ifs with shown
  · simp only [clearDisplayOnlyTorrent, if_neg fun live => idle ⟨shown, live⟩, startRuntime, insert_erase]
  · rfl

theorem grows_startRuntime
    (source : sources.infoHashFromTorrentSource placeholder.latestState.torrentOrMagnet = some infoHash) :
    Grows sources kept app (app.startRuntime infoHash placeholder name message (.ok ())).1 := by
  refine ⟨rfl, rfl, rfl, .refl _, fun _ _ member => (mem_insert _).mpr (.inr member), fun sound =>
    ⟨Finset.insert_subset_insert infoHash sound.watched, fun other live => ?_, forall_insert sound.sourced source⟩⟩
  rcases Finset.mem_insert.mp live with rfl | live
  · exact (mem_insert _).mpr (.inl rfl)
  · exact (mem_insert _).mpr (.inr (sound.displayed other live))

theorem grows_configureDuplicate {path : String} :
    Grows sources kept app (app.configureDuplicate infoHash path containerName filePriorities) :=
  grows_modify fun _ source => source

structure Added (sources : TorrentSources) (app : App) (infoHash : Option Bytes) (outcome : App × CommandIngestResult) :
    Prop where
  grows : Grows sources (fun _ => True) app outcome.1
  running : outcome.2.restored = true → ∃ hash, infoHash = some hash ∧ hash ∈ outcome.1.torrents
  fresh : ∀ hash name, outcome.2 = .added hash name → ∃ new, hash = some new ∧ infoHash = some new ∧
    ¬ (new ∈ app.torrents ∧ new ∈ app.managers)

theorem Added.of_duplicate {name : Option String} (grows : Grows sources (fun _ => True) app after)
    (shown : infoHash ∈ app.torrents) : Added sources app (some infoHash) (after, .duplicate (some infoHash) name) :=
  ⟨grows, fun _ => ⟨infoHash, rfl, grows.shown infoHash trivial shown⟩, nofun⟩

theorem Added.of_rejected {infoHash : Option Bytes} (rejected : result.restored = false) :
    Added sources app infoHash (app, result) := by
  refine ⟨.refl, fun restored => ?_, fun hash name isAdded => ?_⟩
  · cases rejected.symm.trans restored
  · rw [show result = .added hash name from isAdded] at rejected
    exact nomatch rejected

theorem Added.imp {infoHash other : Option Bytes} (added : Added sources app infoHash outcome)
    (same : ∀ hash, infoHash = some hash → other = some hash) : Added sources app other outcome where
  grows := added.grows
  running restored :=
    let ⟨hash, known, shown⟩ := added.running restored
    ⟨hash, same hash known, shown⟩
  fresh hash name isAdded :=
    let ⟨new, isNew, known, idle⟩ := added.fresh hash name isAdded
    ⟨new, isNew, same new known, idle⟩

theorem Added.of_started {failure : String}
    (source : sources.infoHashFromTorrentSource placeholder.latestState.torrentOrMagnet = some infoHash)
    (idle : ¬ (infoHash ∈ app.torrents ∧ infoHash ∈ app.managers)) : Added sources app (some infoHash)
      ((if infoHash ∈ app.torrents then app.clearDisplayOnlyTorrent infoHash else app).startRuntime infoHash placeholder
        name failure (.ok ())) := by
  rw [startRuntime_cleared idle]
  refine ⟨grows_startRuntime source, fun _ => ⟨infoHash, rfl, ?_⟩, fun hash other isAdded => ?_⟩
  · exact (mem_insert _).mpr (.inl rfl)
  · obtain ⟨rfl, -⟩ := CommandIngestResult.added.inj isAdded
    exact ⟨infoHash, rfl, rfl, idle⟩

section Adding

variable {outcome : LoadOutcome} {downloadPath : Option String} {isValidated : Bool} {state : TorrentControlState}
  {filePriorities : Finmap (fun _ : ℕ => FilePriority)}

theorem addTorrentFromFile_added (starts : outcome.Starts) :
    Added sources app (outcome.torrentFile.toOption.map TorrentFileSummary.infoHash)
      (app.addTorrentFromFile sources outcome downloadPath isValidated state filePriorities containerName) := by
  rw [addTorrentFromFile]
  cases outcome.torrentFile with
  | error error => exact .of_rejected (by cases error <;> rfl)
  | ok torrent =>
    by_cases running : torrent.infoHash ∈ app.torrents ∧ torrent.infoHash ∈ app.managers
    · simp only [running, and_self, if_true]
      refine .of_duplicate ?_ running.1
      split_ifs
      · cases downloadPath with
        | none => exact .refl
        | some path => exact grows_configureDuplicate
      · exact .refl
    · simp only [running, if_false, starts.prepared, starts.created]
      exact .of_started TorrentSources.infoHashFromTorrentSource_torrentFilePath running

theorem addTorrentFromFile_restored (starts : outcome.Starts) {torrent : TorrentFileSummary}
    (taken : outcome.torrentFile = .ok torrent) :
    (app.addTorrentFromFile sources outcome downloadPath isValidated state filePriorities containerName).2.restored =
      true := by
  rw [addTorrentFromFile, taken, starts.prepared, starts.created]
  dsimp only
  split_ifs <;> rfl

theorem addMagnetTorrent_added (app : App) (starts : outcome.Starts)
    (isMagnet : magnetLink.startsWith "magnet:" = true) : Added sources app (hybridHash sources magnetLink)
      (app.addMagnetTorrent sources outcome name magnetLink downloadPath isValidated state filePriorities
        containerName) := by
  rw [addMagnetTorrent]
  cases outcome.magnet with
  | error error => exact .of_rejected rfl
  | ok =>
    rw [← hybridHash]
    cases parsed : hybridHash sources magnetLink with
    | none => exact .of_rejected rfl
    | some infoHash =>
      by_cases running : infoHash ∈ app.torrents ∧ infoHash ∈ app.managers
      · simp only [running, and_self, if_true]
        refine .of_duplicate ?_ running.1
        cases downloadPath with
        | none => exact .refl
        | some path => exact grows_configureDuplicate
      · simp only [running, if_false, starts.created]
        exact .of_started (TorrentSources.infoHashFromTorrentSource_magnet isMagnet parsed) running

theorem addMagnetTorrent_restored (starts : outcome.Starts) (parses : outcome.magnet = .ok ())
    (known : (hybridHash sources magnetLink).isSome = true) :
    (app.addMagnetTorrent sources outcome name magnetLink downloadPath isValidated state filePriorities
      containerName).2.restored = true := by
  obtain ⟨infoHash, parsed⟩ := Option.isSome_iff_exists.mp known
  rw [addMagnetTorrent, parses, ← hybridHash, parsed, starts.created]
  dsimp only
  split_ifs <;> rfl

end Adding

/-! ## Loading configured torrents -/

/-- What is taken can be started, and torrent files hold the torrents their names promise. -/
def Truthful (sources : TorrentSources) (outcomes : Outcomes) : Prop :=
  ∀ source, (outcomes source).Starts ∧
    (source.startsWith "magnet:" = false → ∀ torrent, (outcomes source).torrentFile = .ok torrent →
      sources.infoHashFromTorrentSource source = some torrent.infoHash)

/-- The source can be loaded. -/
def Available (sources : TorrentSources) (outcomes : Outcomes) (source : String) : Prop :=
  if source.startsWith "magnet:" then (outcomes source).magnet = .ok () ∧ (hybridHash sources source).isSome = true
  else (outcomes source).torrentFile.isOk = true

variable {outcomes : Outcomes} {torrent : TorrentSettings} {torrents : List TorrentSettings}

theorem grows_ensureDisplayOnly :
    Grows sources kept app (app.ensureDisplayOnlyTorrentFromSettings sources torrent) := by
  rw [ensureDisplayOnlyTorrentFromSettings]
  cases known : sources.infoHash torrent with
  | none => exact .refl
  | some infoHash =>
    dsimp only
    split_ifs
    · exact .refl
    · exact grows_show known

theorem grows_preserveRestoredAddedAt : Grows sources kept app (app.preserveRestoredAddedAt sources torrent) := by
  rw [preserveRestoredAddedAt]
  split
  · exact grows_modify fun _ source => source
  · exact .refl

def Reached (sources : TorrentSources) (app : App) (torrent : TorrentSettings) : Prop :=
  ∃ infoHash, sources.infoHash torrent = some infoHash ∧
    (infoHash ∈ app.torrents ∨ infoHash ∈ app.startupDeferredLoadQueue)

theorem Reached.grow (reached : Reached sources before torrent) (grows : Grows sources (fun _ => True) before after) :
    Reached sources after torrent := by
  obtain ⟨infoHash, known, shown | queued⟩ := reached
  · exact ⟨infoHash, known, .inl (grows.shown infoHash trivial shown)⟩
  · exact ⟨infoHash, known, .inr (grows.deferred queued)⟩

/-- One round of a loop that starts torrents: nothing is lost, and unless the host follows, a torrent that can be
loaded is displayed or queued afterwards. -/
structure Launch (sources : TorrentSources) (outcomes : Outcomes) (torrent : TorrentSettings) (before after : App) :
    Prop where
  grows : Grows sources (fun _ => True) before after
  reaches : before.isFollower = false → before.Sound sources → torrent.torrentControlState ≠ .deleting →
    Available sources outcomes torrent.torrentOrMagnet → Reached sources after torrent

inductive Launches (sources : TorrentSources) (outcomes : Outcomes) : List TorrentSettings → App → App → Prop
  | done (app : App) : Launches sources outcomes [] app app
  | next {torrent : TorrentSettings} {rest : List TorrentSettings} {first middle last : App}
      (launch : Launch sources outcomes torrent first middle) (others : Launches sources outcomes rest middle last) :
      Launches sources outcomes (torrent :: rest) first last

theorem Launches.grows (launches : Launches sources outcomes torrents before after) :
    Grows sources (fun _ => True) before after := by
  induction launches with
  | done app => exact .refl
  | next launch _ ih => exact launch.grows.trans ih

theorem Launches.reaches (launches : Launches sources outcomes torrents before after)
    (leads : before.isFollower = false) (sound : before.Sound sources)
    (available : ∀ torrent ∈ torrents, torrent.Wanted → Available sources outcomes torrent.torrentOrMagnet) :
    ∀ torrent ∈ torrents, torrent.Wanted → Reached sources after torrent := by
  induction launches with
  | done app => exact fun torrent member => absurd member not_mem_nil
  | next launch others ih =>
    intro torrent member wanted
    rcases mem_cons.mp member with rfl | member
    · exact (launch.reaches leads sound wanted (available torrent (.head _) wanted)).grow others.grows
    · exact ih (launch.grows.follower.trans leads) (launch.grows.sound sound)
        (fun other isOther => available other (.tail _ isOther)) torrent member wanted

theorem launch_defer (app : App) (known : sources.infoHash torrent = some infoHash) :
    Launch sources outcomes torrent app
      { app with startupDeferredLoadQueue := app.startupDeferredLoadQueue ++ [infoHash] } :=
  ⟨grows_defer infoHash, fun _ _ _ _ =>
    ⟨infoHash, known, .inr (mem_append_right _ (.head _))⟩⟩

theorem not_suppressed (leads : app.isFollower = false) :
    app.shouldSuppressFollowerRuntimeForTorrent torrent = false := by
  rw [shouldSuppressFollowerRuntimeForTorrent, leads, Bool.false_and]

section Loading

variable (truthful : Truthful sources outcomes)

include truthful

theorem addConfigured_added (app : App) (torrent : TorrentSettings) :
    Added sources app (sources.infoHash torrent)
      (app.addConfigured sources (outcomes torrent.torrentOrMagnet) torrent) := by
  obtain ⟨starts, holds⟩ := truthful torrent.torrentOrMagnet
  rw [addConfigured]
  split_ifs with isMagnet
  · exact (addMagnetTorrent_added app starts isMagnet).imp fun hash parsed =>
      TorrentSources.infoHashFromTorrentSource_magnet isMagnet parsed
  refine (addTorrentFromFile_added starts).imp fun hash taken => ?_
  obtain ⟨file, file_eq, rfl⟩ := Option.map_eq_some_iff.mp taken
  refine holds (Bool.eq_false_iff.mpr isMagnet) file ?_
  cases answer : (outcomes torrent.torrentOrMagnet).torrentFile with
  | error error => rw [answer] at file_eq; exact nomatch file_eq
  | ok other => rw [answer] at file_eq; exact congrArg Except.ok (Option.some.inj file_eq)

theorem addConfigured_restored (app : App) (available : Available sources outcomes torrent.torrentOrMagnet) :
    (app.addConfigured sources (outcomes torrent.torrentOrMagnet) torrent).2.restored = true := by
  have starts := (truthful torrent.torrentOrMagnet).1
  rw [Available] at available
  rw [addConfigured]
  split_ifs at available ⊢ with isMagnet
  · exact addMagnetTorrent_restored starts available.1 available.2
  · cases taken : (outcomes torrent.torrentOrMagnet).torrentFile with
    | error error => rw [taken] at available; exact nomatch available
    | ok file => exact addTorrentFromFile_restored starts taken

theorem load_grows (app : App) :
    Grows sources (fun _ => True) app (app.loadRuntimeTorrentFromSettings sources outcomes torrent).1 := by
  have added := (addConfigured_added truthful app torrent).grows
  rw [loadRuntimeTorrentFromSettings]
  split_ifs
  · exact .refl
  · exact grows_ensureDisplayOnly
  dsimp only
  split_ifs
  · exact added.trans grows_preserveRestoredAddedAt
  · exact added

theorem load_shown (leads : app.isFollower = false)
    (loaded : (app.loadRuntimeTorrentFromSettings sources outcomes torrent).2 = true) :
    ∃ hash, sources.infoHash torrent = some hash ∧
      hash ∈ (app.loadRuntimeTorrentFromSettings sources outcomes torrent).1.torrents := by
  have running := (addConfigured_added truthful app torrent).running
  simp only [loadRuntimeTorrentFromSettings, not_suppressed leads, Bool.false_eq_true, if_false] at loaded ⊢
  split_ifs at loaded ⊢ with deleting restored
  obtain ⟨hash, known, shown⟩ := running restored
  exact ⟨hash, known, (@grows_preserveRestoredAddedAt sources _ (fun _ => True) torrent).shown hash trivial shown⟩

section

variable (app : App) (leads : app.isFollower = false) (wanted : torrent.Wanted)
  (available : Available sources outcomes torrent.torrentOrMagnet)
include leads wanted available

theorem load_of_available : (app.loadRuntimeTorrentFromSettings sources outcomes torrent).2 = true := by
  have restored := addConfigured_restored truthful app available
  have loadable : shouldLoadPersistedTorrent torrent = true := decide_eq_true wanted
  rw [loadRuntimeTorrentFromSettings, not_suppressed leads, loadable]
  dsimp only
  rw [restored]
  rfl

theorem load_reaches : Reached sources (app.loadRuntimeTorrentFromSettings sources outcomes torrent).1 torrent := by
  obtain ⟨infoHash, known, shown⟩ := load_shown truthful leads (load_of_available truthful app leads wanted available)
  exact ⟨infoHash, known, .inl shown⟩

end

theorem launch_load (app : App) (torrent : TorrentSettings) :
    Launch sources outcomes torrent app (app.loadRuntimeTorrentFromSettings sources outcomes torrent).1 :=
  ⟨load_grows truthful app, fun leads _ => load_reaches truthful app leads⟩

theorem startupLoop_launches (started : ℕ) (torrents : List TorrentSettings) (app : App) :
    Launches sources outcomes torrents app (startupLoop sources outcomes started torrents app) := by
  induction torrents generalizing started app with
  | nil => exact .done app
  | cons torrent rest ih =>
    unfold startupLoop
    extract_lets shouldRoll
    split
    · split
      · rename_i infoHash known
        exact .next (launch_defer app known) (ih started _)
      · exact .next (launch_load truthful app torrent) (ih started _)
    · exact .next (launch_load truthful app torrent) (ih _ _)

/-- What startup loads at once unless the host follows: torrents that do not run, the first ones that run, and those
whose info hash is not known. -/
def startupLoads (sources : TorrentSources) : ℕ → List TorrentSettings → List TorrentSettings
  | _, [] => []
  | started, torrent :: rest =>
    if torrent.torrentControlState = .running ∧ startupRollingLoadsPerInterval ≤ started then
      if (sources.infoHash torrent).isSome then startupLoads sources started rest
      else torrent :: startupLoads sources started rest
    else torrent :: startupLoads sources (if torrent.torrentControlState = .running then started + 1 else started) rest

theorem startupLoop_reaches (started : ℕ) (torrents : List TorrentSettings) (app : App) (leads : app.isFollower = false)
    (available : ∀ torrent ∈ startupLoads sources started torrents, torrent.Wanted →
      Available sources outcomes torrent.torrentOrMagnet) :
    ∀ torrent ∈ torrents, torrent.Wanted →
      Reached sources (startupLoop sources outcomes started torrents app) torrent := by
  induction torrents generalizing started app with
  | nil => exact fun torrent member => absurd member not_mem_nil
  | cons torrent rest ih =>
    have load (later : ℕ) (now : torrent.Wanted → Available sources outcomes torrent.torrentOrMagnet)
        (others : ∀ other ∈ startupLoads sources later rest, other.Wanted →
          Available sources outcomes other.torrentOrMagnet) :
        ∀ other ∈ torrent :: rest, other.Wanted → Reached sources (startupLoop sources outcomes later rest
          (app.loadRuntimeTorrentFromSettings sources outcomes torrent).1) other := by
      refine forall_mem_cons.mpr ⟨fun wanted => ?_, ih later _ ((load_grows truthful app).follower.trans leads) others⟩
      exact (load_reaches truthful app leads wanted (now wanted)).grow
        (startupLoop_launches truthful later rest _).grows
    rw [startupLoads] at available
    rw [startupLoop, not_suppressed leads]
    by_cases rolls : torrent.torrentControlState = .running ∧ startupRollingLoadsPerInterval ≤ started
    · simp only [rolls, and_self, if_true, Bool.not_false, Bool.and_true, decide_true] at available ⊢
      cases known : sources.infoHash torrent with
      | none =>
        rw [known, Option.isSome_none, if_neg Bool.false_ne_true, forall_mem_cons] at available
        exact load started available.1 available.2
      | some infoHash =>
        rw [known] at available
        refine forall_mem_cons.mpr ⟨fun _ => ?_, ih started _ leads available⟩
        exact Reached.grow ⟨infoHash, known, .inr (mem_append_right _ (.head _))⟩
          (startupLoop_launches truthful started rest _).grows
    · rw [if_neg rolls, forall_mem_cons] at available
      have loaded : (app.loadRuntimeTorrentFromSettings sources outcomes torrent).2 = true ∧
          torrent.torrentControlState = .running ↔ torrent.torrentControlState = .running := by
        refine and_iff_right_of_imp fun running => ?_
        have wanted : torrent.Wanted := by simp [running]
        exact load_of_available truthful app leads wanted (available.1 wanted)
      simp only [Bool.not_false, Bool.and_true, Bool.and_eq_true, decide_eq_true_eq, rolls, loaded, if_false]
      exact load _ available.1 available.2

theorem startMissingLoop_launches (started : ℕ) (torrents : List TorrentSettings) (app : App) :
    Launches sources outcomes torrents app (startMissingLoop sources outcomes started torrents app) := by
  induction torrents generalizing started app with
  | nil => exact .done app
  | cons torrent rest ih =>
    unfold startMissingLoop
    split
    · rename_i unknown
      refine .next ⟨.refl, fun leads _ wanted available => ?_⟩ (ih started app)
      obtain ⟨infoHash, known, _⟩ := load_reaches truthful app leads wanted available
      cases unknown.symm.trans known
    rename_i infoHash known
    split
    · rename_i present
      refine .next ⟨.refl, fun _ sound _ _ => ⟨infoHash, known, ?_⟩⟩ (ih started app)
      exact present.imp_left (sound.displayed infoHash)
    split
    · rename_i suppressed
      refine .next ⟨grows_ensureDisplayOnly, fun leads _ _ _ => ?_⟩ (ih started _)
      cases suppressed.symm.trans (not_suppressed leads)
    · split
      · exact .next (launch_defer app known) (ih started _)
      · exact .next (launch_load truthful app torrent) (ih _ _)

theorem loadAll_launches (entries : List (Sigma fun _ : Bytes => TorrentSettings)) (app : App) :
    Launches sources outcomes (entries.map (·.2)) app
      (entries.foldl (fun app entry => (app.loadRuntimeTorrentFromSettings sources outcomes entry.2).1) app) := by
  induction entries generalizing app with
  | nil => exact .done app
  | cons entry rest ih => exact .next (launch_load truthful app entry.2) (ih _)

end Loading

/-! ## The read model of a follower -/

/-- A leader's status names every torrent by its own source. -/
def LeaderSnapshot.Honest (sources : TorrentSources) (snapshot : Option LeaderSnapshot) : Prop :=
  ∀ told, snapshot = some told → ∀ infoHash metrics, told infoHash = some metrics →
    sources.infoHashFromTorrentSource metrics.torrentOrMagnet = some infoHash

theorem applyLeaderMetrics_grows {snapshot : LeaderSnapshot} (honest : LeaderSnapshot.Honest sources (some snapshot)) :
    Grows sources kept app (applyLeaderMetrics sources snapshot app torrent) := by
  rw [applyLeaderMetrics]
  cases sources.infoHash torrent with
  | none => exact .refl
  | some infoHash =>
    refine (@grows_ensureDisplayOnly sources app kept torrent).trans ?_
    dsimp only
    cases told : snapshot infoHash with
    | none =>
      split_ifs
      · exact .refl
      · exact grows_modify fun _ source => source
    | some metrics =>
      refine grows_modify fun display source => ?_
      split_ifs
      · exact source
      · exact honest snapshot rfl infoHash metrics told

theorem refreshFollowerReadModel_grows {snapshot : Option LeaderSnapshot}
    (honest : LeaderSnapshot.Honest sources snapshot) :
    Grows sources kept app (app.refreshFollowerReadModel sources snapshot) := by
  rw [refreshFollowerReadModel]
  split_ifs
  · exact .refl
  have displayed := @Grows.foldl sources app kept _ (fun app torrent =>
    if app.shouldSuppressFollowerRuntimeForTorrent torrent then app.ensureDisplayOnlyTorrentFromSettings sources torrent
    else app) app.clientConfigs.torrents fun app torrent _ => by
      split_ifs
      · exact grows_ensureDisplayOnly
      · exact .refl
  cases snapshot with
  | none => exact displayed
  | some snapshot => exact displayed.trans (.foldl fun app torrent _ => applyLeaderMetrics_grows honest)

/-! ## Applying settings -/

theorem lookup_byHash :
    (byHash sources torrents).lookup infoHash =
      torrents.reverse.find? fun torrent => sources.infoHash torrent = some infoHash := by
  induction torrents using reverseRecOn with
  | nil => rfl
  | append_singleton torrents torrent ih =>
    rw [byHash, foldl_append, ← byHash, reverse_append, foldl_cons, foldl_nil]
    cases known : sources.infoHash torrent with
    | none => simpa [known] using ih
    | some hash =>
      rw [lookup_insert_ite]
      by_cases same : infoHash = hash
      · simp [same, known]
      · simpa [same, known, Ne.symm same] using ih

theorem mem_of_lookup_byHash (lookup : (byHash sources torrents).lookup infoHash = some torrent) :
    torrent ∈ torrents ∧ sources.infoHash torrent = some infoHash := by
  rw [lookup_byHash] at lookup
  exact ⟨mem_reverse.mp (mem_of_find?_eq_some lookup), by simpa using find?_some lookup⟩

theorem mem_byHash :
    infoHash ∈ byHash sources torrents ↔ ∃ torrent ∈ torrents, sources.infoHash torrent = some infoHash := by
  rw [← lookup_isSome, lookup_byHash, find?_isSome]
  simp only [mem_reverse, decide_eq_true_eq]

def Unambiguous (sources : TorrentSources) (torrents : List TorrentSettings) : Prop :=
  ∀ first ∈ torrents, ∀ second ∈ torrents, ∀ infoHash, sources.infoHash first = some infoHash →
    sources.infoHash second = some infoHash → first = second

theorem lookup_byHash_of_mem (unambiguous : Unambiguous sources torrents) (member : torrent ∈ torrents)
    (known : sources.infoHash torrent = some infoHash) : (byHash sources torrents).lookup infoHash = some torrent := by
  obtain ⟨found, lookup⟩ := lookup_eq_some_of_mem (mem_byHash.mpr ⟨torrent, member, known⟩)
  obtain ⟨isMember, found_known⟩ := mem_of_lookup_byHash lookup
  rw [lookup, unambiguous found isMember torrent member infoHash found_known known]

theorem syncConfigured_grows {folder : Option String} :
    Grows sources kept app (syncConfigured sources folder app entry) := by
  rw [syncConfigured]
  have configured : Grows sources kept app
      { app with torrents := app.torrents.modify entry.1 (configureRuntime entry.2 folder) } :=
    grows_modify fun _ source => source
  refine configured.trans ?_
  split_ifs
  · exact grows_ensureDisplayOnly
  · exact .refl

theorem syncRemoved_grows {removed : Bytes} (unwanted : ∀ infoHash, kept infoHash → infoHash ≠ removed) :
    Grows sources kept app (syncRemoved app removed) := by
  rw [syncRemoved]
  split_ifs
  · exact grows_modify fun _ source => source
  · exact (grows_removeTorrentRuntime removed).mono unwanted

section Sync

variable {old new : Settings} {snapshot : Option LeaderSnapshot}

theorem syncKnown_grows (app : App) :
    Grows sources (· ∈ byHash sources new.torrents) app
      (((byHash sources old.torrents).keys.filter fun infoHash =>
      infoHash ∉ byHash sources new.torrents).foldl syncRemoved
        ((byHash sources new.torrents).entries.foldl (syncConfigured sources new.defaultDownloadFolder) app)) := by
  refine (Grows.foldl fun app entry _ => syncConfigured_grows).trans (.foldl fun app removed member => ?_)
  refine syncRemoved_grows fun infoHash configured same => ?_
  have gone := of_decide_eq_true (mem_filter.mp member).2
  exact gone (same ▸ configured)

theorem sync_grows (truthful : Truthful sources outcomes) (honest : LeaderSnapshot.Honest sources snapshot)
    (app : App) : Grows sources (· ∈ byHash sources new.torrents) app
      (app.syncRuntimeTorrentsFromSettings sources old new outcomes snapshot) :=
  (syncKnown_grows app).trans
    (((loadAll_launches truthful _ _).grows.mono fun _ _ => trivial).trans (refreshFollowerReadModel_grows honest))

theorem sync_reaches (truthful : Truthful sources outcomes) (honest : LeaderSnapshot.Honest sources snapshot)
    (leads : app.isFollower = false) (sound : app.Sound sources) (unambiguous : Unambiguous sources new.torrents)
    (member : torrent ∈ new.torrents) (wanted : torrent.Wanted) (known : sources.infoHash torrent = some infoHash)
    (added : infoHash ∉ byHash sources old.torrents) (available : ∀ torrent ∈ new.torrents, ∀ infoHash, torrent.Wanted →
      sources.infoHash torrent = some infoHash → infoHash ∉ byHash sources old.torrents →
      Available sources outcomes torrent.torrentOrMagnet) :
    Reached sources (app.syncRuntimeTorrentsFromSettings sources old new outcomes snapshot) torrent := by
  have entries : (⟨infoHash, torrent⟩ : Sigma fun _ : Bytes => TorrentSettings) ∈
      (byHash sources new.torrents).entries.filter fun entry => entry.1 ∉ byHash sources old.torrents :=
    mem_filter.mpr ⟨mem_lookup_iff.mp (lookup_byHash_of_mem unambiguous member known), decide_eq_true added⟩
  have known_grows := @syncKnown_grows sources old new app
  have reached := (loadAll_launches truthful _ _).reaches (known_grows.follower.trans leads) (known_grows.sound sound)
    (fun other isAdded wanted => ?_) torrent (mem_map_of_mem entries) wanted
  · exact reached.grow (refreshFollowerReadModel_grows honest)
  · obtain ⟨entry, isEntry, rfl⟩ := mem_map.mp isAdded
    obtain ⟨inNew, notOld⟩ := mem_filter.mp isEntry
    obtain ⟨isMember, entry_known⟩ := mem_of_lookup_byHash (mem_lookup_iff.mpr inNew)
    exact available entry.2 isMember entry.1 wanted entry_known (of_decide_eq_true notOld)

end Sync

end App

end Superseedr
