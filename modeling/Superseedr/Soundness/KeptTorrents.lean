import Superseedr.Soundness.RuntimeTorrents

/-! # Configured torrents are kept

What is saved is put together from the displayed torrents and the startup queue. A configured torrent is in it
as long as it is displayed or waits in the queue. Both are lost in other ways than by the user's wish: a
torrent whose load fails outside the queue is in neither, a manager may end although its torrent is still
configured, and a preview hides the torrent it shows. In runs without such events every configured torrent is
saved.
-/

namespace Superseedr

open List Option AList TorrentSettings App

variable {result : App × CommandIngestResult} {configs : Settings} {magnetLink : String} {front : Bytes}
  {rest : List Bytes}

namespace App

variable {sources : TorrentSources} {app before after : App} {torrent : TorrentSettings}
  {applied previous : List TorrentSettings} {infoHash : Bytes}

/-! ## What is saved -/

def Wants (sources : TorrentSources) (torrents : List TorrentSettings) (infoHash : Bytes) : Prop :=
  ∃ torrent ∈ torrents, sources.infoHash torrent = some infoHash ∧ torrent.Wanted

def Held (sources : TorrentSources) (app : App) (infoHash : Bytes) : Prop :=
  app.pendingMagnetPreviewInfoHash ≠ some infoHash ∧ (infoHash ∈ app.torrents ∨
    infoHash ∈ app.startupDeferredLoadQueue ∧ Wants sources app.clientConfigs.torrents infoHash)

def Covered (sources : TorrentSources) (app : App) (torrent : TorrentSettings) : Prop :=
  torrent.Wanted → ∃ infoHash, sources.infoHash torrent = some infoHash ∧ Held sources app infoHash

structure Complete (sources : TorrentSources) (applied : List TorrentSettings) (app : App) : Prop where
  applied : ∀ torrent ∈ applied, Covered sources app torrent
  configured : ∀ torrent ∈ app.clientConfigs.torrents, Covered sources app torrent
  unambiguous : Unambiguous sources app.clientConfigs.torrents

structure Kept (sources : TorrentSources) (applied : List TorrentSettings) (app : App) : Prop where
  sound : app.Sound sources
  follows : app.isFollower = true → app.pendingMagnetPreviewInfoHash = none
  complete : app.isFollower = false → Complete sources applied app

theorem complete_iff : Complete sources applied app ↔
    (∀ torrent ∈ applied ++ app.clientConfigs.torrents, Covered sources app torrent) ∧
      Unambiguous sources app.clientConfigs.torrents := by
  rw [forall_mem_append, and_assoc]
  exact ⟨fun complete => ⟨complete.1, complete.2, complete.3⟩, fun complete => ⟨complete.1, complete.2.1, complete.2.2⟩⟩

theorem Complete.held (complete : Complete sources applied app)
    (wants : Wants sources (applied ++ app.clientConfigs.torrents) infoHash) : Held sources app infoHash := by
  obtain ⟨torrent, member, known, wanted⟩ := wants
  obtain ⟨other, otherKnown, held⟩ := (complete_iff.mp complete).1 torrent member wanted
  obtain rfl := mem_unique otherKnown known
  exact held

theorem Complete.transfer (complete : Complete sources applied before)
    (fewer : after.clientConfigs.torrents ⊆ before.clientConfigs.torrents)
    (still : ∀ infoHash, Wants sources (applied ++ before.clientConfigs.torrents) infoHash →
      Held sources before infoHash → Held sources after infoHash) : Complete sources applied after := by
  obtain ⟨covered, unambiguous⟩ := complete_iff.mp complete
  refine complete_iff.mpr ⟨fun torrent member wanted => ?_, fun first isFirst second isSecond =>
    unambiguous first (fewer isFirst) second (fewer isSecond)⟩
  have member := mem_append.mpr ((mem_append.mp member).imp_right (@fewer torrent))
  obtain ⟨infoHash, known, held⟩ := covered torrent member wanted
  exact ⟨infoHash, known, still infoHash ⟨torrent, member, known, wanted⟩ held⟩

theorem Kept.requeue {queue : List Bytes} (kept : Kept sources applied before)
    (grows : Grows sources (fun _ => True) { before with startupDeferredLoadQueue := queue } after)
    (found : before.isFollower = false → ∀ infoHash ∈ before.startupDeferredLoadQueue, infoHash ∉ queue →
      Wants sources (applied ++ before.clientConfigs.torrents) infoHash →
        infoHash ∈ after.torrents ∨ infoHash ∈ after.startupDeferredLoadQueue) : Kept sources applied after where
  sound := grows.sound { kept.sound with }
  follows follower := grows.preview.trans (kept.follows (grows.follower.symm.trans follower))
  complete leads := by
    have leads := grows.follower.symm.trans leads
    refine (kept.complete leads).transfer (fun _ member => grows.configs ▸ member) ?_
    rintro infoHash wants ⟨visible, shown | ⟨queued, configured⟩⟩
    · exact ⟨grows.preview ▸ visible, .inl (grows.shown infoHash trivial shown)⟩
    · refine ⟨grows.preview ▸ visible, Or.imp_right (⟨·, grows.configs ▸ configured⟩) ?_⟩
      by_cases waits : infoHash ∈ queue
      · exact .inr (grows.deferred waits)
      · exact found leads infoHash queued waits wants

theorem Kept.grow (kept : Kept sources applied before) (grows : Grows sources (fun _ => True) before after) :
    Kept sources applied after :=
  kept.requeue grows fun _ _ queued left => absurd queued left

/-! ## Saving -/

theorem infoHash_persistedTorrent (sound : app.Sound sources) {entry : Sigma fun _ : Bytes => TorrentDisplayState}
    (member : entry ∈ app.shownTorrents.entries) :
    sources.infoHash (persistedTorrent previous entry.2) = some entry.1 := by
  have shown := mem_of_mem_filter member
  exact sound.sourced entry.1 entry.2 (mem_lookup_iff.mpr shown)

theorem mem_shownTorrents (shown : infoHash ∈ app.torrents)
    (visible : app.pendingMagnetPreviewInfoHash ≠ some infoHash) : infoHash ∈ app.shownTorrents := by
  obtain ⟨display, found⟩ := lookup_eq_some_of_mem shown
  apply lookup_isSome.mp
  rw [shownTorrents, lookup_retain, found, filter_some, if_pos (decide_eq_true visible)]
  rfl

theorem mem_deferredTorrents {deferred persisted : List Bytes}
    (member : torrent ∈ deferredTorrents sources deferred persisted previous) :
    torrent ∈ previous ∧ ∃ infoHash, sources.infoHash torrent = some infoHash ∧ infoHash ∈ deferred ∧
      infoHash ∉ persisted := by
  induction previous generalizing persisted with
  | nil => cases member
  | cons head rest ih =>
    rw [deferredTorrents] at member
    split at member
    · obtain ⟨inRest, facts⟩ := ih member
      exact ⟨.tail head inRest, facts⟩
    rename_i infoHash known
    split_ifs at member with isNew
    · rcases mem_cons.mp member with rfl | member
      · exact ⟨.head _, infoHash, known, isNew⟩
      · obtain ⟨inRest, other, otherKnown, queued, fresh⟩ := ih member
        exact ⟨.tail head inRest, other, otherKnown, queued, fun inside =>
          fresh (.tail infoHash inside)⟩
    · obtain ⟨inRest, facts⟩ := ih member
      exact ⟨.tail head inRest, facts⟩

theorem exists_deferredTorrent {deferred persisted : List Bytes} (member : torrent ∈ previous)
    (known : sources.infoHash torrent = some infoHash) (queued : infoHash ∈ deferred) (fresh : infoHash ∉ persisted) :
    ∃ saved ∈ deferredTorrents sources deferred persisted previous, sources.infoHash saved = some infoHash := by
  induction previous generalizing persisted with
  | nil => cases member
  | cons head rest ih =>
    rw [deferredTorrents]
    rcases mem_cons.mp member with rfl | member
    · rw [known]
      dsimp only
      rw [if_pos ⟨queued, fresh⟩]
      exact ⟨torrent, .head _, known⟩
    split
    · exact ih member fresh
    rename_i other otherKnown
    split_ifs with isNew
    · by_cases same : infoHash = other
      · exact ⟨head, .head _, same ▸ otherKnown⟩
      · have stillFresh : infoHash ∉ other :: persisted := fun inside => (mem_cons.mp inside).elim same fresh
        obtain ⟨saved, inside, savedKnown⟩ := ih member stillFresh
        exact ⟨saved, .tail head inside, savedKnown⟩
    · exact ih member fresh

theorem exists_persisted (sound : app.Sound sources) (held : Held sources app infoHash) :
    ∃ saved ∈ app.persistedTorrents sources, sources.infoHash saved = some infoHash := by
  obtain ⟨visible, place⟩ := held
  by_cases shown : infoHash ∈ app.shownTorrents
  · obtain ⟨display, found⟩ := lookup_eq_some_of_mem shown
    have inside := mem_lookup_iff.mp found
    exact ⟨_, mem_append_left _ (mem_map_of_mem inside), infoHash_persistedTorrent sound inside⟩
  rcases place with displayed | ⟨queued, config, member, configKnown, _⟩
  · exact absurd (mem_shownTorrents displayed visible) shown
  · obtain ⟨saved, inside, savedKnown⟩ := exists_deferredTorrent member configKnown queued fun inside =>
      shown (mem_keys.mpr inside)
    exact ⟨saved, mem_append_right _ inside, savedKnown⟩

theorem nodup_deferredTorrents {deferred persisted : List Bytes} :
    ((deferredTorrents sources deferred persisted previous).filterMap sources.infoHash).Nodup := by
  induction previous generalizing persisted with
  | nil => exact nodup_nil
  | cons head rest ih =>
    rw [deferredTorrents]
    split
    · exact ih
    rename_i infoHash known
    split_ifs
    · rw [filterMap_cons_some known, nodup_cons]
      refine ⟨fun inside => ?_, ih⟩
      obtain ⟨torrent, later, same⟩ := mem_filterMap.mp inside
      obtain ⟨-, other, otherKnown, -, fresh⟩ := mem_deferredTorrents later
      exact fresh (mem_unique otherKnown same ▸ .head _)
    · exact ih

theorem unambiguous_of_nodup {torrents : List TorrentSettings}
    (distinct : (torrents.filterMap sources.infoHash).Nodup) : Unambiguous sources torrents := by
  intro first isFirst second isSecond infoHash firstKnown secondKnown
  by_contra differ
  have pairwise := pairwise_filterMap.mp distinct
  have symmetric : Std.Symm fun left right : TorrentSettings => ∀ hash, sources.infoHash left = some hash →
      ∀ other, sources.infoHash right = some other → hash ≠ other :=
    ⟨fun _ _ apart hash known other otherKnown same => apart other otherKnown hash known same.symm⟩
  exact pairwise.forall isFirst isSecond differ infoHash firstKnown infoHash secondKnown rfl

/-- What is saved from the queue is not displayed. -/
theorem unambiguous_persisted (sound : app.Sound sources) : Unambiguous sources (app.persistedTorrents sources) := by
  refine unambiguous_of_nodup ?_
  have keys : (app.shownTorrents.entries.map fun entry => persistedTorrent app.clientConfigs.torrents entry.2).filterMap
      sources.infoHash = app.shownTorrents.keys := by
    rw [filterMap_map]
    exact (filterMap_congr fun _ => infoHash_persistedTorrent sound).trans (congrFun filterMap_eq_map _)
  rw [persistedTorrents, filterMap_append, keys]
  refine nodup_append.mpr ⟨keys_nodup _, nodup_deferredTorrents, ?_⟩
  rintro infoHash displayed _ queued rfl
  obtain ⟨torrent, member, known⟩ := mem_filterMap.mp queued
  obtain ⟨-, other, otherKnown, -, fresh⟩ := mem_deferredTorrents member
  exact fresh (mem_unique otherKnown known ▸ displayed)

theorem Held.save (unambiguous : Unambiguous sources app.clientConfigs.torrents) (held : Held sources app infoHash) :
    Held sources { app with clientConfigs := app.buildPersistPayload sources } infoHash := by
  obtain ⟨visible, place⟩ := held
  refine ⟨visible, or_iff_not_imp_left.mpr fun displayed => ?_⟩
  obtain ⟨queued, config, member, configKnown, configWanted⟩ := place.resolve_left displayed
  have fresh : infoHash ∉ app.shownTorrents.keys := by
    intro inside
    obtain ⟨display, found⟩ := lookup_eq_some_of_mem (mem_keys.mpr inside)
    exact displayed (mem_keys.mpr (mem_keys_of_mem (mem_of_mem_filter (mem_lookup_iff.mp found))))
  obtain ⟨saved, inside, savedKnown⟩ := exists_deferredTorrent member configKnown queued fresh
  obtain ⟨savedMember, _⟩ := mem_deferredTorrents inside
  obtain rfl := unambiguous saved savedMember config member infoHash savedKnown configKnown
  exact ⟨queued, saved, mem_append_right _ inside, savedKnown, configWanted⟩

theorem Kept.save (kept : Kept sources applied app) :
    Kept sources applied { app with clientConfigs := app.buildPersistPayload sources } where
  sound := { kept.sound with }
  follows := kept.follows
  complete leads := by
    obtain ⟨covered, unambiguous⟩ := complete_iff.mp (kept.complete leads)
    have stays : ∀ torrent ∈ applied ++ app.clientConfigs.torrents, Covered sources
        { app with clientConfigs := app.buildPersistPayload sources } torrent := fun torrent member wanted =>
      let ⟨infoHash, known, held⟩ := covered torrent member wanted
      ⟨infoHash, known, Held.save unambiguous held⟩
    refine complete_iff.mpr ⟨fun torrent member => ?_, unambiguous_persisted kept.sound⟩
    rcases mem_append.mp member with isApplied | persisted
    · exact stays torrent (mem_append_left _ isApplied)
    rcases mem_append.mp persisted with shown | queued
    · intro _
      obtain ⟨entry, inside, rfl⟩ := mem_map.mp shown
      obtain ⟨displayed, seen⟩ := mem_filter.mp inside
      exact ⟨entry.1, infoHash_persistedTorrent kept.sound inside, of_decide_eq_true seen,
        .inl (mem_keys.mpr (mem_keys_of_mem displayed))⟩
    · exact stays torrent (mem_append_right _ (mem_deferredTorrents queued).1)

/-! ## Steps -/

def Contains (sources : TorrentSources) (saved : List TorrentSettings) (torrent : TorrentSettings) : Prop :=
  ∃ entry ∈ saved, ∃ infoHash, sources.infoHash entry = some infoHash ∧ sources.infoHash torrent = some infoHash

structure Saves (sources : TorrentSources) (applied : List TorrentSettings) (result : App × Option Settings) :
    Prop where
  kept : Kept sources applied result.1
  saved : ∀ payload, result.2 = some payload → ∀ torrent ∈ applied, torrent.Wanted →
    Contains sources payload.torrents torrent

section

variable (kept : Kept sources applied app)
include kept

theorem Kept.quiet : Saves sources applied (app, none) :=
  ⟨kept, fun _ none => nomatch none⟩

theorem Kept.saves : Saves sources applied (app.saveStateToDisk sources) := by
  rw [saveStateToDisk]
  split_ifs with follower
  · exact kept.quiet
  refine ⟨kept.save, fun payload isPayload torrent member wanted => ?_⟩
  cases isPayload
  have complete := kept.complete (Bool.eq_false_iff.mpr follower)
  obtain ⟨infoHash, known, held⟩ := complete.applied torrent member wanted
  obtain ⟨saved, inside, savedKnown⟩ := exists_persisted kept.sound held
  exact ⟨saved, inside, infoHash, savedKnown, known⟩

theorem Kept.unpreview : Kept sources applied { app with pendingMagnetPreviewInfoHash := none } where
  sound := { kept.sound with }
  follows _ := rfl
  complete leads := (kept.complete leads).transfer (.refl _) fun _ _ held => ⟨nofun, held.2⟩

theorem Kept.finishAdd {infoHash : Option Bytes} (added : Added sources app infoHash result) (hasPath : Bool) :
    Saves sources applied (finishAdd sources hasPath result) := by
  have grown := kept.grow added.grows
  simp only [App.finishAdd]
  split_ifs
  · refine Kept.saves ?_
    unfold clearPendingMagnetPreviewIfApplied
    split
    · split_ifs
      · exact grown.unpreview
      · exact grown
    · split_ifs
      · exact grown.unpreview
      · exact grown
    · exact grown
  · exact grown.saves
  · exact grown.quiet

theorem Kept.remove {removed : Bytes} (fewer : configs.torrents ⊆ app.clientConfigs.torrents)
    (others : ∀ config ∈ app.clientConfigs.torrents, sources.infoHash config ≠ some removed → config ∈ configs.torrents)
    (unwanted : app.isFollower = false → ¬Wants sources (applied ++ app.clientConfigs.torrents) removed) :
    Kept sources applied ({ app with clientConfigs := configs }.removeTorrentRuntime removed) where
  sound := (@grows_removeTorrentRuntime sources { app with clientConfigs := configs } removed).sound
    { kept.sound with }
  follows := kept.follows
  complete leads := by
    refine (kept.complete leads).transfer fewer fun infoHash wants held => ⟨held.1, ?_⟩
    have differ : infoHash ≠ removed := fun same => unwanted leads (same ▸ wants)
    rcases held.2 with shown | ⟨queued, config, member, known, wanted⟩
    · exact .inl (mem_erase.mpr ⟨differ, shown⟩)
    · exact .inr ⟨queued, config, others config member fun same => differ (mem_unique known same), known, wanted⟩

theorem Kept.onMetrics (infoHash : Bytes) (message : TorrentMetrics) (now : ℕ) :
    Kept sources applied (app.onMetrics infoHash message now) := by
  rw [App.onMetrics]
  split_ifs with watched
  · obtain ⟨display, found⟩ := lookup_eq_some_of_mem (kept.sound.displayed infoHash (kept.sound.watched watched))
    rw [found]
    have grows := @grows_show infoHash sources app (fun _ => True) (display.onMetrics message)
      (kept.sound.sourced infoHash display found)
    refine kept.grow { grows with sound := fun sound => ?_ }
    have after := grows.sound sound
    exact { after with }
  · exact kept

theorem Kept.previewMagnet {outcome : LoadOutcome} (starts : outcome.Starts)
    (isMagnet : magnetLink.startsWith "magnet:" = true)
    (running : ∀ infoHash, Wants sources (applied ++ app.clientConfigs.torrents) infoHash →
      hybridHash sources magnetLink = some infoHash → infoHash ∈ app.managers) :
    Kept sources applied (app.previewMagnet sources outcome magnetLink) := by
  rw [App.previewMagnet]
  split_ifs with follower
  · exact kept
  have added : Added sources app (hybridHash sources magnetLink) (app.addMagnetTorrent sources outcome
      "Fetching name..." magnetLink none false .running ∅ none) := addMagnetTorrent_added app starts isMagnet
  have grown := kept.grow added.grows
  generalize app.addMagnetTorrent sources outcome "Fetching name..." magnetLink none false .running ∅ none = result
    at added grown
  obtain ⟨next, result⟩ := result
  cases result with
  | added hash name =>
    obtain ⟨infoHash, rfl, parsed, fresh⟩ := added.fresh hash name rfl
    have leads : app.isFollower = false := Bool.eq_false_iff.mpr follower
    have stays : next.isFollower = false := added.grows.follower.trans leads
    refine ⟨{ grown.sound with }, fun follows => ?_, fun _ => ?_⟩
    · cases stays.symm.trans follows
    · refine (grown.complete stays).transfer (.refl _) fun other wants held => ⟨fun same => fresh ?_, held.2⟩
      have live := running other (added.grows.configs ▸ wants) (parsed.trans same)
      rw [some.inj same]
      exact ⟨kept.sound.displayed other live, live⟩
  | duplicate | invalid | failed => exact grown

theorem Kept.cancelPreview : Saves sources applied (app.cleanupPendingMagnetPreviewRuntime sources) := by
  rw [cleanupPendingMagnetPreviewRuntime]
  split
  · exact kept.quiet
  rename_i infoHash preview
  exact Kept.saves (kept.unpreview.remove (.refl _) (fun _ member _ => member) fun leads wants =>
    ((kept.complete leads).held wants).1 preview)

/-- Taking the first hash off the queue, when a torrent that waits under it is found or queued again. -/
theorem Kept.pop {next : App} (queue : app.startupDeferredLoadQueue = front :: rest)
    (grows : Grows sources (fun _ => True) { app with startupDeferredLoadQueue := rest } next)
    (found : app.isFollower = false → Wants sources (applied ++ app.clientConfigs.torrents) front →
      front ∈ next.torrents ∨ front ∈ next.startupDeferredLoadQueue) : Kept sources applied next := by
  refine kept.requeue grows fun leads infoHash queued left wants => ?_
  rw [queue] at queued
  obtain rfl := (mem_cons.mp queued).resolve_right left
  exact found leads wants

end

theorem loadNextDeferred_kept {outcomes : Outcomes} (kept : Kept sources applied app)
    (truthful : Truthful sources outcomes) : Kept sources applied (app.loadNextDeferred sources outcomes).1 := by
  rw [loadNextDeferred]
  split
  · exact kept
  rename_i front rest queue
  split
  · rename_i live
    exact kept.pop queue .refl fun _ _ => .inl (kept.sound.displayed front live)
  split
  · rename_i missing
    refine kept.pop queue .refl fun leads wants => .inl ?_
    rcases ((kept.complete leads).held wants).2 with shown | ⟨_, config, inConfig, same, _⟩
    · exact shown
    · exact absurd (decide_eq_true same) (find?_eq_none.mp missing config inConfig)
  rename_i config configFound
  have inConfig := mem_of_find?_eq_some configFound
  have configKnown : sources.infoHash config = some front := by simpa using find?_some configFound
  split
  · rename_i deleting
    have isDeleting : config.torrentControlState = .deleting := by
      simpa [shouldLoadPersistedTorrent] using deleting
    refine kept.pop queue .refl fun leads wants => .inl ?_
    have complete := kept.complete leads
    rcases (complete.held wants).2 with shown | ⟨_, other, inside, same, otherWanted⟩
    · exact shown
    · rw [← complete.unambiguous config inConfig other inside front configKnown same] at otherWanted
      exact absurd isDeleting otherWanted
  · have grows := @load_grows sources outcomes config truthful app
    have requeued : ∀ queue, Grows sources (fun _ => True) { app with startupDeferredLoadQueue := rest }
        { (app.loadRuntimeTorrentFromSettings sources outcomes config).1 with
          startupDeferredLoadQueue := rest ++ queue } := by
      intro queue
      refine { grows with deferred := subset_append_left .., sound := ?_ }
      intro sound
      have after := grows.sound { sound with }
      exact { after with }
    dsimp only
    split_ifs with loaded
    · have popped := requeued []
      rw [append_nil] at popped
      refine kept.pop queue popped fun leads _ => .inl ?_
      obtain ⟨hash, hashKnown, shown⟩ := load_shown truthful leads loaded
      obtain rfl := mem_unique hashKnown configKnown
      exact shown
    · exact kept.pop queue (requeued [front]) fun _ _ => .inr (mem_append_right _ (.head _))

theorem loadRounds_kept {outcomes : Outcomes} (truthful : Truthful sources outcomes) (rounds : ℕ)
    (kept : Kept sources applied app) : Kept sources applied (loadRounds sources outcomes rounds app).1 := by
  induction rounds generalizing app with
  | zero => exact kept
  | succ rounds ih => exact ih (loadNextDeferred_kept kept truthful)

/-! ## Settings -/

theorem torrents_applySettingsUpdate (old new : Settings) (portLost : Bool) :
    (Superseedr.applySettingsUpdate old new portLost).torrents = new.torrents := by
  simp only [Superseedr.applySettingsUpdate, preserveBoundRandomClientPort]
  split_ifs <;> rfl

/-- An update of the settings can be followed: info hashes are known and distinct and not those of a preview, no
torrent comes back from being deleted, and what is added can be loaded. -/
structure Acceptable (sources : TorrentSources) (app : App) (outcomes : Outcomes) (new : Settings) : Prop where
  unambiguous : Unambiguous sources new.torrents
  known : ∀ torrent ∈ new.torrents, torrent.Wanted →
    ∃ infoHash, sources.infoHash torrent = some infoHash ∧ app.pendingMagnetPreviewInfoHash ≠ some infoHash
  staying : ∀ torrent ∈ new.torrents, torrent.Wanted → ∀ config ∈ app.clientConfigs.torrents,
    ∀ infoHash, sources.infoHash torrent = some infoHash → sources.infoHash config = some infoHash →
      config.Wanted
  available : ∀ torrent ∈ new.torrents, ∀ infoHash, torrent.Wanted →
    sources.infoHash torrent = some infoHash → infoHash ∉ byHash sources app.clientConfigs.torrents →
      Available sources outcomes torrent.torrentOrMagnet

section Updates

variable {outcomes : Outcomes} {snapshot : Option LeaderSnapshot} {new : Settings} {portLost : Bool}
  {torrents : List TorrentSettings}

theorem Complete.of_configs (configs : app.clientConfigs.torrents = torrents)
    (unambiguous : Unambiguous sources torrents) (covered : ∀ torrent ∈ torrents, Covered sources app torrent) :
    Complete sources torrents app :=
  ⟨covered, fun torrent member => covered torrent (configs ▸ member), configs ▸ unambiguous⟩

theorem sound_takeSettings (sound : app.Sound sources) : (app.takeSettings new portLost).Sound sources :=
  { sound with }

theorem Kept.update (kept : Kept sources applied app) (truthful : Truthful sources outcomes)
    (honest : LeaderSnapshot.Honest sources snapshot)
    (acceptable : app.isFollower = false → Acceptable sources app outcomes new) :
    Kept sources new.torrents (app.applySettingsUpdate sources new portLost outcomes snapshot) := by
  have grows : Grows sources (· ∈ byHash sources new.torrents) (app.takeSettings new portLost)
      (app.applySettingsUpdate sources new portLost outcomes snapshot) := sync_grows truthful honest _
  have sound := @sound_takeSettings sources app new portLost kept.sound
  generalize isNext : app.applySettingsUpdate sources new portLost outcomes snapshot = next at grows ⊢
  have configs : next.clientConfigs.torrents = new.torrents :=
    (congrArg Settings.torrents grows.configs).trans (torrents_applySettingsUpdate ..)
  refine ⟨grows.sound sound, fun follows => ?_, fun leads => ?_⟩
  · exact grows.preview.trans (kept.follows (grows.follower.symm.trans follows))
  · have before_leads : app.isFollower = false := grows.follower.symm.trans leads
    have acceptable := acceptable before_leads
    refine .of_configs configs acceptable.unambiguous fun torrent member wanted => ?_
    obtain ⟨infoHash, known, seen⟩ := acceptable.known torrent member wanted
    refine ⟨infoHash, known, grows.preview ▸ seen, Or.imp_right (⟨·, torrent, configs ▸ member, known, wanted⟩) ?_⟩
    by_cases old : infoHash ∈ byHash sources app.clientConfigs.torrents
    · obtain ⟨config, isConfig, configKnown⟩ := mem_byHash.mp old
      have configWanted := acceptable.staying torrent member wanted config isConfig infoHash known configKnown
      have held := (kept.complete before_leads).held ⟨config, mem_append_right _ isConfig, configKnown, configWanted⟩
      exact held.2.imp (grows.shown infoHash (mem_byHash.mpr ⟨torrent, member, known⟩)) fun queued =>
        grows.deferred queued.1
    have reached : Reached sources next torrent := by
      subst isNext
      exact sync_reaches truthful honest before_leads sound acceptable.unambiguous member wanted known old
        acceptable.available
    obtain ⟨other, otherKnown, place⟩ := reached
    obtain rfl := mem_unique otherKnown known
    exact place

/-! ## Startup and promotion -/

theorem sound_of_empty (base : App) (noTorrents : base.torrents = ∅) (noManagers : base.managers = ∅)
    (noWatches : base.watches = ∅) : base.Sound sources := by
  refine ⟨?_, fun infoHash member => ?_, fun infoHash display found => ?_⟩
  · rw [noWatches]
    exact Finset.empty_subset _
  · rw [noManagers] at member
    exact absurd member (Finset.notMem_empty infoHash)
  · rw [noTorrents] at found
    exact nomatch found

theorem Kept.of_reached (grows : Grows sources (fun _ => True) before after) (sound : before.Sound sources)
    (noPreview : before.pendingMagnetPreviewInfoHash = none)
    (reached : before.isFollower = false → Unambiguous sources before.clientConfigs.torrents ∧
      ∀ torrent ∈ before.clientConfigs.torrents, torrent.Wanted → Reached sources after torrent) :
    Kept sources before.clientConfigs.torrents after := by
  refine ⟨grows.sound sound, fun _ => grows.preview.trans noPreview, fun leads => ?_⟩
  obtain ⟨unambiguous, reached⟩ := reached (grows.follower.symm.trans leads)
  refine .of_configs (congrArg Settings.torrents grows.configs) unambiguous fun torrent member wanted => ?_
  obtain ⟨infoHash, known, reached⟩ := reached torrent member wanted
  refine ⟨infoHash, known, ?_, reached.imp_right (⟨·, torrent, grows.configs ▸ member, known, wanted⟩)⟩
  rw [grows.preview, noPreview]
  exact nofun

theorem mem_startupOrder : torrent ∈ startupOrder torrents ↔ torrent ∈ torrents := by
  rw [startupOrder, mem_append, mem_filter, mem_filter]
  cases torrent.validationStatus with
  | true => simp
  | false => simp

theorem new_kept {settings : Settings} {isFollower : Bool} (truthful : Truthful sources outcomes)
    (honest : LeaderSnapshot.Honest sources snapshot)
    (loads : isFollower = false → Unambiguous sources settings.torrents ∧
      ∀ torrent ∈ startupLoads sources 0 (startupOrder settings.torrents), torrent.Wanted →
        Available sources outcomes torrent.torrentOrMagnet) :
    Kept sources settings.torrents (.new sources settings isFollower outcomes snapshot) := by
  refine Kept.grow ?_ (refreshFollowerReadModel_grows honest)
  have launches := startupLoop_launches truthful 0 (startupOrder settings.torrents) (initial settings isFollower)
  refine Kept.of_reached launches.grows (sound_of_empty _ rfl rfl rfl) rfl fun leads => ?_
  obtain ⟨unambiguous, available⟩ := loads leads
  have reached := startupLoop_reaches truthful 0 _ (initial settings isFollower) leads available
  exact ⟨unambiguous, fun torrent member => reached torrent (mem_startupOrder.mpr member)⟩

theorem source_of_key {other : TorrentSettings} (same : torrent.key = other.key) :
    torrent.torrentOrMagnet = other.torrentOrMagnet ∧ torrent.torrentControlState = other.torrentControlState :=
  ⟨congrArg (fun key => key.1.torrentOrMagnet) same, congrArg (fun key => key.1.torrentControlState) same⟩

theorem Covered.congr {other : TorrentSettings} (covered : Covered sources app torrent)
    (same : torrent.key = other.key) : Covered sources app other := by
  obtain ⟨source, state⟩ := source_of_key same
  rw [Covered, TorrentSettings.Wanted, TorrentSources.infoHash, ← source, ← state]
  exact covered

theorem exists_of_keys {left right : List TorrentSettings} (same : left.map key = right.map key)
    (member : torrent ∈ left) : ∃ other ∈ right, other.key = torrent.key := by
  have inside := same ▸ mem_map_of_mem member
  exact mem_map.mp inside

theorem filterMap_infoHash_of_keys {left right : List TorrentSettings} (same : left.map key = right.map key) :
    left.filterMap sources.infoHash = right.filterMap sources.infoHash := by
  have throughKey : ∀ l : List TorrentSettings, l.filterMap sources.infoHash =
      (l.map key).filterMap fun key => sources.infoHashFromTorrentSource key.1.torrentOrMagnet := by
    intro l
    rw [filterMap_map]
    rfl
  rw [throughKey, throughKey, same]

theorem Kept.promote (kept : Kept sources applied app) (follows : app.isFollower = true)
    (truthful : Truthful sources outcomes) (distinct : (new.torrents.filterMap sources.infoHash).Nodup)
    (available : ∀ torrent ∈ new.torrents, torrent.Wanted → Available sources outcomes torrent.torrentOrMagnet) :
    Kept sources new.torrents (app.maybePromoteToSharedLeader sources (some new) portLost outcomes) := by
  rw [maybePromoteToSharedLeader, follows]
  dsimp only [Bool.not_true, Bool.false_eq_true, if_false]
  generalize reloaded : (if new.key ≠ app.clientConfigs.key then
    { app with isFollower := false }.applySettingsUpdate sources new portLost outcomes none
    else { app with isFollower := false }) = base
  have honest : LeaderSnapshot.Honest sources none := nofun
  have alone : Sound sources { app with isFollower := false } := { kept.sound with }
  have facts : base.Sound sources ∧ base.pendingMagnetPreviewInfoHash = none ∧
      base.clientConfigs.torrents.map key = new.torrents.map key := by
    subst reloaded
    split_ifs with changed
    · have grows := @sync_grows sources outcomes app.clientConfigs new none truthful honest
        ({ app with isFollower := false }.takeSettings new portLost)
      refine ⟨grows.sound (sound_takeSettings alone), grows.preview.trans (kept.follows follows), ?_⟩
      exact congrArg (map key)
        ((congrArg Settings.torrents grows.configs).trans (torrents_applySettingsUpdate ..))
    · exact ⟨alone, kept.follows follows, (congrArg SettingsKey.torrents (not_not.mp changed)).symm⟩
  obtain ⟨sound, noPreview, sameKeys⟩ := facts
  have launched : Kept sources base.clientConfigs.torrents
      (base.startMissingRuntimeTorrentsForCurrentRole sources outcomes) := by
    have launches := startMissingLoop_launches truthful 0 base.clientConfigs.torrents base
    refine .of_reached launches.grows sound noPreview fun leads =>
      ⟨unambiguous_of_nodup (filterMap_infoHash_of_keys sameKeys ▸ distinct), launches.reaches leads sound ?_⟩
    intro torrent member wanted
    obtain ⟨other, isNew, sameKey⟩ := exists_of_keys sameKeys member
    obtain ⟨source, state⟩ := source_of_key sameKey
    exact source ▸ available other isNew (state.trans_ne wanted)
  refine ⟨launched.sound, launched.follows, fun leads => ?_⟩
  obtain ⟨covered, unambiguous⟩ := complete_iff.mp (launched.complete leads)
  refine complete_iff.mpr ⟨fun torrent member => ?_, unambiguous⟩
  rcases mem_append.mp member with isNew | isConfig
  · obtain ⟨config, isConfig, sameKey⟩ := exists_of_keys sameKeys.symm isNew
    exact (covered config (mem_append_left _ isConfig)).congr sameKey
  · exact covered torrent (mem_append_right _ isConfig)

end Updates

end App

/-! ## Runs -/

def AppEvent.applies (app : App) : AppEvent → Option Settings
  | .updateSettings settings _ _ _ _ => some settings
  | .promote settings _ _ => if app.isFollower then settings else none
  | _ => none

structure Session where
  app : App
  applied : List TorrentSettings

namespace Session

variable (sources : TorrentSources)

def start (settings : Settings) (isFollower : Bool) (outcomes : Outcomes) (snapshot : Option LeaderSnapshot) :
    Session where
  app := .new sources settings isFollower outcomes snapshot
  applied := settings.torrents

/-- The next session, and the settings that are handed to persistence. -/
def step (session : Session) (event : AppEvent) : Session × Option Settings :=
  let (app, saved) := session.app.step sources event
  ({ app, applied := ((event.applies session.app).map Settings.torrents).getD session.applied }, saved)

def run (session : Session) (events : List AppEvent) : Session :=
  events.foldl (fun session event => (session.step sources event).1) session

/-- No event takes a torrent away that the settings want. What is taken from the world can be started, torrent
files hold the torrents their names promise, and a leader's status is honest. Unless the host follows, updates are
acceptable, a manager ends only when no settings want its torrent, and no preview is taken of a torrent that
waits. When the host takes the lead, it loads settings with distinct torrents, all of which can be loaded. -/
def Calm (session : Session) : AppEvent → Prop
  | .save => True
  | .metrics _ _ _ => True
  | .metricsClosed _ => True
  | .updateSettings settings _ _ outcomes snapshot =>
    Truthful sources outcomes ∧ LeaderSnapshot.Honest sources snapshot ∧
      (session.app.isFollower = false → Acceptable sources session.app outcomes settings)
  | .startupBatch outcomes => Truthful sources outcomes
  | .deletionComplete infoHash => session.app.isFollower = false →
      ¬Wants sources (session.applied ++ session.app.clientConfigs.torrents) infoHash
  | .addTorrentFile outcome _ _ _ _ => outcome.Starts
  | .addMagnet outcome magnetLink _ _ _ _ => outcome.Starts ∧ magnetLink.startsWith "magnet:" = true
  | .previewMagnet outcome magnetLink => outcome.Starts ∧ magnetLink.startsWith "magnet:" = true ∧
      ∀ infoHash, Wants sources (session.applied ++ session.app.clientConfigs.torrents) infoHash →
        hybridHash sources magnetLink = some infoHash → infoHash ∈ session.app.managers
  | .previewCancelled => True
  | .previewClosed => True
  | .followerRefresh snapshot => LeaderSnapshot.Honest sources snapshot
  | .promote settings _ outcomes => session.app.isFollower = true → Truthful sources outcomes ∧
      ∃ new, settings = some new ∧ (new.torrents.filterMap sources.infoHash).Nodup ∧
        ∀ torrent ∈ new.torrents, torrent.Wanted → Available sources outcomes torrent.torrentOrMagnet

def CalmRun : Session → List AppEvent → Prop
  | _, [] => True
  | session, event :: rest => session.Calm sources event ∧ CalmRun (session.step sources event).1 rest

variable {sources : TorrentSources} {session : Session}

theorem step_saves (kept : Kept sources session.applied session.app) {event : AppEvent}
    (calm : session.Calm sources event) :
    Saves sources (session.step sources event).1.applied (session.app.step sources event) := by
  obtain ⟨app, applied⟩ := session
  cases event with
  | save => exact kept.saves
  | metrics infoHash message now => exact (kept.onMetrics infoHash message now).quiet
  | metricsClosed infoHash =>
    refine Kept.quiet (kept.grow ⟨rfl, rfl, rfl, .refl _, fun _ _ => id, fun sound => ?_⟩)
    exact ⟨Finset.Subset.trans (Finset.erase_subset ..) sound.watched, sound.displayed, sound.sourced⟩
  | updateSettings settings portLost persist outcomes snapshot =>
    obtain ⟨truthful, honest, acceptable⟩ := calm
    have updated := @App.Kept.update sources app applied outcomes snapshot settings portLost kept
      truthful honest acceptable
    rw [App.step]
    dsimp only
    split_ifs
    · exact updated.saves
    · exact updated.quiet
  | startupBatch outcomes =>
    have loaded := loadRounds_kept calm startupRollingLoadsPerInterval kept
    rw [App.step, App.loadNextStartupBatch]
    dsimp only
    split_ifs
    · exact loaded.saves
    · exact loaded.quiet
  | deletionComplete infoHash =>
    refine Kept.saves (kept.remove ?_ ?_ calm)
    · intro config member
      split_ifs at member
      · exact mem_of_mem_filter member
      · exact member
    · intro config member differ
      split_ifs
      · exact mem_filter.mpr ⟨member, decide_eq_true differ⟩
      · exact member
  | addTorrentFile outcome downloadPath containerName validationStatus filePriorities =>
    exact kept.finishAdd (addTorrentFromFile_added calm) downloadPath.isSome
  | addMagnet outcome magnetLink downloadPath containerName validationStatus filePriorities =>
    exact kept.finishAdd (addMagnetTorrent_added app calm.1 calm.2) downloadPath.isSome
  | previewMagnet outcome magnetLink =>
    exact (kept.previewMagnet calm.1 calm.2.1 calm.2.2).quiet
  | previewCancelled => exact kept.cancelPreview
  | previewClosed => exact kept.unpreview.quiet
  | followerRefresh snapshot => exact (kept.grow (refreshFollowerReadModel_grows calm)).quiet
  | promote settings portLost outcomes =>
    refine Kept.quiet ?_
    by_cases follows : app.isFollower = true
    · obtain ⟨truthful, new, rfl, distinct, available⟩ := calm follows
      change Kept sources (((if app.isFollower then some new else none).map Settings.torrents).getD applied) _
      rw [if_pos follows]
      exact kept.promote follows truthful distinct available
    · change Kept sources (((if app.isFollower then settings else none).map Settings.torrents).getD applied)
        (app.maybePromoteToSharedLeader sources settings portLost outcomes)
      rw [if_neg follows, maybePromoteToSharedLeader, if_pos (by simpa using follows)]
      exact kept

theorem calmRun_saves (kept : Kept sources session.applied session.app) {events : List AppEvent} {event : AppEvent}
    (calm : CalmRun sources session (events ++ [event])) :
    Saves sources ((session.run sources events).step sources event).1.applied
      ((session.run sources events).app.step sources event) := by
  induction events generalizing session with
  | nil => exact step_saves kept calm.1
  | cons first rest ih => exact ih (step_saves kept calm.1).kept calm.2

/-- Startup goes well: what is taken can be started, and unless the host follows, the configured torrents are
distinct and those that are not put off can be loaded. -/
structure Starts (sources : TorrentSources) (settings : Settings) (isFollower : Bool) (outcomes : Outcomes)
    (snapshot : Option LeaderSnapshot) : Prop where
  truthful : Truthful sources outcomes
  honest : LeaderSnapshot.Honest sources snapshot
  loads : isFollower = false → Unambiguous sources settings.torrents ∧
    ∀ torrent ∈ startupLoads sources 0 (startupOrder settings.torrents), torrent.Wanted →
      Available sources outcomes torrent.torrentOrMagnet

end Session

/-- In a calm run every list of torrents that is handed to persistence has every torrent of the settings applied last
that is not being deleted. -/
theorem configured_torrents_kept (sources : TorrentSources) (settings : Settings) (isFollower : Bool)
    (outcomes : Outcomes) (snapshot : Option LeaderSnapshot)
    (starts : Session.Starts sources settings isFollower outcomes snapshot) (events : List AppEvent) (event : AppEvent)
    (calm : Session.CalmRun sources (.start sources settings isFollower outcomes snapshot) (events ++ [event]))
    {payload : Settings}
    (saved : (((Session.start sources settings isFollower outcomes snapshot).run sources events).step sources event).2 =
      some payload) :
    ∀ torrent ∈
      (((Session.start sources settings isFollower outcomes snapshot).run sources events).step sources event).1.applied,
      torrent.Wanted → Contains sources payload.torrents torrent := by
  have kept := new_kept starts.truthful starts.honest starts.loads
  exact (Session.calmRun_saves kept calm).saved payload saved

/-! ## Two torrents -/

namespace TwoTorrents

/-- The name of a file spells the bytes of the info hash. -/
def spelled (source : String) : Bytes := source.toList.tail.map fun c => UInt8.ofNat c.toNat

def path (infoHash : Bytes) : String := String.ofList ('/' :: infoHash.map fun byte => Char.ofNat byte.toNat)

theorem spelled_path (infoHash : Bytes) : spelled (path infoHash) = infoHash := by
  rw [spelled, path, String.toList_ofList, List.tail_cons, List.map_map]
  refine List.map_id'' (fun byte => ?_) infoHash
  have small : byte.toNat < 256 := byte.toNat_lt
  have valid : byte.toNat.isValidChar := .inl (by omega)
  have back : (Char.ofNat byte.toNat).toNat = byte.toNat := by
    rw [Char.ofNat, dif_pos valid]
    rfl
  rw [Function.comp_apply, back, UInt8.ofNat_toNat]

theorem path_isFile (infoHash : Bytes) : (path infoHash).startsWith "magnet:" = false := by
  have listed : (path infoHash).toList = '/' :: infoHash.map fun byte => Char.ofNat byte.toNat := String.toList_ofList
  rw [Bool.eq_false_iff, ne_eq, String.startsWith_string_iff, listed]
  intro isPrefix
  have slash : 'm' = '/' := (cons_prefix_cons.mp isPrefix).1
  cases slash

def sources : TorrentSources where
  parseHybridHashes link := (if link = "magnet:x" then some [1] else none, none)
  magnetHash _ := none
  extractMagnetDisplayName _ := none
  fileStemHash source := some (spelled source)
  torrentFilePath := path
  torrentFilePath_isFile := path_isFile
  fileStemHash_torrentFilePath infoHash := congrArg some (spelled_path infoHash)

def settings : Settings :=
  { torrents := [{ torrentOrMagnet := "magnet:x", name := "x" }, { torrentOrMagnet := "/a", name := "a" }] }

/-- Everything can be loaded. -/
def good : Outcomes := fun source =>
  { torrentFile := .ok { infoHash := spelled source, name := source, pieceCount := 1 }
    magnet := .ok ()
    prepared := .ok ()
    created := .ok ()
    now := 0 }

/-- The magnet link does not parse today. -/
def bad : Outcomes := fun source => { good source with magnet := .error "no" }

theorem good_truthful : Truthful sources good := by
  refine fun source => ⟨⟨rfl, rfl⟩, fun isFile torrent taken => ?_⟩
  cases taken
  rw [TorrentSources.infoHashFromTorrentSource, isFile, if_neg Bool.false_ne_true]
  rfl

theorem good_starts : Session.Starts sources settings false good none := by
  refine ⟨good_truthful, nofun, fun _ => ⟨unambiguous_of_nodup (by decide +kernel), ?_⟩⟩
  have first : startupLoads sources 0 (startupOrder settings.torrents) =
      [{ torrentOrMagnet := "magnet:x", name := "x" }] := by decide +kernel
  rw [first, forall_mem_singleton, Available, if_pos (by decide +kernel)]
  exact fun _ => ⟨rfl, rfl⟩

end TwoTorrents

open TwoTorrents in
/-- A torrent that cannot be loaded at startup is not in what is saved. -/
theorem unloaded_torrent_is_forgotten :
    settings.torrents.map torrentOrMagnet = ["magnet:x", "/a"] ∧
      (((Session.start sources settings false bad none).step sources .save).2.map fun payload =>
        payload.torrents.map torrentOrMagnet) = some ["/a"] := by
  decide +kernel

open TwoTorrents in
theorem loaded_and_queued_torrents_kept :
    ∃ payload, ((Session.start sources settings false good none).step sources .save).2 = some payload ∧
      ∀ torrent ∈ settings.torrents, torrent.Wanted →
        Contains sources payload.torrents torrent := by
  have leads : (new sources settings false good none).isFollower = false := by decide +kernel
  have saved : ((new sources settings false good none).saveStateToDisk sources).2 =
      some ((new sources settings false good none).buildPersistPayload sources) := by
    rw [saveStateToDisk, leads]
    rfl
  exact ⟨_, saved,
    configured_torrents_kept sources settings false good none good_starts [] .save ⟨trivial, trivial⟩ saved⟩

end Superseedr
