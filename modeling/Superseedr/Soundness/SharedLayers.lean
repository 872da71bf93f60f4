import Superseedr.ToMathlib.ExceptBind
import Superseedr.Model.SharedConfig
import Superseedr.Soundness.ResolvedPaths

/-! # Shared layers

What is saved is compared with the files layer by layer. The files keep their shared layers if they have the form
that a save gives them and the settings say what was loaded from them: then the layers computed from the settings
are those that were loaded. A save that succeeds gives the files this form for every host that finds the same
under its sources and paths.
-/

namespace Superseedr

open List Option CatalogTorrentSettings TorrentIdentity ClusterHost Except

variable {files : SharedFiles} {left right path shown result other mount encoded first resolved kept second : String}
  {infoHashHex removed sharedClientId : String} {current new third : Settings} {loaded torrent : TorrentSettings}
  {infoHash : Bytes} {known : TorrentMetadataEntry} {existing : List TorrentMetadataEntry}
  {torrents : List TorrentSettings} {next : LayeredConfig} {stamp writes : ℕ} {stored : Option String}

/-- Nothing but files of single hosts differs. -/
structure SharedUnchanged (before after : SharedFiles) : Prop where
  settings : after.settings = before.settings
  catalog : after.catalog = before.catalog
  metadata : after.metadata = before.metadata
  revision : after.revision = before.revision

theorem SharedUnchanged.rfl : SharedUnchanged files files := ⟨.refl _, .refl _, .refl _, .refl _⟩

/-- A path that comes back when it is resolved and encoded again. -/
def SharedConfigPaths.Portable (paths : SharedConfigPaths) (path : String) : Prop :=
  ∃ resolved encoded, resolveSharedDataPath path paths.mountDir "" = .ok resolved ∧
    encodeSharedDataPath resolved paths.mountDir "" = .ok encoded ∧ components encoded = components path

/-- The files have the form a save gives them: there is a default download folder, paths and sources come back
when a host resolves and encodes them, and the metadata describes, in the order of the catalog, every torrent
whose info hash is known, by its name and its priorities. -/
structure Settled (identity : TorrentIdentity) (paths : SharedConfigPaths) (files : SharedFiles) : Prop where
  folder : ∃ path, files.settings.defaultDownloadFolder = some path ∧ paths.Portable path
  downloads : ∀ entry ∈ files.catalog, ∀ path, entry.downloadPath = some path → paths.Portable path
  sources : ∀ entry ∈ files.catalog,
    encodeCatalogTorrentSource (decodeCatalogTorrentSource entry.torrentOrMagnet paths.rootDir) paths.rootDir =
      entry.torrentOrMagnet
  described : files.metadata.map (fun known => (known.infoHashHex, known.torrentName, known.filePriorities)) =
    files.catalog.filterMap fun entry =>
      (identity.infoHashFromTorrentSource (decodeCatalogTorrentSource entry.torrentOrMagnet paths.rootDir)).map
        fun infoHash => (hexEncode infoHash, entry.name, entry.filePriorities)
  named : ∀ known ∈ files.metadata, known.torrentName ≠ ""
  distinct : (files.metadata.map TorrentMetadataEntry.infoHashHex).Nodup

theorem SharedUnchanged.settled {identity : TorrentIdentity} {paths : SharedConfigPaths} {before after : SharedFiles}
    (same : SharedUnchanged before after) (settled : Settled identity paths before) : Settled identity paths after := by
  obtain ⟨folder, downloads, sources, described, named, distinct⟩ := settled
  rw [← same.settings] at folder
  rw [← same.catalog] at downloads sources described
  rw [← same.metadata] at described named distinct
  exact ⟨folder, downloads, sources, described, named, distinct⟩

/-! ## Paths -/

theorem startsWith_of_components (same : components left = components right) :
    left.startsWith "/" = right.startsWith "/" := by
  have equivalent : isAbsolute left ↔ isAbsolute right := by
    rw [isAbsolute_iff_components, isAbsolute_iff_components, same]
  exact Bool.eq_iff_iff.mpr equivalent

variable {context further : String} {metadata : List TorrentMetadataEntry}

theorem normalize_congr {path : List Component} (normal : normalizeSharedRelativePath path shown context = .ok result) :
    normalizeSharedRelativePath path other further = .ok result := by
  rw [normalizeSharedRelativePath] at normal ⊢
  cases segments : normalSegments path with
  | some names => rw [segments] at normal; exact normal
  | none => rw [segments] at normal; exact nomatch normal

theorem encodeSharedDataPath_congr (same : components left = components right)
    (encoded : encodeSharedDataPath left mount context = .ok result) :
    encodeSharedDataPath right mount further = .ok result := by
  rw [encodeSharedDataPath, ← startsWith_of_components same, stripPrefix, pathStartsWith, ← same]
  rw [encodeSharedDataPath, stripPrefix, pathStartsWith] at encoded
  split_ifs at encoded ⊢
  · exact normalize_congr encoded
  · exact normalize_congr encoded

theorem resolveSharedDataPath_congr (resolved : resolveSharedDataPath path mount context = .ok result) :
    resolveSharedDataPath path mount further = .ok result := by
  rw [resolveSharedDataPath] at resolved ⊢
  cases normal : normalizeSharedRelativePath (components path) path context with
  | error error => rw [normal] at resolved; exact nomatch resolved
  | ok relative =>
    rw [normal] at resolved
    rw [normalize_congr normal]
    exact resolved

theorem SharedConfigPaths.Portable.congr {paths : SharedConfigPaths} (portable : paths.Portable left)
    (same : components left = components right) : paths.Portable right := by
  obtain ⟨resolved, encoded, resolves, encodes, returns⟩ := portable
  refine ⟨resolved, encoded, ?_, encodes, returns.trans same⟩
  rw [resolveSharedDataPath] at resolves ⊢
  rw [← same]
  cases normal : normalizeSharedRelativePath (components left) left "" with
  | error error => rw [normal] at resolves; exact nomatch resolves
  | ok relative =>
    rw [normal] at resolves
    rw [normalize_congr normal]
    exact resolves

theorem SharedConfigPaths.Portable.encode {paths : SharedConfigPaths} (portable : paths.Portable path)
    (loaded : resolveSharedDataPath path paths.mountDir first = .ok resolved)
    (same : components resolved = components kept)
    (saved : encodeSharedDataPath kept paths.mountDir second = .ok encoded) : components encoded = components path := by
  obtain ⟨known, back, known_eq, back_eq, returns⟩ := portable
  obtain rfl : known = resolved := ok.inj (known_eq.symm.trans (resolveSharedDataPath_congr loaded))
  have again : encodeSharedDataPath kept paths.mountDir second = .ok back := encodeSharedDataPath_congr same back_eq
  obtain rfl : back = encoded := ok.inj (again.symm.trans saved)
  exact returns

theorem encode_mapM {paths : SharedConfigPaths} {resolved kept encoded : Option String}
    (portable : ∀ path, stored = some path → paths.Portable path)
    (resolves : stored.mapM (resolveSharedDataPath · paths.mountDir first) = .ok resolved)
    (same : resolved.map components = kept.map components)
    (encodes : kept.mapM (encodeSharedDataPath · paths.mountDir second) = .ok encoded) :
    encoded.map components = stored.map components := by
  rw [option_mapM_eq_ok] at resolves encodes
  cases stored with
  | none =>
    rw [resolves, map_none, eq_comm, map_eq_none_iff] at same
    rw [same] at encodes
    rw [encodes]
  | some path =>
    obtain ⟨place, found, rfl⟩ := resolves
    rw [map_some, eq_comm, map_eq_some_iff] at same
    obtain ⟨keptPath, rfl, sameComponents⟩ := same
    obtain ⟨written, foundAgain, rfl⟩ := encodes
    exact congrArg some ((portable path rfl).encode found sameComponents.symm foundAgain)

/-! ## What the shared layers are computed from -/

structure SameShared (left right : Settings) : Prop where
  preferences : left.toSharedPreferences = right.toSharedPreferences
  clientId : left.clientId = right.clientId
  torrents : left.torrents.map TorrentSettings.key = right.torrents.map TorrentSettings.key
  folder : left.defaultDownloadFolder.map components = right.defaultDownloadFolder.map components

theorem sameShared_of_withoutHost {left right : Settings} (same : left.withoutHost.key = right.withoutHost.key) :
    SameShared left right := by
  simp only [Settings.withoutHost, HostConfig.applyToSettings, Settings.key, SettingsKey.mk.injEq,
    Settings.mk.injEq] at same
  exact ⟨same.1.1, same.1.2.1, same.2.1, same.2.2.2⟩

theorem sameShared_of_hostOnly (scope : classifySharedModeSettingsChange current new = .hostOnly) :
    SameShared new current := by
  rw [classifySharedModeSettingsChange] at scope
  split_ifs at scope with _ hostOnly
  exact sameShared_of_withoutHost hostOnly.1.symm

theorem SameShared.trans {first second : Settings} (left : SameShared first second) (right : SameShared second third) :
    SameShared first third :=
  ⟨left.preferences.trans right.preferences, left.clientId.trans right.clientId,
    left.torrents.trans right.torrents, left.folder.trans right.folder⟩

section Torrents

variable {identity : TorrentIdentity} {paths : SharedConfigPaths}

theorem catalogEntry_key {kept : TorrentSettings} {entry saved : CatalogTorrentSettings}
    (portable : ∀ path, entry.downloadPath = some path → paths.Portable path)
    (source : encodeCatalogTorrentSource (decodeCatalogTorrentSource entry.torrentOrMagnet paths.rootDir)
      paths.rootDir = entry.torrentOrMagnet) (load : entry.toSettings paths = .ok loaded) (same : loaded.key = kept.key)
    (save : fromSettings kept paths = .ok saved) : saved.key = entry.key := by
  rw [toSettings, bind_eq_ok] at load
  obtain ⟨resolvedPath, resolves, result⟩ := load
  cases result
  rw [fromSettings, bind_eq_ok] at save
  obtain ⟨encodedPath, encodes, result⟩ := save
  cases result
  simp only [TorrentSettings.key, Prod.mk.injEq, TorrentSettings.mk.injEq] at same
  obtain ⟨⟨sameSource, sameName, sameAdded, sameStatus, -, sameContainer, sameControl, sameDelete, samePriorities⟩,
    samePath⟩ := same
  have download := encode_mapM portable resolves samePath encodes
  simp only [key, download, ← sameSource, source, ← sameName, ← sameAdded, ← sameStatus,
    ← sameContainer, ← sameControl, ← sameDelete, ← samePriorities]

theorem catalog_keys {catalog saved : List CatalogTorrentSettings} {loaded kept : List TorrentSettings}
    (portable : ∀ entry ∈ catalog, ∀ path, entry.downloadPath = some path → paths.Portable path)
    (sources : ∀ entry ∈ catalog,
      encodeCatalogTorrentSource (decodeCatalogTorrentSource entry.torrentOrMagnet paths.rootDir) paths.rootDir =
        entry.torrentOrMagnet) (load : catalog.mapM (toSettings · paths) = .ok loaded)
    (same : loaded.map TorrentSettings.key = kept.map TorrentSettings.key)
    (save : kept.mapM (fromSettings · paths) = .ok saved) : saved.map key = catalog.map key := by
  rw [mapM_eq_ok] at load save
  induction load generalizing kept saved with
  | nil =>
    obtain rfl : kept = [] := map_eq_nil_iff.mp same.symm
    rw [forall₂_nil_left_iff.mp save]
  | @cons entry torrent catalog loaded first _ ih =>
    obtain ⟨keptTorrent, keptRest, rfl, sameKey, sameRest⟩ := map_eq_cons_iff.mp same.symm
    obtain ⟨savedEntry, savedRest, savedFirst, savedOthers, rfl⟩ := forall₂_cons_left_iff.mp save
    have head := catalogEntry_key (portable entry (.head _)) (sources entry (.head _)) first
      sameKey.symm savedFirst
    have tail := ih (fun other member => portable other (.tail entry member))
      (fun other member => sources other (.tail entry member)) sameRest.symm savedOthers
    rw [map_cons, map_cons, head, tail]

/-! ## Metadata -/

def TorrentIdentity.describe (identity : TorrentIdentity) (torrent : TorrentSettings) :
    Option (String × String × Finmap fun _ : ℕ => FilePriority) :=
  (identity.infoHashFromTorrentSource torrent.torrentOrMagnet).map fun infoHash =>
    (hexEncode infoHash, torrent.name, torrent.filePriorities)

def TorrentMetadataEntry.description (known : TorrentMetadataEntry) :
    String × String × Finmap fun _ : ℕ => FilePriority :=
  (known.infoHashHex, known.torrentName, known.filePriorities)

theorem describe_of_hash (hash : identity.infoHashFromTorrentSource torrent.torrentOrMagnet = some infoHash) :
    identity.describe torrent = some (hexEncode infoHash, torrent.name, torrent.filePriorities) := by
  rw [describe, hash]
  rfl

theorem infoHashHex_of_metadataByHash (found : metadataByHash metadata infoHashHex = some known) :
    known.infoHashHex = infoHashHex := by
  have holds := find?_some found
  exact of_decide_eq_true holds

theorem metadataByHash_of_mem (distinct : (metadata.map TorrentMetadataEntry.infoHashHex).Nodup)
    (member : known ∈ metadata) : metadataByHash metadata known.infoHashHex = some known := by
  rw [metadataByHash]
  cases search : metadata.reverse.find? fun entry => entry.infoHashHex = known.infoHashHex with
  | none =>
    have differs := find?_eq_none.mp search known (mem_reverse.mpr member)
    exact absurd (decide_eq_true rfl) differs
  | some found =>
    have sameHash := infoHashHex_of_metadataByHash search
    have inMetadata : found ∈ metadata := mem_reverse.mp (mem_of_find?_eq_some search)
    rw [inj_on_of_nodup_map distinct inMetadata member sameHash]

theorem metadataByHash_filter (differs : infoHashHex ≠ removed) :
    metadataByHash (metadata.filter fun other => other.infoHashHex ≠ removed) infoHashHex =
      metadataByHash metadata infoHashHex := by
  rw [metadataByHash, metadataByHash, ← filter_reverse, find?_filter]
  congr 1
  funext entry
  by_cases same : entry.infoHashHex = infoHashHex
  · simp [same, differs]
  · simp [same]

theorem applyMetadataToTorrent_of_described (distinct : (metadata.map TorrentMetadataEntry.infoHashHex).Nodup)
    (described : ∀ text, identity.describe torrent = some text → text ∈ metadata.map TorrentMetadataEntry.description) :
    identity.applyMetadataToTorrent metadata torrent = torrent := by
  rw [applyMetadataToTorrent]
  cases hash : identity.infoHashFromTorrentSource torrent.torrentOrMagnet with
  | none => rfl
  | some infoHash =>
    obtain ⟨known, member, agrees⟩ := mem_map.mp (described _ (describe_of_hash hash))
    simp only [TorrentMetadataEntry.description, Prod.mk.injEq] at agrees
    obtain ⟨sameHash, sameName, samePriorities⟩ := agrees
    have found := metadataByHash_of_mem distinct member
    rw [sameHash] at found
    simp only [bind_some, found, samePriorities, sameName, ite_self]

theorem placeholder_infoHashHex (hash : identity.infoHashFromTorrentSource torrent.torrentOrMagnet = some infoHash) :
    ∃ placeholder, identity.placeholderFromSettings torrent = some placeholder ∧
      placeholder.infoHashHex = hexEncode infoHash := by
  rw [placeholderFromSettings, hash]
  refine ⟨_, rfl, ?_⟩
  split_ifs
  · rfl
  · rfl

theorem syncLoop_of_described
    (described : metadata.map TorrentMetadataEntry.description = torrents.filterMap identity.describe)
    (named : ∀ known ∈ metadata, known.torrentName ≠ "")
    (distinct : (metadata.map TorrentMetadataEntry.infoHashHex).Nodup)
    (available : ∀ known ∈ metadata, metadataByHash existing known.infoHashHex = some known) :
    identity.syncLoop existing torrents = metadata := by
  induction torrents generalizing metadata existing with
  | nil =>
    rw [filterMap_nil, map_eq_nil_iff] at described
    rw [described]
    rfl
  | cons torrent torrents ih =>
    rw [syncLoop]
    cases hash : identity.infoHashFromTorrentSource torrent.torrentOrMagnet with
    | none =>
      have nothing : identity.describe torrent = none := by rw [describe, hash]; rfl
      have noPlaceholder : identity.placeholderFromSettings torrent = none := by
        rw [placeholderFromSettings, hash]
        rfl
      rw [filterMap_cons_none nothing] at described
      rw [noPlaceholder]
      exact ih described named distinct available
    | some infoHash =>
      obtain ⟨placeholder, isPlaceholder, placeholderHash⟩ := placeholder_infoHashHex hash
      rw [filterMap_cons_some (describe_of_hash hash), map_eq_cons_iff] at described
      obtain ⟨known, rest, rfl, agrees, describedRest⟩ := described
      simp only [TorrentMetadataEntry.description, Prod.mk.injEq] at agrees
      obtain ⟨sameHash, sameName, samePriorities⟩ := agrees
      obtain ⟨absent, distinctRest⟩ := nodup_cons.mp distinct
      have found := available known (.head _)
      have unchanged : known.applySettingsOverrides torrent = known := by
        have nonempty : torrent.name ≠ "" := sameName ▸ named known (.head _)
        rw [TorrentMetadataEntry.applySettingsOverrides, if_pos nonempty, ← sameName, ← samePriorities]
      simp only [isPlaceholder, placeholderHash, ← sameHash, found, getD_some, unchanged]
      refine congrArg (known :: ·) (ih describedRest ?_ distinctRest ?_)
      · exact fun other member => named other (.tail known member)
      · intro other member
        rw [metadataByHash_filter fun same => absent (mem_map.mpr ⟨other, member, same⟩)]
        exact available other (.tail known member)

theorem filterMap_describe_of_keys {left right : List TorrentSettings}
    (same : left.map TorrentSettings.key = right.map TorrentSettings.key) :
    left.filterMap identity.describe = right.filterMap identity.describe := by
  have byKey (torrents : List TorrentSettings) : torrents.filterMap identity.describe =
      (torrents.map TorrentSettings.key).filterMap fun key => identity.describe key.1 := by rw [filterMap_map]; rfl
  rw [byKey, byKey, same]

theorem filterMap_describe_loaded {loaded : List TorrentSettings} {catalog : List CatalogTorrentSettings}
    (load : catalog.mapM (toSettings · paths) = .ok loaded) :
    loaded.filterMap identity.describe = catalog.filterMap fun entry =>
      (identity.infoHashFromTorrentSource (decodeCatalogTorrentSource entry.torrentOrMagnet paths.rootDir)).map
        fun infoHash => (hexEncode infoHash, entry.name, entry.filePriorities) := by
  rw [mapM_eq_ok] at load
  induction load with
  | nil => rfl
  | @cons entry torrent catalog loaded first _ ih =>
    rw [toSettings, bind_eq_ok] at first
    obtain ⟨path, -, result⟩ := first
    cases result
    rw [filterMap_cons, filterMap_cons, ih]
    rfl

end Torrents

/-! ## Loading and saving -/

section Hosts

variable {identity : TorrentIdentity} {host : ClusterHost} {loaded settings : Settings}

structure LoadedFrom (host : ClusterHost) (files : SharedFiles) (loaded : Settings) : Prop where
  preferences : loaded.toSharedPreferences = files.settings.toSharedPreferences
  clientId : loaded.clientId = (host.currentHostConfig files).clientId.getD files.settings.clientId
  torrents : files.catalog.mapM (toSettings · host.paths) = .ok loaded.torrents
  folder : ∃ path folder, files.settings.defaultDownloadFolder = some path ∧
    resolveSharedDataPath path host.paths.mountDir "default_download_folder" = .ok folder ∧
    loaded.defaultDownloadFolder = some folder

theorem loadedFrom_of_loadSettings (settled : Settled identity host.paths files)
    (noFolder : host.env.defaultDownloadFolder = none) (noInterval : host.env.outputStatusInterval = none)
    (load : host.loadSettings identity files = .ok loaded) : LoadedFrom host files loaded := by
  rw [loadSettings, bind_eq_ok] at load
  obtain ⟨resolved, resolves, rest⟩ := load
  obtain ⟨_, -, result⟩ := bind_eq_ok.mp rest
  cases result
  rw [LayeredConfig.resolveSharedSettings, bind_eq_ok] at resolves
  obtain ⟨shared, applies, rest⟩ := resolves
  obtain ⟨torrents, catalog, result⟩ := bind_eq_ok.mp rest
  cases result
  rw [SharedSettingsConfig.applyToSettings, bind_eq_ok] at applies
  obtain ⟨folder, resolvesFolder, result⟩ := applies
  cases result
  obtain ⟨path, stored, -⟩ := settled.folder
  have known : (host.loadCurrentSharedLayered files).settings.defaultDownloadFolder = some path := stored
  rw [option_mapM_eq_ok, known] at resolvesFolder
  obtain ⟨place, resolves, rfl⟩ := resolvesFolder
  have described : files.metadata.map TorrentMetadataEntry.description = torrents.filterMap identity.describe := by
    rw [filterMap_describe_loaded catalog]
    exact settled.described
  have unchanged : torrents.map (identity.applyMetadataToTorrent files.metadata) = torrents := by
    rw [map_congr_left, List.map_id]
    intro torrent member
    refine applyMetadataToTorrent_of_described settled.distinct fun text told => ?_
    rw [described]
    exact mem_filterMap.mpr ⟨torrent, member, told⟩
  constructor
  · simp only [EnvOverrides.apply, noInterval, getD_none]
    rfl
  · rfl
  · exact catalog.trans (congrArg ok unchanged.symm)
  · refine ⟨path, place, stored, resolves, ?_⟩
    simp only [EnvOverrides.apply, noFolder]
    rfl

theorem settings_key_of_loaded {next : SharedSettingsConfig} (settled : Settled identity host.paths files)
    (source : LoadedFrom host files loaded) (same : SameShared settings loaded)
    (save : SharedSettingsConfig.fromSettings settings host.paths = .ok next) :
    { next with clientId := files.settings.clientId }.key = files.settings.key := by
  rw [SharedSettingsConfig.fromSettings, bind_eq_ok] at save
  obtain ⟨encodedFolder, encodes, result⟩ := save
  cases result
  obtain ⟨path, folder, stored, resolves, loadedFolder⟩ := source.folder
  obtain ⟨known, known_eq, portable⟩ := settled.folder
  have returns : encodedFolder.map components = files.settings.defaultDownloadFolder.map components := by
    refine @encode_mapM "default_download_folder" _ _ _ _ _ _ (fun _ found => mem_unique known_eq found ▸ portable) ?_
      same.folder.symm encodes
    rw [option_mapM_eq_ok, stored]
    exact ⟨folder, resolves, loadedFolder⟩
  have preferences := same.preferences.trans source.preferences
  simp only [SharedSettingsConfig.key, returns, preferences]

theorem HostConfig.isSome_clientId :
    (HostConfig.fromSettings settings sharedClientId).clientId.isSome = true ↔ settings.clientId ≠ sharedClientId := by
  rw [HostConfig.fromSettings]
  split_ifs with differs
  · exact iff_of_true rfl differs
  · exact iff_of_false Bool.false_ne_true differs

theorem clientId_of_loaded (source : LoadedFrom host files loaded) (same : SameShared settings loaded)
    (save : LayeredConfig.fromSharedSettings settings host.paths
      ((host.currentHostConfig files).clientId.map fun _ => files.settings.clientId) = .ok next) :
    next.settings.clientId = files.settings.clientId ∧
      ∃ config catalog, SharedSettingsConfig.fromSettings settings host.paths = .ok config ∧
        catalogFromSettings settings host.paths = .ok catalog ∧
        next.settings = { config with clientId := next.settings.clientId } ∧ next.catalog = catalog := by
  rw [LayeredConfig.fromSharedSettings, bind_eq_ok] at save
  obtain ⟨config, configIs, rest⟩ := save
  obtain ⟨catalog, catalogIs, result⟩ := bind_eq_ok.mp rest
  cases result
  refine ⟨?_, config, catalog, configIs, catalogIs, rfl, rfl⟩
  have configId : config.clientId = settings.clientId := by
    rw [SharedSettingsConfig.fromSettings, bind_eq_ok] at configIs
    obtain ⟨_, -, result⟩ := configIs
    rw [← ok.inj result]
  have id := same.clientId.trans source.clientId
  cases own : (host.currentHostConfig files).clientId with
  | none =>
    rw [own, getD_none] at id
    simp only [map_none]
    rw [configId, id]
  | some clientId =>
    split_ifs with differs
    · rfl
    · rw [configId]
      by_contra other
      exact differs (HostConfig.isSome_clientId.mpr other)

theorem writeLayers_unchanged (settingsSame : next.settings.key = files.settings.key)
    (catalogSame : next.catalog.map key = files.catalog.map key) (metadataSame : metadata = files.metadata) :
    SharedUnchanged files (host.writeLayers next metadata stamp writes files).2 := by
  simp only [writeLayers, settingsSame, catalogSame, metadataSame, ne_eq, not_true_eq_false, decide_false,
    Bool.or_self]
  by_cases hostSame : next.host.key = (host.currentHostConfig files).key
  · simp only [hostSame, not_true_eq_false, decide_false, filter_cons, filter_nil, Bool.false_eq_true,
      if_false, map_nil, take_nil, foldl_nil]
    exact ⟨rfl, rfl, rfl, rfl⟩
  simp only [hostSame, not_false_eq_true, decide_true, filter_cons, filter_nil, Bool.false_eq_true,
    if_false, if_true, map_cons, map_nil]
  cases writes with
  | zero => exact ⟨rfl, rfl, rfl, rfl⟩
  | succ writes =>
    rw [take_succ_cons, take_nil]
    exact ⟨rfl, rfl, rfl, rfl⟩

theorem saveSettings_unchanged (settled : Settled identity host.paths files) (source : LoadedFrom host files loaded)
    (same : SameShared settings loaded) :
    SharedUnchanged files (host.saveSettings identity settings stamp writes files).2 := by
  have current : host.currentHostConfig (host.bootstrapHost files) = host.currentHostConfig files := by
    simp only [currentHostConfig, bootstrapHost, Function.update_self, getD_some]
  have bootstrapped : SharedUnchanged files (host.bootstrapHost files) := ⟨rfl, rfl, rfl, rfl⟩
  rw [saveSettings]
  split
  · exact .rfl
  dsimp only [loadCurrentSharedLayered]
  rw [current]
  split
  · exact bootstrapped
  rename_i next save
  obtain ⟨clientId, config, catalog, configIs, catalogIs, settingsIs, rfl⟩ := clientId_of_loaded source same save
  have settingsSame : next.settings.key = files.settings.key := by
    rw [settingsIs, clientId]
    exact settings_key_of_loaded settled source same configIs
  have catalogSame := catalog_keys settled.downloads settled.sources source.torrents same.torrents.symm catalogIs
  have described : files.metadata.map TorrentMetadataEntry.description =
      settings.torrents.filterMap identity.describe := by
    rw [filterMap_describe_of_keys same.torrents, filterMap_describe_loaded source.torrents]
    exact settled.described
  have metadataSame := syncLoop_of_described described settled.named settled.distinct fun known member =>
      metadataByHash_of_mem settled.distinct member
  have unchanged : SharedUnchanged (host.bootstrapHost files)
      (host.writeLayers next _ stamp writes (host.bootstrapHost files)).2 :=
    writeLayers_unchanged settingsSame catalogSame metadataSame
  exact { unchanged with }

end Hosts

/-! ## What a save leaves -/

section Saved

variable {identity : TorrentIdentity} {host : ClusterHost} {saved : SharedFiles} {settings : Settings}

def SharedConfigPaths.Finds (reader writer : SharedConfigPaths) (path : String) : Prop :=
  ∀ encoded, encodeSharedDataPath path writer.mountDir "" = .ok encoded → reader.Portable encoded

structure TorrentIdentity.Carries (identity : TorrentIdentity) (writer reader : SharedConfigPaths)
    (torrent : TorrentSettings) : Prop where
  returns : encodeCatalogTorrentSource (decodeCatalogTorrentSource
    (encodeCatalogTorrentSource torrent.torrentOrMagnet writer.rootDir) reader.rootDir) reader.rootDir =
      encodeCatalogTorrentSource torrent.torrentOrMagnet writer.rootDir
  sameHash : identity.infoHashFromTorrentSource (decodeCatalogTorrentSource
    (encodeCatalogTorrentSource torrent.torrentOrMagnet writer.rootDir) reader.rootDir) =
      identity.infoHashFromTorrentSource torrent.torrentOrMagnet
  download : ∀ path, torrent.downloadPath = some path → reader.Finds writer path

theorem description_syncLoop (named : ∀ torrent ∈ torrents, torrent.name ≠ "") :
    (identity.syncLoop existing torrents).map TorrentMetadataEntry.description =
      torrents.filterMap identity.describe := by
  induction torrents generalizing existing with
  | nil => rfl
  | cons torrent torrents ih =>
    have rest (left : List TorrentMetadataEntry) := @ih left fun other member => named other (.tail _ member)
    rw [syncLoop]
    cases hash : identity.infoHashFromTorrentSource torrent.torrentOrMagnet with
    | none =>
      have nothing : identity.describe torrent = none := by rw [describe, hash]; rfl
      have noPlaceholder : identity.placeholderFromSettings torrent = none := by rw [placeholderFromSettings, hash]; rfl
      rw [noPlaceholder, filterMap_cons_none nothing]
      exact rest existing
    | some infoHash =>
      obtain ⟨placeholder, isPlaceholder, placeholderHash⟩ := placeholder_infoHashHex hash
      have sameHash : ((metadataByHash existing placeholder.infoHashHex).getD placeholder).infoHashHex =
          hexEncode infoHash := by
        cases search : metadataByHash existing placeholder.infoHashHex with
        | none => exact placeholderHash
        | some known => exact (infoHashHex_of_metadataByHash search).trans placeholderHash
      rw [isPlaceholder, filterMap_cons_some (describe_of_hash hash), map_cons, rest]
      rw [TorrentMetadataEntry.description, TorrentMetadataEntry.applySettingsOverrides, sameHash,
        if_pos (named torrent (.head _))]

theorem writeLayers_ok (written : host.writeLayers next metadata stamp writes files = (.ok (), saved)) :
    saved.settings.key = next.settings.key ∧ saved.catalog.map key = next.catalog.map key ∧
      saved.metadata = metadata := by
  rw [writeLayers, Prod.mk.injEq] at written
  obtain ⟨done, rfl⟩ := written
  split_ifs at done with all
  rw [take_of_length_le all]
  by_cases settingsSame : next.settings.key = files.settings.key <;>
  by_cases catalogSame : next.catalog.map key = files.catalog.map key <;>
  by_cases metadataSame : metadata = files.metadata <;>
  by_cases hostSame : next.host.key = (host.currentHostConfig files).key <;>
  simp [settingsSame, catalogSame, metadataSame, hostSame]

structure Stores (paths : SharedConfigPaths) (torrent : TorrentSettings) (entry : CatalogTorrentSettings) : Prop where
  source : entry.torrentOrMagnet = encodeCatalogTorrentSource torrent.torrentOrMagnet paths.rootDir
  name : entry.name = torrent.name
  priorities : entry.filePriorities = torrent.filePriorities
  download : ∀ path, entry.downloadPath = some path → ∃ kept encoded, torrent.downloadPath = some kept ∧
    encodeSharedDataPath kept paths.mountDir "" = .ok encoded ∧ components encoded = components path

theorem exists_encoded {kept encoded : Option String}
    (encodes : kept.mapM (encodeSharedDataPath · mount context) = .ok encoded)
    (same : stored.map components = encoded.map components) (is : stored = some path) :
    ∃ place encoded, kept = some place ∧ encodeSharedDataPath place mount "" = .ok encoded ∧
      components encoded = components path := by
  rw [is, map_some, eq_comm, map_eq_some_iff] at same
  obtain ⟨written, rfl, sameComponents⟩ := same
  rw [option_mapM_eq_ok] at encodes
  cases kept with
  | none => exact nomatch encodes
  | some place =>
    obtain ⟨_, found, isWritten⟩ := encodes
    cases isWritten
    exact ⟨place, written, rfl, encodeSharedDataPath_congr rfl found, sameComponents⟩

theorem stores_of_fromSettings {paths : SharedConfigPaths} {entry written : CatalogTorrentSettings}
    (writes : fromSettings torrent paths = .ok written) (same : entry.key = written.key) :
    Stores paths torrent entry := by
  rw [fromSettings, bind_eq_ok] at writes
  obtain ⟨encoded, encodes, result⟩ := writes
  cases result
  obtain ⟨plain, samePath⟩ := Prod.mk.inj same
  rw [CatalogTorrentSettings.mk.injEq] at plain
  obtain ⟨source, name, -, -, -, -, -, -, priorities⟩ := plain
  exact ⟨source, name, priorities, fun path is => exists_encoded encodes samePath is⟩

/-- What a save writes if it succeeds. -/
structure SavedFrom (identity : TorrentIdentity) (paths : SharedConfigPaths) (settings : Settings)
    (before saved : SharedFiles) : Prop where
  folder : ∃ encoded, settings.defaultDownloadFolder.mapM
      (encodeSharedDataPath · paths.mountDir "default_download_folder") = .ok encoded ∧
    saved.settings.defaultDownloadFolder.map components = encoded.map components
  catalog : Forall₂ (Stores paths) settings.torrents saved.catalog
  metadata : saved.metadata = identity.syncTorrentMetadataWithSettings before.metadata settings

theorem savedFrom_of_saveSettings (save : host.saveSettings identity settings stamp writes files = (.ok (), saved)) :
    SavedFrom identity host.paths settings files saved := by
  rw [saveSettings] at save
  split at save
  · exact nomatch save
  dsimp only at save
  split at save
  · exact nomatch save
  rename_i next layers
  obtain ⟨settingsKey, catalogKeys, metadataIs⟩ := writeLayers_ok save
  rw [LayeredConfig.fromSharedSettings, bind_eq_ok] at layers
  obtain ⟨config, configIs, rest⟩ := layers
  obtain ⟨catalog, catalogIs, result⟩ := bind_eq_ok.mp rest
  cases result
  rw [SharedSettingsConfig.fromSettings, bind_eq_ok] at configIs
  obtain ⟨encoded, encodes, result⟩ := configIs
  cases result
  refine ⟨⟨encoded, encodes, congrArg Prod.snd settingsKey⟩, ?_, metadataIs⟩
  rw [catalogFromSettings, mapM_eq_ok] at catalogIs
  have byKey : Forall₂ (fun torrent key => ∃ written, fromSettings torrent host.paths = .ok written ∧
      key = written.key) settings.torrents (saved.catalog.map key) := by
    rw [catalogKeys, forall₂_map_right_iff]
    exact catalogIs.imp fun torrent written writes => ⟨written, writes, rfl⟩
  refine (forall₂_map_right_iff.mp byKey).imp ?_
  rintro torrent entry ⟨written, writes, same⟩
  exact stores_of_fromSettings writes same

theorem exists_of_stores {paths : SharedConfigPaths} {catalog : List CatalogTorrentSettings}
    (stores : Forall₂ (Stores paths) torrents catalog) :
    ∀ entry ∈ catalog, ∃ torrent ∈ torrents, Stores paths torrent entry := by
  induction stores with
  | nil => exact fun _ member => absurd member not_mem_nil
  | cons first _ ih =>
    rintro entry (_ | ⟨_, member⟩)
    · exact ⟨_, .head _, first⟩
    · obtain ⟨torrent, isTorrent, stores⟩ := ih entry member
      exact ⟨torrent, .tail _ isTorrent, stores⟩

theorem filterMap_describe_stored {writer reader : SharedConfigPaths} {catalog : List CatalogTorrentSettings}
    (stores : Forall₂ (Stores writer) torrents catalog)
    (carries : ∀ torrent ∈ torrents, identity.Carries writer reader torrent) :
    torrents.filterMap identity.describe = catalog.filterMap fun entry =>
      (identity.infoHashFromTorrentSource (decodeCatalogTorrentSource entry.torrentOrMagnet reader.rootDir)).map
        fun infoHash => (hexEncode infoHash, entry.name, entry.filePriorities) := by
  induction stores with
  | nil => rfl
  | cons first _ ih =>
    rw [forall_mem_cons] at carries
    rw [filterMap_cons, filterMap_cons, ih carries.2, first.source, first.name, first.priorities, carries.1.sameHash]
    rfl

theorem settled_of_saveSettings {paths : SharedConfigPaths}
    (save : host.saveSettings identity settings stamp writes files = (.ok (), saved))
    (folder : ∃ path, settings.defaultDownloadFolder = some path ∧ paths.Finds host.paths path)
    (named : ∀ torrent ∈ settings.torrents, torrent.name ≠ "")
    (distinct : ((settings.torrents.filterMap identity.describe).map Prod.fst).Nodup)
    (carries : ∀ torrent ∈ settings.torrents, identity.Carries host.paths paths torrent) :
    Settled identity paths saved := by
  obtain ⟨⟨encoded, encodes, sameFolder⟩, catalog, metadataIs⟩ := savedFrom_of_saveSettings save
  have described : saved.metadata.map TorrentMetadataEntry.description =
      settings.torrents.filterMap identity.describe := metadataIs ▸ description_syncLoop named
  have entries := exists_of_stores catalog
  constructor
  · obtain ⟨place, isPlace, finds⟩ := folder
    obtain ⟨written, found, rfl⟩ := option_mapM_eq_ok.mp (isPlace ▸ encodes)
    obtain ⟨path, isPath, same⟩ := map_eq_some_iff.mp sameFolder
    exact ⟨path, isPath, (finds written (encodeSharedDataPath_congr rfl found)).congr same.symm⟩
  · intro entry member path isPath
    obtain ⟨torrent, isTorrent, stores⟩ := entries entry member
    obtain ⟨kept, written, isKept, found, same⟩ := stores.download path isPath
    exact ((carries torrent isTorrent).download kept isKept written found).congr same
  · intro entry member
    obtain ⟨torrent, isTorrent, stores⟩ := entries entry member
    rw [stores.source]
    exact (carries torrent isTorrent).returns
  · exact described.trans (filterMap_describe_stored catalog carries)
  · intro known member
    obtain ⟨torrent, isTorrent, told⟩ := mem_filterMap.mp (described ▸ mem_map_of_mem member)
    obtain ⟨infoHash, -, same⟩ := map_eq_some_iff.mp told
    have sameName : torrent.name = known.torrentName := congrArg (·.2.1) same
    exact sameName ▸ named torrent isTorrent
  · have hashes := congrArg (map Prod.fst) described
    rw [List.map_map] at hashes
    exact hashes ▸ distinct

end Saved

end Superseedr
