import Superseedr.Soundness.SharedLayers

/-! # What followers save

A follower may change what belongs to the host. Its edit is compared with the settings it has in memory, but
what it saves is compared with the files. So the files keep their shared layers only as long as memory and
files say the same, and only if the files are settled.

A follower also brings up the validated torrents it finds in its settings. For a magnet link that tells its
length and its name it then writes the metadata that the link implies, over what the leader has stored.
-/

namespace Superseedr

open List Option CatalogTorrentSettings TorrentIdentity ClusterHost Except

variable {files : SharedFiles} {new : Settings} {torrent : TorrentSettings} {torrents : List TorrentSettings}

variable {metadata : List TorrentMetadataEntry}

def Cluster.standing (cluster : Cluster) : Option String × SharedFiles := (cluster.leader, cluster.files)

theorem SharedUnchanged.of_standing {before after : Cluster} (same : after.standing = before.standing)
    (unchanged : SharedUnchanged files before.files) : SharedUnchanged files after.files :=
  (Prod.mk.inj same).2 ▸ unchanged

/-- What a follower stores when it brings up the torrent is in the metadata already. -/
def TorrentIdentity.Recorded (identity : TorrentIdentity) (metadata : List TorrentMetadataEntry)
    (torrent : TorrentSettings) : Prop :=
  torrent.torrentControlState ≠ .deleting → torrent.validationStatus = true →
    torrent.torrentOrMagnet.startsWith "magnet:" = true →
    ∀ infoHash entry, identity.magnetInfoHash torrent.torrentOrMagnet = some infoHash →
      identity.magnetMetadataSnapshot torrent infoHash = some entry →
      metadata.find? (·.infoHashHex = entry.infoHashHex) = some entry

/-- The host has in memory what it would load now, apart from what belongs to the host. -/
def Cluster.InStep (identity : TorrentIdentity) (cluster : Cluster) (host : ClusterHost) : Prop :=
  ∃ loaded, host.loadSettings identity cluster.files = .ok loaded ∧
    (cluster.memory host.hostId).withoutHost.key = loaded.withoutHost.key

/-! ## Bringing up torrents -/

section Loads

variable {identity : TorrentIdentity} {host : ClusterHost} {cluster : Cluster}

theorem upsertTorrentMetadataEntry_of_find {entry : TorrentMetadataEntry}
    (found : metadata.find? (·.infoHashHex = entry.infoHashHex) = some entry) :
    upsertTorrentMetadataEntry entry metadata = metadata := by
  induction metadata with
  | nil => exact nomatch found
  | cons existing rest ih =>
    rw [upsertTorrentMetadataEntry]
    split_ifs with same
    · rw [find?_cons, decide_eq_true same] at found
      rw [some.inj found]
    · rw [find?_cons, decide_eq_false same] at found
      rw [ih found]

theorem loadRuntimeTorrent_standing (follower : cluster.isFollower host = true)
    (recorded : identity.Recorded cluster.files.metadata torrent) :
    (cluster.loadRuntimeTorrent identity host torrent).standing = cluster.standing := by
  rw [Cluster.loadRuntimeTorrent]
  split_ifs with apart magnet
  · rfl
  · obtain ⟨running, loads⟩ := not_or.mp apart
    have validated : torrent.validationStatus = true := by simpa [follower] using loads
    cases hash : identity.magnetInfoHash torrent.torrentOrMagnet with
    | none => rfl
    | some infoHash =>
      dsimp only [Cluster.persistMagnetMetadataSnapshot]
      cases snapshot : identity.magnetMetadataSnapshot torrent infoHash with
      | none => rfl
      | some entry =>
        have stored := recorded running validated magnet infoHash entry hash snapshot
        dsimp only [Cluster.upsertTorrentMetadata]
        split_ifs
        · rfl
        · rw [Cluster.standing, upsertTorrentMetadataEntry_of_find stored]
          rfl
  · rfl

theorem loadRuntimeTorrents_standing (follower : cluster.isFollower host = true)
    (recorded : ∀ torrent ∈ torrents, identity.Recorded cluster.files.metadata torrent) :
    (cluster.loadRuntimeTorrents identity host torrents).standing = cluster.standing := by
  rw [Cluster.loadRuntimeTorrents]
  induction torrents generalizing cluster with
  | nil => rfl
  | cons torrent torrents ih =>
    have first := loadRuntimeTorrent_standing follower (recorded torrent (.head _))
    obtain ⟨sameLeader, sameFiles⟩ := Prod.mk.inj first
    rw [foldl_cons, ← first]
    refine ih ?_ ?_
    · rw [Cluster.isFollower, sameLeader]
      exact follower
    · rw [sameFiles]
      exact fun other member => recorded other (.tail torrent member)

theorem addedTorrents_of_keys {old : Settings}
    (same : new.torrents.map TorrentSettings.key = old.torrents.map TorrentSettings.key) :
    identity.addedTorrents old new = [] := by
  rw [addedTorrents, filter_eq_nil_iff.mpr, pwFilter_nil]
  intro torrent member added
  obtain ⟨known, isKnown, sameKey⟩ := mem_map.mp (same ▸ mem_map_of_mem member)
  rw [Bool.and_eq_true, List.all_eq_true] at added
  have differs := of_decide_eq_true (added.2 known isKnown)
  have source : known.torrentOrMagnet = torrent.torrentOrMagnet := congrArg (·.1.torrentOrMagnet) sameKey
  exact differs (congrArg identity.infoHashFromTorrentSource source)

theorem chosen_nil (order : List ℕ) : chosen [] order = [] :=
  filterMap_eq_nil_iff.mpr fun _ _ => getElem?_nil

end Loads

/-! ## The cluster -/

/-- The host that acts. -/
def ClusterEvent.actor : ClusterEvent → Option ClusterHost
  | .start host _ _ => some host
  | .loadNextStartupBatch host _ => some host
  | .elect _ => none
  | .leaderSave host _ _ _ => some host
  | .persistTorrentMetadata host _ _ => some host
  | .reload host _ _ => some host
  | .updateConfig host _ _ _ _ _ => some host
  | .bound host _ _ => some host

/-- The torrents that the host brings up are recorded. An edit finds the host in step with settled files, and its
environment overrides no shared setting. -/
def Cluster.Calm (identity : TorrentIdentity) (cluster : Cluster) : ClusterEvent → Prop
  | .start host _ order => ∀ settings, host.loadSettings identity cluster.files = .ok settings →
      ∀ torrent ∈ chosen settings.torrents order, identity.Recorded cluster.files.metadata torrent
  | .loadNextStartupBatch host order =>
      ∀ torrent ∈ chosen (cluster.memory host.hostId).torrents order, identity.Recorded cluster.files.metadata torrent
  | .reload host _ order => ∀ settings, host.loadSettings identity cluster.files = .ok settings →
      ∀ torrent ∈ chosen (identity.addedTorrents (cluster.memory host.hostId) settings) order,
        identity.Recorded cluster.files.metadata torrent
  | .updateConfig host _ _ _ _ _ => cluster.InStep identity host ∧ Settled identity host.paths cluster.files ∧
      host.env.defaultDownloadFolder = none ∧ host.env.outputStatusInterval = none
  | _ => True

/-- Whatever happened before, a follower that brings up recorded torrents and edits in step with settled files leaves
the shared layers and the cluster revision as they are. -/
theorem follower_leaves_shared_files (identity : TorrentIdentity) (start : Cluster) (events : List ClusterEvent)
    {event : ClusterEvent} {host : ClusterHost} (acts : event.actor = some host)
    (follower : (start.run identity events).isFollower host = true)
    (calm : (start.run identity events).Calm identity event) :
    SharedUnchanged (start.run identity events).files ((start.run identity events).step identity event).files := by
  generalize start.run identity events = cluster at follower calm ⊢
  cases event with
  | start other clientId order =>
    obtain rfl : other = host := some.inj acts
    rw [Cluster.step]
    cases load : other.loadSettings identity cluster.files with
    | error error => exact .rfl
    | ok settings =>
      dsimp only
      refine .of_standing (loadRuntimeTorrents_standing ?_ ?_) ⟨rfl, rfl, rfl, rfl⟩
      · exact follower
      · exact calm settings load
  | loadNextStartupBatch other order =>
    obtain rfl : other = host := some.inj acts
    exact .of_standing (loadRuntimeTorrents_standing follower calm) .rfl
  | elect hostId => exact nomatch acts
  | leaderSave other settings stamp writes =>
    obtain rfl : other = host := some.inj acts
    rw [Cluster.step, if_pos follower]
    exact .rfl
  | persistTorrentMetadata other infoHash entry =>
    obtain rfl : other = host := some.inj acts
    rw [Cluster.step, if_pos follower]
    exact .rfl
  | reload other portLost order =>
    obtain rfl : other = host := some.inj acts
    rw [Cluster.step, if_neg (by simpa using follower)]
    cases load : other.loadSettings identity cluster.files with
    | error error => exact .rfl
    | ok settings =>
      dsimp only [Cluster.applyUpdate]
      split_ifs
      · exact ⟨rfl, rfl, rfl, rfl⟩
      · refine .of_standing (loadRuntimeTorrents_standing ?_ ?_) ⟨rfl, rfl, rfl, rfl⟩
        · exact follower
        · exact calm settings load
  | bound other port pinned => exact .rfl
  | updateConfig other settings stamp writes portLost order =>
    obtain rfl : other = host := some.inj acts
    obtain ⟨⟨loaded, load, inStep⟩, settled, noFolder, noInterval⟩ := calm
    have source := loadedFrom_of_loadSettings settled noFolder noInterval load
    rw [Cluster.step, if_pos follower]
    cases scope : classifySharedModeSettingsChange (cluster.memory other.hostId) settings with
    | noChange | sharedOrMixed => exact .rfl
    | hostOnly =>
      have unchanged :
          SharedUnchanged cluster.files (other.saveSettings identity settings stamp writes cluster.files).2 :=
        saveSettings_unchanged settled source ((sameShared_of_hostOnly scope).trans (sameShared_of_withoutHost inStep))
      generalize other.saveSettings identity settings stamp writes cluster.files = outcome at unchanged ⊢
      obtain ⟨result, files⟩ := outcome
      cases result with
      | error => exact unchanged
      | ok =>
        dsimp only [Cluster.applyUpdate]
        rw [addedTorrents_of_keys (sameShared_of_hostOnly scope).torrents, chosen_nil]
        exact unchanged

/-! ## Two hosts -/

namespace TwoHosts

def identity : TorrentIdentity where
  infoHashFromTorrentSource source := if source.startsWith "magnet:" then some [1] else none
  extractMagnetQueryValue _ key := some (if key = "dn" then "d" else "5")
  parseU64 _ := some 5
  magnetInfoHash _ := some [1]
  extractMagnetExactLength _ := some 5
  extractMagnetDisplayName _ := some "d"
  hexDecode _ := some [1]

def leader : ClusterHost where
  hostId := "l"
  paths := { mountDir := "/m", rootDir := "/m/superseedr-config" }
  env := {}

def follower : ClusterHost where
  hostId := "f"
  paths := { mountDir := "/n", rootDir := "/n/superseedr-config" }
  env := {}

def start : Cluster where
  files := { settings := { defaultDownloadFolder := some "" } }
  memory _ := {}
  leader := some "l"

/-- What the leader saves: a torrent has been added. -/
def added : Settings :=
  { torrents := [{ torrentOrMagnet := "magnet:x", name := "t", validationStatus := true, downloadPath := some "/m/a" }]
    defaultDownloadFolder := some "/m" }

/-- What the leader has found in the torrent's info dictionary. -/
def contents : TorrentMetadataEntry :=
  { infoHashHex := "01"
    torrentName := "t"
    totalSize := 5
    isMultiFile := true
    files := [{ relativePath := "x", length := 2 }, { relativePath := "y", length := 3 }] }

def started : Cluster := start.run identity [.start follower none []]

/-- The follower has not reloaded since. -/
def stale : Cluster := started.run identity [.leaderSave leader added 1 9]

def reloaded : Cluster := stale.run identity [.reload follower false [0]]

def editPort (cluster : Cluster) : ClusterEvent :=
  .updateConfig follower { cluster.memory "f" with clientPort := 7000 } 2 9 false []

end TwoHosts

open TwoHosts in
/-- A follower that has not reloaded edits its port, and the torrent of the leader is gone from the catalog. A
follower that reloads replaces the files that the leader has found in the torrent by the one its magnet link names. -/
theorem stale_follower_overwrites :
    stale.isFollower follower = true ∧
      stale.files.catalog.map torrentOrMagnet = ["magnet:x"] ∧ stale.files.revision = 1 ∧
      (stale.step identity (editPort stale)).files.catalog = [] ∧
      (stale.step identity (editPort stale)).files.metadata = [] ∧
      (stale.step identity (editPort stale)).files.revision = 2 ∧
      (stale.step identity (.persistTorrentMetadata leader [1] contents)).files.metadata = [contents] ∧
      (stale.run identity [.persistTorrentMetadata leader [1] contents, .reload follower false [0]]).files.metadata =
        [{ contents with isMultiFile := false, files := [{ relativePath := "d", length := 5 }] }] := by
  decide +kernel

namespace TwoHosts

theorem stale_settled : Settled identity follower.paths stale.files := by
  have carries : ∀ torrent ∈ added.torrents, identity.Carries leader.paths follower.paths torrent := by
    refine forall_mem_singleton.mpr ⟨by decide +kernel, by decide +kernel, ?_⟩
    rintro _ ⟨⟩ encoded isEncoded
    have below : encodeSharedDataPath "/m/a" "/m" "" = .ok "a" := by decide +kernel
    obtain rfl := ok.inj (below.symm.trans isEncoded)
    exact ⟨"/n/a", "a", by decide +kernel, by decide +kernel, rfl⟩
  have finds : follower.paths.Finds leader.paths "/m" := by
    intro encoded isEncoded
    have root : encodeSharedDataPath "/m" "/m" "" = .ok "" := by decide +kernel
    obtain rfl := ok.inj (root.symm.trans isEncoded)
    exact ⟨"/n", "", by decide +kernel, by decide +kernel, rfl⟩
  have saves : stale = started.step identity (.leaderSave leader added 1 9) := rfl
  rw [saves, Cluster.step, if_neg (by decide +kernel)]
  have save : leader.saveSettings identity added 1 9 started.files =
      (.ok (), (leader.saveSettings identity added 1 9 started.files).2) := Prod.ext (by decide +kernel) rfl
  exact settled_of_saveSettings save ⟨"/m", rfl, finds⟩ (by decide +kernel) (by decide +kernel) carries

theorem reloaded_settled : Settled identity follower.paths reloaded.files :=
  have same : SharedUnchanged stale.files reloaded.files :=
    ⟨by decide +kernel, by decide +kernel, by decide +kernel, by decide +kernel⟩
  same.settled stale_settled

end TwoHosts

open TwoHosts in
theorem reloaded_follower_leaves_shared_files :
    stale.files.metadata ≠ [] ∧ SharedUnchanged stale.files reloaded.files ∧
      SharedUnchanged reloaded.files (reloaded.step identity (editPort reloaded)).files ∧
      (reloaded.step identity (editPort reloaded)).files.hosts "f" = some { clientPort := 7000 } := by
  refine ⟨by decide +kernel, ?_, ?_, by decide +kernel⟩
  · have stored : ∀ settings ∈ (follower.loadSettings identity stale.files).toOption,
        ∀ torrent ∈ chosen (identity.addedTorrents (stale.memory "f") settings) [0],
        ∀ entry ∈ identity.magnetMetadataSnapshot torrent [1],
          stale.files.metadata.find? (·.infoHashHex = entry.infoHashHex) = some entry := by decide +kernel
    refine @follower_leaves_shared_files identity stale [] (.reload follower false [0]) follower rfl
      (by decide +kernel) ?_
    intro settings load torrent member _ _ _ infoHash entry hash snapshot
    cases hash
    exact stored settings (load ▸ rfl) torrent member entry snapshot
  · exact follower_leaves_shared_files identity stale [.reload follower false [0]] rfl (by decide +kernel)
      ⟨⟨reloaded.memory "f", by decide +kernel, rfl⟩, reloaded_settled, rfl, rfl⟩

end Superseedr
