import Superseedr.Model.Derived
import Superseedr.Model.OfflinePlans
import Superseedr.Soundness.ResolvedPaths

/-! # Containment of paths

The names of files come from the metadata of a torrent, which anybody may have written. This module says
which names keep every path that is created, written, moved or deleted inside the directory the user chose:
the paths of the layout, of the deletion lists and of the offline plans. A name with an absolute component
or with double dots leads out of it.
-/

namespace Superseedr

open DirWalk List FileInfo ControlHost Except TorrentState

variable {base destination validated unique : String} {mfi : MultiFileInfo} {file : TorrentFileListEntry}
  {listed : List String × ℕ}

/-! ## Deletion lists -/

theorem inside_calculateDeletionLists
    (kept : ∀ file ∈ mfi.files, ∃ parts, confined parts ∧ file.path = parts.foldl pathPush base) (a : Arrangement)
    (containerName : Option String) (cwd : List String) :
    (∀ path ∈ (calculateDeletionLists a mfi base containerName).1, Inside cwd base path) ∧
      ∀ dir ∈ (calculateDeletionLists a mfi base containerName).2, Inside cwd base dir := by
  dsimp only [calculateDeletionLists]
  constructor
  · intro path member
    obtain ⟨file, known, rfl⟩ := mem_map.mp member
    obtain ⟨parts, stays, located⟩ := kept file known
    rw [located]
    exact inside_of_confined stays cwd base
  · intro dir member
    rw [mem_insertionSort, Arrangement.mem_arrange] at member
    rcases mem_foldl_insertPath member with none | inserted
    · cases none
    rcases mem_append.mp inserted with above | isBase
    · obtain ⟨path, inFiles, walked⟩ := mem_flatMap.mp above
      obtain ⟨file, known, rfl⟩ := mem_map.mp inFiles
      obtain ⟨parts, stays, located⟩ := kept file known
      obtain ⟨below, parent, found, within⟩ := mem_dirsAbove walked
      obtain ⟨last, split⟩ := components_pathParent found
      rw [located] at split
      refine inside_of_between stays below (within.trans ?_) cwd
      rw [split]
      exact prefix_append _ _
    · have same : dir = base := by
        cases containerName with
        | none => cases isBase
        | some name =>
          dsimp only at isBase
          split_ifs at isBase
          · exact mem_singleton.mp isBase
          · cases isBase
      rw [same]
      exact suffix_rfl

/-! ## Where the files of a torrent are put -/

/-- The components between the download directory and the files of a torrent. -/
def containerParts (containerName : Option String) (isMultiFile : Bool) (unique : String) : List String :=
  match containerName with
  | some name => if name ≠ "" then [name] else []
  | none => if isMultiFile then [unique] else []

theorem effectiveRoot_eq (root : String) (containerName : Option String) (isMultiFile : Bool) (unique : String) :
    effectiveRoot root containerName isMultiFile unique =
      (containerParts containerName isMultiFile unique).foldl pathPush root := by
  cases containerName with
  | none => cases isMultiFile <;> rfl
  | some name =>
    rw [effectiveRoot, containerParts]
    split_ifs <;> rfl

theorem uniqueName_ne_empty (torrentName infoHashHex : String) : uniqueName torrentName infoHashHex ≠ "" := by
  rw [uniqueName, ne_eq, String.append_eq_empty_iff]
  exact fun empty => absurd empty.2 (by decide)

namespace Torrent

/-- Every file of the torrent is confined to the download directory. -/
def Confined (torrent : Torrent) (containerName : Option String) (unique : String) : Prop :=
  ∀ file ∈ torrent.fileList, confined (containerParts containerName (torrent.info.files ≠ []) unique ++ file.1)

instance (torrent : Torrent) (containerName : Option String) (unique : String) :
    Decidable (torrent.Confined containerName unique) :=
  inferInstanceAs (Decidable (∀ file ∈ torrent.fileList, _))

end Torrent

theorem paths_foldl {α : Type*} {add : MultiFileInfo → α → MultiFileInfo} (path : α → String)
    (adds : ∀ layout entry, (add layout entry).files.map FileInfo.path = layout.files.map FileInfo.path ++ [path entry])
    (entries : List α) (layout : MultiFileInfo) :
    (entries.foldl add layout).files.map FileInfo.path = layout.files.map FileInfo.path ++ entries.map path := by
  induction entries generalizing layout with
  | nil => rw [foldl_nil, map_nil, append_nil]
  | cons entry entries ih =>
    rw [foldl_cons, ih, adds, append_assoc]
    rfl

theorem paths_new (torrent : Torrent) (root : String) (length : ℕ) (priorities : ℕ → Option FilePriority) :
    (MultiFileInfo.new root torrent.info.name torrent.info.files length priorities).files.map path =
      torrent.fileList.map fun file => file.1.foldl pathPush root := by
  rw [MultiFileInfo.new, Torrent.fileList]
  split_ifs with several
  · rw [paths_foldl (fun entry => entry.1.path.foldl pathPush root) fun _ _ => map_append ..,
      map_nil, nil_append, map_map]
    conv_rhs => rw [← zipIdx_map_fst 0 torrent.info.files, map_map]
    rfl
  · rfl

/-- The layout puts every file below the download directory, along the container and its own components. -/
theorem paths_rebuildMultiFileInfo {s : TorrentState} {torrent : Torrent} {root : String}
    (loaded : s.torrent = some torrent) (chosen : s.torrentDataPath = some root) (nonempty : root ≠ "")
    (built : s.rebuildMultiFileInfo.multiFileInfo = some mfi) :
    mfi.files.map path = torrent.fileList.map fun file =>
      (containerParts s.containerName (torrent.info.files ≠ [])
        (uniqueName torrent.info.name (hexEncode s.infoHash)) ++ file.1).foldl pathPush root := by
  rw [rebuildMultiFileInfo, loaded, chosen] at built
  dsimp only at built
  rw [if_neg nonempty, Option.some.injEq] at built
  have pushed : (match (match s.containerName with
        | some name => some name
        | none => if torrent.info.files ≠ [] then
            some (uniqueName torrent.info.name (hexEncode s.infoHash)) else none) with
      | some name => if name ≠ "" then pathPush root name else root
      | none => root) = (containerParts s.containerName (torrent.info.files ≠ [])
        (uniqueName torrent.info.name (hexEncode s.infoHash))).foldl pathPush root := by
    rw [← effectiveRoot_eq]
    cases s.containerName with
    | some name => rfl
    | none =>
      by_cases several : torrent.info.files = []
      · simp only [effectiveRoot, several, ne_eq, not_true_eq_false, if_false, decide_false, Bool.false_eq_true]
      · simp only [effectiveRoot, several, ne_eq, not_false_eq_true, if_true, decide_true, uniqueName_ne_empty]
  rw [← built, paths_new]
  refine map_congr_left fun file _ => ?_
  rw [foldl_append, ← pushed]
  rfl

theorem paths_manifestLayout (root : String) (torrentSettings : TorrentSettings) (files : List TorrentFileListEntry) :
    (manifestLayout root torrentSettings files).files.map path =
      files.map fun file => pushSegments root file.relativePath :=
  paths_foldl _ (fun _ _ => map_append ..) files _

theorem fileList_ne_nil (torrent : Torrent) : torrent.fileList ≠ [] := by
  rw [Torrent.fileList]
  split_ifs with several
  · rwa [ne_eq, map_eq_nil_iff]
  · exact cons_ne_nil _ _

/-! ## Plans -/

variable {host : ControlHost} {settings : Settings} {torrentSettings : TorrentSettings} {torrent : Torrent}
  {entries : List TorrentMetadataEntry} {infoHash : Bytes} {infoHashHex torrentName root : String} {index : ℕ}
  {isMultiFile : Bool} {files : List TorrentFileListEntry}

namespace ControlHost

theorem torrentSettingsByInfoHashHex_singleton (decoded : host.decodeInfoHash infoHashHex = .ok infoHash)
    (identified : host.infoHashFromTorrentSource torrentSettings.torrentOrMagnet = some infoHash)
    (only : settings.torrents = [torrentSettings]) :
    host.torrentSettingsByInfoHashHex settings infoHashHex = .ok (0, torrentSettings, infoHash) := by
  have position : host.findTorrentSettingsIndexByInfoHash settings infoHash = some 0 := by
    rw [findTorrentSettingsIndexByInfoHash, only, findIdx?_cons, if_pos (by simpa using identified)]
  simp only [torrentSettingsByInfoHashHex, decoded, bind, Except.bind, position, only, getElem?_cons_zero]

section Plans

variable (known : host.torrentMetadata = .ok entries)
  (found : host.torrentSettingsByInfoHashHex settings infoHashHex = .ok (index, torrentSettings, infoHash))
  (manifest : host.manifestEntriesForTorrentSettings entries torrentSettings = .ok (torrentName, isMultiFile, files))
  (rooted : (torrentSettings.downloadPath <|> settings.defaultDownloadFolder) = some root)
include known found manifest rooted

theorem buildOfflinePurgePlan_eq (nonempty : files ≠ []) (a : Arrangement) :
    host.buildOfflinePurgePlan a settings infoHashHex = .ok
      (let source := effectiveRoot root torrentSettings.containerName isMultiFile (uniqueName torrentName infoHashHex)
      let lists := calculateDeletionLists a (manifestLayout source torrentSettings files) root
        torrentSettings.containerName
      { infoHashHex, files := lists.1, directories := lists.2 }) := by
  simp only [buildOfflinePurgePlan, known, found, manifest, bind, Except.bind, if_neg nonempty,
    resolveTorrentRoots, rooted]

theorem buildMovePayloadPlan_eq (valid : host.validateMoveDownloadPath destination = .ok validated) (a : Arrangement) :
    host.buildMovePayloadPlan a settings infoHashHex destination = .ok
      (let effective root := effectiveRoot root torrentSettings.containerName isMultiFile
        (uniqueName torrentName infoHashHex)
      { infoHashHex
        destinationRoot := effective validated
        files := files.map fun file =>
          (pushSegments (effective root) file.relativePath, pushSegments (effective validated) file.relativePath)
        sourceDirectories := (calculateDeletionLists a (manifestLayout (effective root) torrentSettings files) root
          torrentSettings.containerName).2 }) := by
  simp only [buildMovePayloadPlan, valid, known, found, manifest, bind, Except.bind, resolveTorrentRoots, rooted]
  rfl

end Plans

end ControlHost

/-! ## Containment -/

theorem mem_manifestFiles (member : file ∈ manifestFiles torrent.relativePaths) :
    ∃ listed ∈ torrent.fileList, file.relativePath = "/".intercalate listed.1 := by
  obtain ⟨⟨recorded, idx⟩, indexed, rfl⟩ := mem_map.mp member
  obtain ⟨listed, known, rfl⟩ := mem_map.mp (fst_mem_of_mem_zipIdx indexed)
  exact ⟨listed, known, rfl⟩

theorem exists_mem_manifestFiles (member : listed ∈ torrent.fileList) :
    ∃ file ∈ manifestFiles torrent.relativePaths, file.relativePath = "/".intercalate listed.1 := by
  have recorded : ⟨"/".intercalate listed.1, listed.2⟩ ∈ torrent.relativePaths := mem_map.mpr ⟨listed, member, rfl⟩
  rw [← zipIdx_map_fst 0 torrent.relativePaths] at recorded
  obtain ⟨entry, indexed, same⟩ := mem_map.mp recorded
  refine ⟨_, mem_map.mpr ⟨entry, indexed, rfl⟩, ?_⟩
  dsimp only
  rw [same]

theorem pushSegments_effectiveRoot (containerName : Option String) (unique relativePath : String) :
    pushSegments (effectiveRoot root containerName isMultiFile unique) relativePath =
      (containerParts containerName isMultiFile unique ++
        (segments relativePath).filter (· ≠ "")).foldl pathPush root := by
  rw [pushSegments, effectiveRoot_eq, foldl_append]

/-- All paths that the client or an offline command touches for a torrent lie inside the directory chosen
for it, whatever that directory is. -/
structure PathsContained (host : ControlHost) (torrentSettings : TorrentSettings) (torrent : Torrent) (infoHash : Bytes)
    (infoHashHex : String) : Prop where
  layout : ∀ (cwd : List String) (root : String) (s : TorrentState) (mfi : MultiFileInfo), root ≠ "" →
    s.torrent = some torrent → s.infoHash = infoHash → s.containerName = torrentSettings.containerName →
    s.torrentDataPath = some root → s.rebuildMultiFileInfo.multiFileInfo = some mfi →
    (∀ file ∈ mfi.files, Inside cwd root file.path) ∧ ∀ a : Arrangement,
      let lists := calculateDeletionLists a mfi root s.rebuildMultiFileInfo.containerName
      (∀ path ∈ lists.1, Inside cwd root path) ∧ ∀ dir ∈ lists.2, Inside cwd root dir
  purge : ∀ (cwd : List String) (root : String) (a : Arrangement) (settings : Settings) (index : ℕ)
    (downloadPath : Option String) (plan : OfflinePurgePlan),
    host.torrentSettingsByInfoHashHex settings infoHashHex =
      .ok (index, { torrentSettings with downloadPath }, infoHash) →
    (downloadPath <|> settings.defaultDownloadFolder) = some root →
    host.buildOfflinePurgePlan a settings infoHashHex = .ok plan →
    (∀ path ∈ plan.files, Inside cwd root path) ∧ ∀ dir ∈ plan.directories, Inside cwd root dir
  move : ∀ (cwd : List String) (root destination validated : String) (a : Arrangement) (settings : Settings)
    (index : ℕ) (downloadPath : Option String) (plan : MovePayloadPlan),
    host.torrentSettingsByInfoHashHex settings infoHashHex =
      .ok (index, { torrentSettings with downloadPath }, infoHash) →
    (downloadPath <|> settings.defaultDownloadFolder) = some root →
    host.validateMoveDownloadPath destination = .ok validated →
    host.buildMovePayloadPlan a settings infoHashHex destination = .ok plan →
    (∀ file ∈ plan.files, Inside cwd root file.1 ∧ Inside cwd validated file.2) ∧
      Inside cwd validated plan.destinationRoot ∧ ∀ dir ∈ plan.sourceDirectories, Inside cwd root dir

section Main

theorem layout_contained {s : TorrentState}
    (kept : torrent.Confined s.containerName (uniqueName torrent.info.name (hexEncode s.infoHash)))
    (nonempty : root ≠ "") (loaded : s.torrent = some torrent) (chosen : s.torrentDataPath = some root)
    (built : s.rebuildMultiFileInfo.multiFileInfo = some mfi) :
    ∀ file ∈ mfi.files, ∃ parts, confined parts ∧ file.path = parts.foldl pathPush root := by
  intro file member
  have located := mem_map_of_mem (f := path) member
  rw [paths_rebuildMultiFileInfo loaded chosen nonempty built] at located
  obtain ⟨listed, known, same⟩ := mem_map.mp located
  exact ⟨_, kept listed known, same.symm⟩

theorem confined_of_layout (contained : PathsContained host torrentSettings torrent infoHash infoHashHex) :
    torrent.Confined torrentSettings.containerName (uniqueName torrent.info.name (hexEncode infoHash)) := by
  intro listed member
  by_contra leaves
  obtain ⟨root, nonempty, outside⟩ := exists_outside (Bool.eq_false_iff.mpr leaves)
  let s := { new infoHash ∅ false torrentSettings.containerName 0 with
    torrent := some torrent, torrentDataPath := some root }
  obtain ⟨mfi, built⟩ : ∃ mfi, s.rebuildMultiFileInfo.multiFileInfo = some mfi := by
    simp only [rebuildMultiFileInfo, s, if_neg nonempty, Option.some.injEq, exists_eq']
  have paths := paths_rebuildMultiFileInfo (rfl : s.torrent = some torrent) (rfl : s.torrentDataPath = some root)
    nonempty built
  obtain ⟨file, placed, path⟩ := mem_map.mp (paths ▸ mem_map_of_mem member)
  have inside := (contained.layout [] root s mfi nonempty rfl rfl rfl rfl built).1 file placed
  rw [path] at inside
  exact outside [] inside

theorem manifest_contained (containerName : Option String) (kept : torrent.Confined containerName unique) :
    ∀ file ∈ (manifestLayout (effectiveRoot root containerName (torrent.info.files ≠ []) unique) torrentSettings
      (manifestFiles torrent.relativePaths)).files,
      ∃ parts, confined parts ∧ file.path = parts.foldl pathPush root := by
  intro file member
  have located := mem_map_of_mem (f := path) member
  rw [paths_manifestLayout] at located
  obtain ⟨entry, recorded, same⟩ := mem_map.mp located
  obtain ⟨listed, known, path⟩ := mem_manifestFiles recorded
  rw [path, pushSegments_effectiveRoot] at same
  exact ⟨_, confined_segments (kept listed known), same.symm⟩

variable (known : host.torrentMetadata = .ok entries)
  (manifest : host.manifestEntriesForTorrentSettings entries torrentSettings =
    .ok (torrentName, torrent.info.files ≠ [], manifestFiles torrent.relativePaths))

theorem manifestFiles_ne_nil : manifestFiles torrent.relativePaths ≠ [] := by
  obtain ⟨listed, member⟩ := exists_mem_of_ne_nil _ (fileList_ne_nil torrent)
  obtain ⟨file, recorded, -⟩ := exists_mem_manifestFiles member
  exact ne_nil_of_mem recorded

include known manifest

theorem contained_of_confined (layout : torrent.Confined torrentSettings.containerName
      (uniqueName torrent.info.name (hexEncode infoHash)))
    (plans : torrent.Confined torrentSettings.containerName (uniqueName torrentName infoHashHex)) :
    PathsContained host torrentSettings torrent infoHash infoHashHex where
  layout := by
    intro cwd root s mfi nonempty loaded hash container chosen built
    rw [← hash, ← container] at layout
    have located := layout_contained layout nonempty loaded chosen built
    refine ⟨fun file member => ?_, fun a => inside_calculateDeletionLists located a _ cwd⟩
    obtain ⟨parts, stays, path⟩ := located file member
    rw [path]
    exact inside_of_confined stays cwd root
  purge := by
    intro cwd root a settings index downloadPath plan found rooted built
    rw [buildOfflinePurgePlan_eq known found manifest rooted manifestFiles_ne_nil, ok.injEq]
      at built
    rw [← built]
    exact inside_calculateDeletionLists (manifest_contained _ plans) a _ cwd
  move := by
    intro cwd root destination validated a settings index downloadPath plan found rooted valid built
    rw [buildMovePayloadPlan_eq known found manifest rooted valid, ok.injEq] at built
    rw [← built]
    refine ⟨fun file member => ?_, ?_, (inside_calculateDeletionLists (manifest_contained _ plans) a _ cwd).2⟩
    · obtain ⟨entry, recorded, rfl⟩ := mem_map.mp member
      obtain ⟨listed, inList, path⟩ := mem_manifestFiles recorded
      have stays := confined_segments (plans listed inList)
      rw [path, pushSegments_effectiveRoot, pushSegments_effectiveRoot]
      exact ⟨inside_of_confined stays cwd root, inside_of_confined stays cwd validated⟩
    · obtain ⟨listed, inList⟩ := exists_mem_of_ne_nil _ (fileList_ne_nil torrent)
      dsimp only
      rw [effectiveRoot_eq]
      exact inside_of_confined (confined_of_append (plans listed inList)) cwd validated

theorem confined_of_purge (decoded : host.decodeInfoHash infoHashHex = .ok infoHash)
    (identified : host.infoHashFromTorrentSource torrentSettings.torrentOrMagnet = some infoHash)
    (contained : PathsContained host torrentSettings torrent infoHash infoHashHex)
    (relative : ∀ listed ∈ torrent.fileList, ∀ part ∈ listed.1, isAbsolute part = false) :
    torrent.Confined torrentSettings.containerName (uniqueName torrentName infoHashHex) := by
  intro listed member
  apply confined_of_segments (relative listed member)
  by_contra leaves
  obtain ⟨root, nonempty, outside⟩ := exists_outside (Bool.eq_false_iff.mpr leaves)
  obtain ⟨entry, recorded, relativePath⟩ := exists_mem_manifestFiles member
  let moved := { torrentSettings with downloadPath := some root }
  have found : host.torrentSettingsByInfoHashHex { torrents := [moved] } infoHashHex = .ok (0, moved, infoHash) :=
    torrentSettingsByInfoHashHex_singleton decoded identified rfl
  have built := buildOfflinePurgePlan_eq known found manifest rfl manifestFiles_ne_nil .stored
  refine outside [] ((contained.purge [] root .stored _ 0 (some root) _ found rfl built).1 _ ?_)
  have placed := mem_map_of_mem (f := fun file : TorrentFileListEntry =>
    pushSegments (effectiveRoot root moved.containerName (torrent.info.files ≠ [])
      (uniqueName torrentName infoHashHex)) file.relativePath) recorded
  rw [relativePath, pushSegments_effectiveRoot] at placed
  dsimp only [calculateDeletionLists]
  rw [paths_manifestLayout]
  exact placed

/-- Paths are contained exactly if every file of the torrent is confined, both below the directory of the
running client and below the one the plans use. -/
theorem paths_contained_iff (decoded : host.decodeInfoHash infoHashHex = .ok infoHash)
    (identified : host.infoHashFromTorrentSource torrentSettings.torrentOrMagnet = some infoHash) :
    PathsContained host torrentSettings torrent infoHash infoHashHex ↔
      torrent.Confined torrentSettings.containerName (uniqueName torrent.info.name (hexEncode infoHash)) ∧
        torrent.Confined torrentSettings.containerName (uniqueName torrentName infoHashHex) := by
  constructor
  · intro contained
    have layout := confined_of_layout contained
    refine ⟨layout, confined_of_purge known manifest decoded identified contained ?_⟩
    intro listed member part inPath
    exact ((confined_iff _).mp (layout listed member)).1 part (mem_append_right _ inPath)
  · rintro ⟨layout, plans⟩
    exact contained_of_confined known manifest layout plans

end Main

def listedTorrent (parts : List String) : Torrent where
  info :=
    { pieceLength := 4
      pieces := List.replicate 20 0
      files := [{ length := 4, path := parts }]
      name := "t"
      length := 4
      metaVersion := none
      fileTree := none }

/-- A host that knows one torrent from its torrent file. -/
def hostOf (torrent : Torrent) : ControlHost where
  decodeInfoHash _ := .ok []
  infoHashFromTorrentSource _ := some []
  torrentMetadata := .ok []
  readTorrent _ := .ok torrent
  validateMoveDownloadPath path := .ok path

/-- A file named by double dots is laid out, deleted, purged and moved next to the chosen directory. -/
theorem parent_component_leaves_root :
    completeMetadata (listedTorrent ["..", "x"]) = listedTorrent ["..", "x"] ∧
      ¬ PathsContained (hostOf (listedTorrent ["..", "x"])) { containerName := some "" }
        (listedTorrent ["..", "x"]) [] "h" ∧
      ((hostOf (listedTorrent ["..", "x"])).buildOfflinePurgePlan .stored
        { torrents := [{ containerName := some "", downloadPath := some "/d" }] } "h").toOption =
          some { infoHashHex := "h", files := ["/d/../x"], directories := ["/d/.."] } ∧
      resolve [] "/d/../x" = ["x"] := by
  refine ⟨rfl, fun contained => ?_, by decide +kernel, by decide +kernel⟩
  have kept := confined_of_layout contained
  revert kept
  decide +kernel

theorem paths_contained_listed :
    PathsContained (hostOf (listedTorrent ["a", "b"])) { containerName := none } (listedTorrent ["a", "b"]) [] "h" := by
  refine (@paths_contained_iff (hostOf (listedTorrent ["a", "b"])) { containerName := none }
    (listedTorrent ["a", "b"]) [] [] "h" "t" rfl rfl rfl rfl).mpr ⟨?_, ?_⟩
  · decide +kernel
  · decide +kernel

end Superseedr
