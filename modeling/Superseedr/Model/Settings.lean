import Mathlib.Data.Finmap
import Superseedr.Model.Storage

/-! # Settings

The settings of a client and of each of its torrents. In shared mode they are stored in layers: what all
hosts of the cluster share, the catalog of torrents, and what belongs to one host. `SharedPreferences`
holds the fields that the shared layer copies as they are.
-/

namespace Superseedr

inductive TorrentControlState where
  | running
  | paused
  | deleting
deriving DecidableEq, Repr

inductive TorrentSortColumn where
  | name
  | up
  | down
  | progress
deriving DecidableEq, Repr

inductive PeerSortColumn where
  | flags
  | completed
  | address
  | client
  | action
  | ul
  | dl
deriving DecidableEq, Repr

inductive SortDirection where
  | ascending
  | descending
deriving DecidableEq, Repr

inductive UiLayoutMode where
  | auto
  | horizontal
  | vertical
  | square
deriving DecidableEq, Repr

inductive DataRate where
  | rateQuarter | rateHalf | rate1s | rate2s | rate4s | rate10s | rate20s | rate30s | rate60s
deriving DecidableEq, Repr

inductive ThemeName where
  | andromeda | aurora | ayuDark | bubblegum | catppuccinLatte | catppuccinMocha | cyberpunk | deepOcean
  | deepSky | diamond | gold | dracula | everforestDark | gitHubDark | gitHubLight | gruvboxDark | gruvboxLight
  | inferno | kanagawa | materialOcean | matrix | monokai | neon | nightfox | nord | oneDark | obsidianForge
  | oxocarbon | arcticWhiteout | paperColorLight | bioluminescentReef | blackHole | rainbow | rosePine
  | solarizedDark | solarizedLight | synthwave84 | tokyoNight | vesper | zenburn | sakura
deriving DecidableEq, Repr

inductive RssFilterMode where
  | fuzzy
  | regex
deriving DecidableEq, Repr

structure RssFeed where
  url : String := ""
  enabled : Bool := true
deriving DecidableEq, Repr

structure RssFilter where
  query : String := ""
  mode : RssFilterMode := .fuzzy
  enabled : Bool := true
deriving DecidableEq, Repr

structure RssSettings where
  enabled : Bool := true
  pollIntervalSecs : ℕ := 900
  maxPreviewItems : ℕ := 500
  feeds : List RssFeed := []
  filters : List RssFilter := []
deriving DecidableEq, Repr

structure TorrentSettings where
  torrentOrMagnet : String := ""
  name : String := ""
  addedAtUnixSecs : Option ℕ := none
  validationStatus : Bool := false
  downloadPath : Option String := none
  containerName : Option String := none
  torrentControlState : TorrentControlState := .running
  deleteFiles : Bool := false
  filePriorities : Finmap (fun _ : ℕ => FilePriority) := ∅
deriving DecidableEq

def unlimitedRateLimitBps : ℕ := 2 ^ 63 - 1

/-- The settings that the shared layer copies unchanged. -/
structure SharedPreferences where
  lifetimeDownloaded : ℕ := 0
  lifetimeUploaded : ℕ := 0
  privateClient : Bool := false
  torrentSortColumn : TorrentSortColumn := .up
  torrentSortDirection : SortDirection := .descending
  torrentSortPinned : Bool := false
  peerSortColumn : PeerSortColumn := .ul
  peerSortDirection : SortDirection := .descending
  peerSortPinned : Bool := false
  uiTheme : ThemeName := .catppuccinMocha
  uiLayoutMode : UiLayoutMode := .auto
  uiRefreshRate : DataRate := .rate1s
  maxConnectedPeers : ℕ := 2000
  bootstrapNodes : List String :=
    ["router.utorrent.com:6881", "router.bittorrent.com:6881", "dht.transmissionbt.com:6881",
      "dht.libtorrent.org:25401", "router.cococorp.de:6881"]
  globalDownloadLimitBps : ℕ := unlimitedRateLimitBps
  globalUploadLimitBps : ℕ := unlimitedRateLimitBps
  maxConcurrentValidations : ℕ := 64
  connectionAttemptPermits : ℕ := 50
  resourceLimitOverride : Option ℕ := none
  uploadSlots : ℕ := 8
  peerUploadInFlightLimit : ℕ := 4
  trackerFallbackIntervalSecs : ℕ := 1800
  clientLeechingFallbackIntervalSecs : ℕ := 60
  outputStatusInterval : ℕ := 0
  rss : RssSettings := {}
deriving DecidableEq, Repr

structure Settings extends SharedPreferences where
  clientId : String := ""
  clientPort : ℕ := 6681
  randomizeClientPort : Bool := false
  torrents : List TorrentSettings := []
  watchFolder : Option String := none
  defaultDownloadFolder : Option String := none
  alwaysShowAddLocationPrompt : Bool := false
deriving DecidableEq

structure TorrentMetadataFileEntry where
  relativePath : String
  length : ℕ
deriving DecidableEq, Repr

/-- What is remembered of a torrent's metadata outside of its torrent file. -/
structure TorrentMetadataEntry where
  infoHashHex : String
  torrentName : String := ""
  totalSize : ℕ := 0
  isMultiFile : Bool := false
  files : List TorrentMetadataFileEntry := []
  filePriorities : Finmap (fun _ : ℕ => FilePriority) := ∅
deriving DecidableEq

end Superseedr
