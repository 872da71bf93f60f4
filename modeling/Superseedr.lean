import Superseedr.Soundness.Endgame
import Superseedr.Soundness.VerificationLeak
import Superseedr.Soundness.UploadSafety
import Superseedr.Soundness.ValidationAgreement
import Superseedr.Soundness.OfflineMove
import Superseedr.Soundness.FollowerSaves
import Superseedr.Soundness.PersistedStatus
import Superseedr.Soundness.TransferTotals
import Superseedr.Soundness.WireRoundTrip
import Superseedr.Soundness.RateLimit
import Superseedr.Soundness.FlatStorage
import Superseedr.Soundness.UtpAcknowledgement
import Superseedr.Soundness.UtpWindow
import Superseedr.Soundness.InterestHistory
import Superseedr.Soundness.SessionAgreement
import Superseedr.Soundness.TokenLifetime
import Superseedr.Soundness.PeerStoreLimits
import Superseedr.Soundness.RoutingRecords
import Superseedr.Soundness.PublicIdentity
import Superseedr.Soundness.Permits
import Superseedr.Soundness.LayerAddresses
import Superseedr.Soundness.PolicyRevisions
import Superseedr.Soundness.BlockAssembly
import Superseedr.Soundness.TrackerAnswers
import Superseedr.Soundness.MetadataPieces
import Superseedr.Soundness.FilePriorities
import Superseedr.Soundness.FileOrder
import Superseedr.Soundness.PacketRoundTrip
import Superseedr.Soundness.WebSeedBlocks
import Superseedr.Soundness.NetworkGuard
import Superseedr.Soundness.LaunchBudget
import Superseedr.Soundness.RecentPeers
