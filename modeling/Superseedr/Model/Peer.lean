import Mathlib.Data.Finset.Basic
import Mathlib.Data.List.Sort
import Superseedr.Model.PieceManager

/-! # Peers and the book kept about them

A registered peer carries the two choke flags, the pieces it advertises, and what was asked of it:
whole pieces in `pendingRequests`, single blocks in `activeBlocks`. Apart from the registered peers
the client keeps a book by address: how many sessions an address has, when the last one ended, how
often it came back soon after, and what a departed peer had transferred. Times are milliseconds of a
monotonic clock.
-/

namespace Superseedr

inductive IpAddr where
  | v4 (addr : BitVec 32)
  | v6 (addr : BitVec 128)
deriving DecidableEq, Repr

structure SocketAddr where
  ip : IpAddr
  port : BitVec 16
deriving DecidableEq, Repr

/-- Addresses of version 4 that are written as version 6 are taken for what they are. -/
def normalizeIp : IpAddr → IpAddr
  | .v4 addr => .v4 addr
  | .v6 addr => if addr.toNat / 2 ^ 32 = 0xFFFF then .v4 (.ofNat 32 addr.toNat) else .v6 addr

/-- The position of an address in the derived order: version 4 first, then by octets. -/
def IpAddr.rank : IpAddr → ℕ
  | .v4 addr => addr.toNat
  | .v6 addr => 2 ^ 32 + addr.toNat

/-- `instant + duration`, which panics beyond the range of the clock. -/
def instantAdd (instant duration : ℕ) : Option ℕ :=
  if (instant + duration) / 1000 < 2 ^ 63 then some (instant + duration) else none

/-- The addresses that are not to be talked to, with the time at which the restriction ends. -/
structure PeerPolicy where
  blockedUntil : IpAddr → Option ℕ

def PeerPolicy.blocksIp (policy : PeerPolicy) (ip : IpAddr) (now : ℕ) : Bool :=
  (policy.blockedUntil (normalizeIp ip)).any (now < ·)

inductive PeerTransportKind where
  | tcp
  | utp
  | quic
deriving DecidableEq, Repr

def PeerTransportKind.asScheme : PeerTransportKind → String
  | .tcp => "tcp"
  | .utp => "utp"
  | .quic => "quic"

inductive ChokeStatus where
  | choke
  | unchoke
deriving DecidableEq, Repr

/-- A block as it is asked for: piece, offset and length. -/
abbrev BlockRequest := ℕ × ℕ × ℕ

structure PeerState where
  ipPort : PeerId
  peerAddr : Option SocketAddr := none
  successfullyConnected : Bool := false
  connectionCount : ℕ := 0
  disconnectCount : ℕ := 0
  transportKind : PeerTransportKind := .tcp
  peerId : Bytes := []
  bitfield : List Bool := []
  amChoking : ChokeStatus := .choke
  peerChoking : ChokeStatus := .choke
  amInterested : Bool := false
  pendingRequests : AList fun _ : ℕ => Unit := ∅
  peerIsInterestedInUs : Bool := false
  bytesDownloadedFromPeer : ℕ := 0
  bytesUploadedToPeer : ℕ := 0
  bytesDownloadedInTick : ℕ := 0
  bytesUploadedInTick : ℕ := 0
  totalBytesDownloaded : ℕ := 0
  totalBytesUploaded : ℕ := 0
  transferBaseDownloaded : ℕ := 0
  transferBaseUploaded : ℕ := 0
  createdAt : ℕ
  inflightRequests : ℕ := 0
  activeBlocks : Finset BlockRequest := ∅

def PeerState.new (ipPort : PeerId) (createdAt : ℕ) : PeerState := { ipPort, createdAt }

def PeerState.networkAddress (showSocketAddr : SocketAddr → String) (peer : PeerState) : String :=
  match peer.peerAddr with
  | none => peer.ipPort
  | some addr => peer.transportKind.asScheme ++ "://" ++ showSocketAddr addr

structure DepartedPeerTransfer where
  address : String
  peerId : Bytes
  totalDownloaded : ℕ
  totalUploaded : ℕ
  connectionCount : ℕ
  disconnectCount : ℕ
  departedAt : ℕ

def reconnectWindow : ℕ := 10000

def maxInactivePeerBaselines : ℕ := 4096

/-- What is remembered about addresses across sessions. -/
structure PeerBook where
  peerReconnectCounts : IpAddr → Option ℕ
  peerActiveCounts : IpAddr → Option ℕ
  peerIpById : PeerId → Option IpAddr
  peerInactiveSince : AList fun _ : IpAddr => ℕ
  pendingDepartedPeerTransfers : AList fun _ : PeerId => DepartedPeerTransfer

namespace PeerBook

variable (book : PeerBook) (now : ℕ)

def empty : PeerBook := ⟨fun _ => none, fun _ => none, fun _ => none, ∅, ∅⟩

/-- Drop the oldest entries of a table that has grown past the limit. -/
def evictOldest {K V : Type} [DecidableEq K] (older : K × V → K × V → Bool) (table : AList fun _ : K => V) :
    AList fun _ : K => V :=
  let entries := table.entries.map fun entry => (entry.1, entry.2)
  let oldest := (entries.insertionSort fun a b => older a b).take (entries.length - maxInactivePeerBaselines)
  oldest.foldl (fun table entry => table.erase entry.1) table

def maintainPeerReconnectBaselines : PeerBook :=
  let inactive := evictOldest
    (fun a b => a.2 < b.2 || (a.2 == b.2 && decide (a.1.rank ≤ b.1.rank)))
    (book.peerInactiveSince.retain fun _ since => now - since < reconnectWindow)
  let departed := evictOldest
    (fun a b => a.2.departedAt < b.2.departedAt ||
      (a.2.departedAt == b.2.departedAt && decide (a.1 ≤ b.1)))
    (book.pendingDepartedPeerTransfers.retain fun _ transfer => now - transfer.departedAt < reconnectWindow)
  { book with
    peerInactiveSince := inactive
    peerReconnectCounts := fun ip =>
      if (book.peerActiveCounts ip).isSome ∨ ip ∈ inactive then book.peerReconnectCounts ip else none
    pendingDepartedPeerTransfers := departed }

def recordPeerRegistration (peerId : PeerId) (peerAddr : SocketAddr) : PeerBook :=
  let ip := normalizeIp peerAddr.ip
  let activeCount := (book.peerActiveCounts ip).getD 0
  let cameBack := (book.peerInactiveSince.lookup ip).any fun since => now - since < reconnectWindow
  { book with
    peerInactiveSince := if activeCount = 0 then book.peerInactiveSince.erase ip else book.peerInactiveSince
    peerReconnectCounts :=
      if activeCount = 0 then
        Function.update book.peerReconnectCounts ip
          (if cameBack then some (satAdd64 ((book.peerReconnectCounts ip).getD 0) 1) else none)
      else book.peerReconnectCounts
    peerActiveCounts := Function.update book.peerActiveCounts ip (some (min (activeCount + 1) usizeMax))
    peerIpById := Function.update book.peerIpById peerId (some ip) }

def recordPeerRemovalWithReconnectEligibility (peerId : PeerId) (reconnectEligible : Bool) : PeerBook :=
  match book.peerIpById peerId with
  | none => book
  | some ip =>
    let book := { book with peerIpById := Function.update book.peerIpById peerId none }
    match book.peerActiveCounts ip with
    | none => book
    | some activeCount =>
      if activeCount - 1 ≠ 0 then
        { book with peerActiveCounts := Function.update book.peerActiveCounts ip (some (activeCount - 1)) }
      else
        let book := { book with peerActiveCounts := Function.update book.peerActiveCounts ip none }
        if reconnectEligible then
          maintainPeerReconnectBaselines
            { book with peerInactiveSince := book.peerInactiveSince.insert ip now } now
        else
          { book with
            peerInactiveSince := book.peerInactiveSince.erase ip
            peerReconnectCounts := Function.update book.peerReconnectCounts ip none }

def recordPeerRemoval (peerId : PeerId) : PeerBook :=
  book.recordPeerRemovalWithReconnectEligibility now peerId true

def recordAdministrativePeerRemoval (peerId : PeerId) : PeerBook :=
  book.recordPeerRemovalWithReconnectEligibility now peerId false

def recordDepartedPeerTransfer (showSocketAddr : SocketAddr → String) (now : ℕ) (peer : PeerState) : PeerBook :=
  let pending := (book.pendingDepartedPeerTransfers.lookup peer.ipPort).getD
    { address := peer.networkAddress showSocketAddr
      peerId := peer.peerId
      totalDownloaded := 0, totalUploaded := 0, connectionCount := 0, disconnectCount := 0
      departedAt := now }
  let updated :=
    { pending with
      peerId := if peer.peerId ≠ [] then peer.peerId else pending.peerId
      totalDownloaded := max pending.totalDownloaded
        (satAdd64 peer.transferBaseDownloaded peer.totalBytesDownloaded)
      totalUploaded := max pending.totalUploaded (satAdd64 peer.transferBaseUploaded peer.totalBytesUploaded)
      connectionCount := max pending.connectionCount peer.connectionCount
      disconnectCount := max pending.disconnectCount peer.disconnectCount
      departedAt := now }
  maintainPeerReconnectBaselines
    { book with
      pendingDepartedPeerTransfers := book.pendingDepartedPeerTransfers.insert peer.ipPort updated } now

end PeerBook

end Superseedr
