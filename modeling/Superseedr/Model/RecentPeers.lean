import Superseedr.Model.Peer
import Superseedr.ToMathlib.AssocMap

/-! # Peers found recently

The service counts the different peers that lookups found within a window of time. Every find is queued with its
instant, and a map has the last instant of every peer. Finds that have become too old leave the queue in front.
-/

namespace Superseedr

structure RecentUniquePeers where
  window : ℕ
  events : List (ℕ × SocketAddr)
  lastSeen : AList fun _ : SocketAddr => ℕ

namespace RecentUniquePeers

def new (window : ℕ) : RecentUniquePeers := ⟨window, [], ∅⟩

/-- The loop over the front of the queue. A peer is forgotten with its last find. -/
def evictLoop (window now : ℕ) :
    List (ℕ × SocketAddr) → AList (fun _ : SocketAddr => ℕ) → List (ℕ × SocketAddr) × AList fun _ : SocketAddr => ℕ
  | [], lastSeen => ([], lastSeen)
  | (seenAt, peer) :: rest, lastSeen =>
    if now - seenAt < window then ((seenAt, peer) :: rest, lastSeen)
    else evictLoop window now rest (if lastSeen.lookup peer = some seenAt then lastSeen.erase peer else lastSeen)

variable (recent : RecentUniquePeers) (now : ℕ)

def evictExpired : RecentUniquePeers :=
  let (events, lastSeen) := evictLoop recent.window now recent.events recent.lastSeen
  { recent with events, lastSeen }

/-- One round of the loop over a batch. -/
def record (peer : SocketAddr) : RecentUniquePeers :=
  { recent with events := recent.events ++ [(now, peer)], lastSeen := recent.lastSeen.insert peer now }

def recordBatch (peers : List SocketAddr) : RecentUniquePeers :=
  peers.foldl (fun recent peer => recent.record now peer) (recent.evictExpired now)

def uniqueCount : RecentUniquePeers × ℕ := (recent.evictExpired now, (recent.evictExpired now).lastSeen.keys.length)

end RecentUniquePeers

end Superseedr
