import Mathlib.Data.List.MinMax
import Superseedr.Model.DhtNode
import Superseedr.ToMathlib.Arrangement
import Superseedr.ToMathlib.BucketMap

/-! # Announced peers

A node stores the peers that were announced to it, in a bucket for each info hash and family of addresses. Peers are
dropped when they are too old, when their bucket is full, when there are too many buckets, and when there are too many
peers in all. The store is a hash table: where it looks for the oldest entry, the order it walks the buckets in is given
by an arrangement, which decides between entries of the same age. Times are milliseconds of the system clock, which may
be set back.
-/

namespace Superseedr

structure PeerStoreConfig where
  maxInfoHashes : ℕ := 2048
  maxPeersPerInfoHash : ℕ := 128
  maxTotalPeers : ℕ := 16384
  peerTtl : ℕ := 1800 * 1000
deriving DecidableEq, Repr

structure StoredPeer where
  infoHash : InfoHash
  peer : CompactPeer
  announcedAt : ℕ
deriving DecidableEq, Repr

structure PeerStoreKey where
  infoHash : InfoHash
  family : AddressFamily
deriving DecidableEq, Repr

structure PeerStore where
  config : PeerStoreConfig
  peers : AList fun _ : PeerStoreKey => List StoredPeer

namespace PeerStore

variable (order : Arrangement) (s : PeerStore)

def new (config : PeerStoreConfig) : PeerStore := ⟨config, ∅⟩

def totalPeerCount : ℕ := (s.peers.entries.map fun entry => entry.2.length).sum

/-- A peer from the future has no age. -/
def pruneExpired (now : ℕ) : PeerStore :=
  { s with
    peers := (s.peers.mapVal fun _ bucket =>
      bucket.filter fun stored => now - stored.announcedAt ≤ s.config.peerTtl).retain fun _ bucket => !bucket.isEmpty }

def evictOldestBucket : PeerStore :=
  let firsts := (order.arrange 0 s.peers.entries).filterMap fun entry =>
    entry.2.head?.map fun stored => (entry.1, stored.announcedAt)
  match firsts.argmin Prod.snd with
  | some (key, _) => { s with peers := s.peers.erase key }
  | none => s

def oldestPeerEntry : Option (PeerStoreKey × ℕ) :=
  let entries := (order.arrange 1 s.peers.entries).flatMap fun entry =>
    entry.2.zipIdx.map fun (stored, i) => (entry.1, i, stored.announcedAt)
  (entries.argmin fun entry => entry.2.2).map fun entry => (entry.1, entry.2.1)

def removeEntry (key : PeerStoreKey) (i : ℕ) : PeerStore :=
  match s.peers.lookup key with
  | none => s
  | some bucket =>
    let bucket := bucket.eraseIdx i
    { s with peers := if bucket.isEmpty then s.peers.erase key else s.peers.insert key bucket }

/-- The loop of `enforce_global_limit`, for at most the given number of rounds. -/
def enforceRounds (order : Arrangement) : ℕ → PeerStore → PeerStore
  | 0, s => s
  | rounds + 1, s =>
    if s.totalPeerCount > s.config.maxTotalPeers then
      match s.oldestPeerEntry (order.sub rounds) with
      | none => s
      | some (key, i) => enforceRounds order rounds (s.removeEntry key i)
    else s

def enforceGlobalLimit : PeerStore := enforceRounds (order.sub 2) s.totalPeerCount s

/-- What becomes of the bucket that a peer is put into: the newest peers come last and the first ones go. -/
def pushPeer (limit : ℕ) (bucket : List StoredPeer) (stored : StoredPeer) : List StoredPeer :=
  let bucket := (bucket.filter (·.peer.addr ≠ stored.peer.addr) ++ [stored]).insertionSort fun left right =>
    left.announcedAt ≤ right.announcedAt
  bucket.drop (bucket.length - limit)

def makeRoom (key : PeerStoreKey) : PeerStore :=
  if key ∉ s.peers ∧ s.peers.keys.length ≥ s.config.maxInfoHashes then s.evictOldestBucket order else s

/-- Put a peer into a bucket, which is made if there is none. -/
def store (key : PeerStoreKey) (stored : StoredPeer) : PeerStore :=
  { s with
    peers := s.peers.insert key (pushPeer s.config.maxPeersPerInfoHash ((s.peers.lookup key).getD []) stored) }

def insert (infoHash : InfoHash) (peer : CompactPeer) (now : ℕ) : PeerStore × Bool :=
  let s := s.pruneExpired now
  let key : PeerStoreKey := ⟨infoHash, peer.family⟩
  ((((s.makeRoom order key).store key ⟨infoHash, peer, now⟩).enforceGlobalLimit order), true)

def acceptsAnnouncesFor (infoHash : InfoHash) (family : AddressFamily) (now : ℕ) : PeerStore × Bool :=
  let s := s.pruneExpired now
  (s, match s.peers.lookup ⟨infoHash, family⟩ with
    | some bucket => bucket.length < s.config.maxPeersPerInfoHash && s.totalPeerCount < s.config.maxTotalPeers
    | none => s.peers.keys.length < s.config.maxInfoHashes && s.totalPeerCount < s.config.maxTotalPeers)

def peersFor (infoHash : InfoHash) (family : AddressFamily) (now : ℕ) : PeerStore × List CompactPeer :=
  let s := s.pruneExpired now
  (s, ((s.peers.lookup ⟨infoHash, family⟩).map fun bucket => bucket.map (·.peer)).getD [])

inductive Call where
  | insert (infoHash : InfoHash) (peer : CompactPeer)
  | acceptsAnnouncesFor (infoHash : InfoHash) (family : AddressFamily)
  | peersFor (infoHash : InfoHash) (family : AddressFamily)
  | pruneExpired

/-- The store after a call at a time, with the order of the hash table during the call. -/
def serve : Call × ℕ × Arrangement → PeerStore
  | (.insert infoHash peer, now, order) => (s.insert order infoHash peer now).1
  | (.acceptsAnnouncesFor infoHash family, now, _) => (s.acceptsAnnouncesFor infoHash family now).1
  | (.peersFor infoHash family, now, _) => (s.peersFor infoHash family now).1
  | (.pruneExpired, now, _) => s.pruneExpired now

end PeerStore

end Superseedr
