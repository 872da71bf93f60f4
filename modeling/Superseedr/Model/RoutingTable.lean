import Superseedr.Model.DhtNode

/-! # The routing table

The identifiers are divided among buckets by their first bits. A bucket holds a limited number of nodes and of
replacements for them. A full bucket is split in halves if the own identifier belongs to it, and a candidate then is
tried again; otherwise the candidate takes the place of a bad node or becomes a replacement. An identifier for which
there is no bucket panics; the loop of `insert` is given the number of rounds it may take.
-/

namespace Superseedr

def goodNodeWindow : ℕ := 15 * 60 * 1000
def badNodeFailureThreshold : ℕ := 2

structure RoutingConfig where
  family : AddressFamily := .ipv4
  bucketSize : ℕ := 8
  replacementLimit : ℕ := 8
deriving DecidableEq, Repr

inductive NodeStatus where
  | good
  | questionable
  | bad
deriving DecidableEq, Repr

inductive InsertOutcome where
  | inserted
  | updated
  | replacedBad (evicted : SocketAddr)
  | queuedReplacement
  | needsProbe (targets : List SocketAddr)
  | discarded
deriving DecidableEq, Repr

/-- `set_bit` with the value true. -/
def setBit160 (bits : NodeId) (i : ℕ) : NodeId := bits ||| (1#160 <<< (159 - i))

theorem getMsbD_setBit160 {bits : NodeId} {i j : ℕ} (inside : i < 160) :
    (setBit160 bits i).getMsbD j = (bits.getMsbD j || decide (i = j)) := by
  have single : ((1#160) <<< (159 - i)).getMsbD j = decide (i = j) := by
    rw [BitVec.getMsbD_shiftLeft, BitVec.getMsbD_one, Bool.eq_iff_iff]
    simp only [Bool.and_eq_true, decide_eq_true_eq]
    omega
  rw [setBit160, BitVec.getMsbD_or, single]

/-- The first bits of the identifiers of a bucket; the other bits are not set. -/
structure BucketPrefix where
  bits : NodeId
  bitLen : ℕ
  bounded : bitLen ≤ 160
  blank : ∀ i, bitLen ≤ i → bits.getMsbD i = false

namespace BucketPrefix

def root : BucketPrefix := ⟨0, 0, Nat.zero_le _, fun i _ => by simp⟩

/-- `prefix_matches`. -/
def contains (p : BucketPrefix) (nodeId : NodeId) : Bool :=
  (List.range p.bitLen).all fun i => p.bits.getMsbD i == nodeId.getMsbD i

/-- The half whose next bit is not set, and the half whose next bit is. -/
def split (p : BucketPrefix) : Option (BucketPrefix × BucketPrefix) :=
  if room : p.bitLen < 160 then
    some
      (⟨p.bits, p.bitLen + 1, room, fun i beyond => p.blank i (by omega)⟩,
        ⟨setBit160 p.bits p.bitLen, p.bitLen + 1, room, fun i beyond => by
          rw [getMsbD_setBit160 room, p.blank i (by omega), decide_eq_false (by omega), Bool.or_false]⟩)
  else none

end BucketPrefix

structure Bucket where
  bucketPrefix : BucketPrefix
  nodes : List NodeRecord := []
  replacements : List NodeRecord := []
  lastChangedAt : ℕ

structure RoutingTable where
  localNodeId : NodeId
  config : RoutingConfig
  buckets : List Bucket

def nodeStatus (record : NodeRecord) (now : ℕ) : NodeStatus :=
  if record.consecutiveFailures ≥ badNodeFailureThreshold then .bad
  else if record.lastQueryResponseAt.any fun at' => now - at' ≤ goodNodeWindow then .good
  else if record.lastQueryResponseAt.isSome && record.lastInboundQueryAt.any fun at' => now - at' ≤ goodNodeWindow then
    .good
  else .questionable

def nodeStatusRank : NodeStatus → ℕ
  | .good => 0
  | .questionable => 1
  | .bad => 2

/-- Good replacements first, and among equals the one that changed last. -/
def compareReplacementPriority (now : ℕ) (left right : NodeRecord) : Ordering :=
  (compare (nodeStatusRank (nodeStatus left now)) (nodeStatusRank (nodeStatus right now))).then
    (compare left.lastChangedAt right.lastChangedAt).swap

def leastRecentlySeenAt (record : NodeRecord) : Option ℕ :=
  match record.lastQueryResponseAt, record.lastInboundQueryAt with
  | some left, some right => some (min left right)
  | some left, none => some left
  | none, right => right

/-- The order of optional times: no time comes first. -/
def optionalRank : Option ℕ → ℕ
  | none => 0
  | some time => time + 1

def questionableProbeTargets (bucket : Bucket) (now : ℕ) : List SocketAddr :=
  ((bucket.nodes.filter fun record => nodeStatus record now = .questionable).insertionSort fun left right =>
    optionalRank (leastRecentlySeenAt left) ≤ optionalRank (leastRecentlySeenAt right)).map (·.addr)

def publicIdentityConflicts (candidate existing : NodeRecord) : Bool :=
  candidate.addr ≠ existing.addr &&
    samePublicIdentityGroup candidate.addr candidate.nodeId candidate.bep42State existing.addr existing.nodeId
      existing.bep42State

def responsePresenceRank (lastResponseAt : Option ℕ) : ℕ := if lastResponseAt.isSome then 0 else 1

/-- The order of `public_identity_preference_rank`. -/
def comparePublicIdentity (now : ℕ) (left right : NodeRecord) : Ordering :=
  (compare (nodeStatusRank (nodeStatus left now)) (nodeStatusRank (nodeStatus right now))).then <|
  (compare (bep42Rank left.bep42State) (bep42Rank right.bep42State)).then <|
  (compare (trustRank left.trust) (trustRank right.trust)).then <|
  compare (responsePresenceRank left.lastQueryResponseAt) (responsePresenceRank right.lastQueryResponseAt)

def publicIdentityReplacementPreferred (candidate existing : NodeRecord) (now : ℕ) : Bool :=
  comparePublicIdentity now candidate existing = .lt

def mergeTrust (current candidate : NodeTrust) : NodeTrust :=
  if current = .suspicious ∨ candidate = .suspicious then .suspicious
  else if current = .trusted ∨ candidate = .trusted then .trusted
  else .neutral

def mergeRecord (target candidate : NodeRecord) (now : ℕ) : NodeRecord :=
  let churned := target.countChurn candidate.nodeId
  let nodeId := target.nodeId.or candidate.nodeId
  { target with
    nodeId
    lastQuerySentAt := candidate.lastQuerySentAt.or target.lastQuerySentAt
    lastQueryResponseAt := candidate.lastQueryResponseAt.or target.lastQueryResponseAt
    lastInboundQueryAt := candidate.lastInboundQueryAt.or target.lastInboundQueryAt
    consecutiveFailures := min target.consecutiveFailures candidate.consecutiveFailures
    deadReferralCount := satAdd16 target.deadReferralCount candidate.deadReferralCount
    liveReferralCount := satAdd16 target.liveReferralCount candidate.liveReferralCount
    idChurnCount := satAdd16 churned.idChurnCount candidate.idChurnCount
    trust := mergeTrust target.trust candidate.trust
    bep42State := classifyNode target.addr nodeId
    lastChangedAt := now }

namespace Bucket

variable (bucket : Bucket)

/-- The halves of a bucket. A record goes to the right if it does not belong to the left, and is dropped if its
identifier is not known. -/
def split (now : ℕ) : Option (Bucket × Bucket) :=
  bucket.bucketPrefix.split.map fun (leftPrefix, rightPrefix) =>
    let goesLeft (record : NodeRecord) := record.nodeId.any leftPrefix.contains
    let goesRight (record : NodeRecord) := record.nodeId.any fun nodeId => !leftPrefix.contains nodeId
    (⟨leftPrefix, bucket.nodes.filter goesLeft, bucket.replacements.filter goesLeft, now⟩,
      ⟨rightPrefix, bucket.nodes.filter goesRight, bucket.replacements.filter goesRight, now⟩)

def withRecord (addr : SocketAddr) (change : NodeRecord → NodeRecord) (now : ℕ) : Option (Bucket × Bool) :=
  match bucket.nodes.findIdx? (·.addr = addr) with
  | some i => some ({ bucket with nodes := bucket.nodes.modify i change, lastChangedAt := now }, true)
  | none => match bucket.replacements.findIdx? (·.addr = addr) with
    | some i => some ({ bucket with replacements := bucket.replacements.modify i change, lastChangedAt := now }, false)
    | none => none

def updateExisting (candidate : NodeRecord) (now : ℕ) : Option (Bucket × InsertOutcome) :=
  (bucket.withRecord candidate.addr (mergeRecord · candidate now) now).map fun (bucket, isNode) =>
    (bucket, if isNode then .updated else .queuedReplacement)

def queueReplacement (limit : ℕ) (candidate : NodeRecord) (now : ℕ) : Bucket :=
  let replacements := bucket.replacements.filter (·.addr ≠ candidate.addr) ++ [candidate]
  { bucket with
    replacements :=
      (replacements.insertionSort fun left right => (compareReplacementPriority now left right).isLE).take limit
    lastChangedAt := now }

def push (candidate : NodeRecord) (now : ℕ) : Bucket :=
  { bucket with nodes := bucket.nodes ++ [candidate], lastChangedAt := now }

def settle (limit : ℕ) (candidate : NodeRecord) (now : ℕ) : Bucket × InsertOutcome :=
  match bucket.nodes.findIdx? (nodeStatus · now = .bad) with
  | some bad =>
    ({ bucket with nodes := bucket.nodes.set bad candidate, lastChangedAt := now },
      .replacedBad ((bucket.nodes[bad]?.map (·.addr)).getD candidate.addr))
  | none =>
    let targets := questionableProbeTargets bucket now
    (bucket.queueReplacement limit candidate now, if targets ≠ [] then .needsProbe targets else .queuedReplacement)

def dropConflicting (candidate : NodeRecord) (now : ℕ) : Bucket :=
  let stays (existing : NodeRecord) :=
    !(publicIdentityConflicts candidate existing && publicIdentityReplacementPreferred candidate existing now)
  let nodes := bucket.nodes.filter stays
  let replacements := bucket.replacements.filter stays
  { bucket with
    nodes
    replacements
    lastChangedAt :=
      if nodes.length ≠ bucket.nodes.length ∨ replacements.length ≠ bucket.replacements.length then now
      else bucket.lastChangedAt }

end Bucket

namespace RoutingTable

def new (localNodeId : NodeId) (config : RoutingConfig) (now : ℕ) : RoutingTable :=
  ⟨localNodeId, config, [{ bucketPrefix := .root, lastChangedAt := now }]⟩

def bucketIndexFor (t : RoutingTable) (nodeId : NodeId) : Option ℕ :=
  t.buckets.findIdx? (·.bucketPrefix.contains nodeId)

def hasBlockingConflict (t : RoutingTable) (candidate : NodeRecord) (now : ℕ) : Bool :=
  t.buckets.any fun bucket => (bucket.nodes ++ bucket.replacements).any fun existing =>
    publicIdentityConflicts candidate existing && !publicIdentityReplacementPreferred candidate existing now

def dropConflicting (t : RoutingTable) (candidate : NodeRecord) (now : ℕ) : RoutingTable :=
  { t with buckets := t.buckets.map fun bucket => bucket.dropConflicting candidate now }

def putBucket (t : RoutingTable) (i : ℕ) (bucket : Bucket) : RoutingTable :=
  { t with buckets := t.buckets.set i bucket }

def putHalves (t : RoutingTable) (i : ℕ) (left right : Bucket) : RoutingTable :=
  { t with buckets := t.buckets.take i ++ left :: right :: t.buckets.drop (i + 1) }

def insertLoop (nodeId : NodeId) (candidate : NodeRecord) (now : ℕ) :
    ℕ → RoutingTable → Option (RoutingTable × InsertOutcome)
  | 0, _ => none
  | rounds + 1, t =>
    (t.bucketIndexFor nodeId).bind fun i => t.buckets[i]?.bind fun bucket =>
      match bucket.updateExisting candidate now with
      | some (updated, outcome) => some (t.putBucket i updated, outcome)
      | none =>
        if t.hasBlockingConflict candidate now then some (t, .discarded)
        else
          let t := t.dropConflicting candidate now
          let bucket := bucket.dropConflicting candidate now
          if bucket.nodes.length < t.config.bucketSize then some (t.putBucket i (bucket.push candidate now), .inserted)
          else
            match if bucket.bucketPrefix.contains t.localNodeId then bucket.split now else none with
            | some (left, right) => insertLoop nodeId candidate now rounds (t.putHalves i left right)
            | none =>
              let (bucket, outcome) := bucket.settle t.config.replacementLimit candidate now
              some (t.putBucket i bucket, outcome)

def insert (rounds : ℕ) (t : RoutingTable) (candidate : NodeRecord) (now : ℕ) : Option (RoutingTable × InsertOutcome) :=
  match candidate.nodeId with
  | none => some (t, .discarded)
  | some nodeId =>
    if candidate.family ≠ t.config.family ∨ isRoutableDhtAddr candidate.addr = false then some (t, .discarded)
    else
      insertLoop nodeId
        { candidate with bep42State := classifyNode candidate.addr (some nodeId), lastChangedAt := now } now rounds t

def withRecordMut (addr : SocketAddr) (change : NodeRecord → NodeRecord) (now : ℕ) : List Bucket → List Bucket
  | [] => []
  | bucket :: rest => match bucket.withRecord addr change now with
    | some (bucket, _) => bucket :: rest
    | none => bucket :: withRecordMut addr change now rest

/-- What happens to a routing table. -/
inductive Op where
  | insert (candidate : NodeRecord) (now : ℕ)
  | recordQuerySent (addr : SocketAddr) (now : ℕ)
  | recordResponse (addr : SocketAddr) (nodeId : Option NodeId) (now : ℕ)
  | recordInboundQuery (addr : SocketAddr) (nodeId : Option NodeId) (now : ℕ)
  | recordFailure (addr : SocketAddr) (now : ℕ)
  | setLocalNodeId (localNodeId : NodeId)

/-- What an operation does to the record of its address. -/
def Op.change : Op → NodeRecord → NodeRecord
  | .recordQuerySent _ now, record => record.noteQuerySent now
  | .recordResponse _ nodeId now, record =>
    let record := record.noteQueryResponse nodeId now
    { record with bep42State := classifyNode record.addr record.nodeId }
  | .recordInboundQuery _ nodeId now, record =>
    let record := { record.countChurn nodeId with nodeId := nodeId.or record.nodeId }.noteInboundQuery now
    { record with bep42State := classifyNode record.addr record.nodeId }
  | .recordFailure _ now, record => record.noteFailure now
  | .insert _ _, record | .setLocalNodeId _, record => record

/-- One operation, if `insert` ends within the given number of rounds. -/
def apply (rounds : ℕ) (t : RoutingTable) (op : Op) : Option RoutingTable :=
  match op with
  | .insert candidate now => (t.insert rounds candidate now).map Prod.fst
  | .recordQuerySent addr now | .recordResponse addr _ now | .recordInboundQuery addr _ now | .recordFailure addr now =>
    some { t with buckets := withRecordMut addr op.change now t.buckets }
  | .setLocalNodeId localNodeId => some { t with localNodeId }

end RoutingTable

end Superseedr
