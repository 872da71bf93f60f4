import Superseedr.Model.Peer

/-! # Nodes of the distributed hash table

A node has an identifier of 160 bits, written here as the number its twenty bytes spell, most significant byte first, so
that bit 0 of the source is the most significant bit. A node on a public address of version 4 has to choose an
identifier whose first 21 bits follow from the address; how a node relates to this rule is its classification. A record
keeps what is known of a node. Times are milliseconds of a monotonic clock.
-/

namespace Superseedr

abbrev NodeId := BitVec 160
abbrev InfoHash := BitVec 160

inductive AddressFamily where
  | ipv4
  | ipv6
deriving DecidableEq, Repr

def AddressFamily.forAddr (addr : SocketAddr) : AddressFamily :=
  match addr.ip with
  | .v4 _ => .ipv4
  | .v6 _ => .ipv6

/-- The first bits of an address of version 4, as the number they spell. -/
def leading4 (bits : ℕ) (ip : BitVec 32) : ℕ := ip.toNat / 2 ^ (32 - bits)

/-- The first bits of an address of version 6. -/
def leading6 (bits : ℕ) (ip : BitVec 128) : ℕ := ip.toNat / 2 ^ (128 - bits)

/-- Private, link-local, loopback, broadcast, unspecified and documentation addresses. -/
def ipv4IsExempt (ip : BitVec 32) : Bool :=
  leading4 8 ip = 10 || leading4 12 ip = 0xAC1 || leading4 16 ip = 0xC0A8 || leading4 16 ip = 0xA9FE ||
    leading4 8 ip = 127 || ip = 0xFFFFFFFF || ip = 0 || leading4 24 ip = 0xC00002 || leading4 24 ip = 0xC63364 ||
    leading4 24 ip = 0xCB0071

/-- Loopback, unspecified, unique local and link-local addresses. -/
def ipv6IsLocal (ip : BitVec 128) : Bool :=
  ip = 1 || ip = 0 || leading6 7 ip = 0x7E || leading6 10 ip = 0x3FA

def isRoutableDhtAddr (addr : SocketAddr) : Bool :=
  match addr.ip with
  | .v4 ip => !(ipv4IsExempt ip || leading4 4 ip = 0xE)
  | .v6 ip => !(ipv6IsLocal ip || leading6 8 ip = 0xFF)

inductive NodeTrust where
  | trusted
  | neutral
  | suspicious
deriving DecidableEq, Repr

inductive Bep42State where
  | unknown
  | compliant
  | nonCompliant
  | exemptLocal
deriving DecidableEq, Repr

/-- `first_21_bits` of an identifier. -/
def first21Bits (id : NodeId) : BitVec 21 := id.extractLsb' 139 21

def crc32cRound (crc : BitVec 32) : BitVec 32 := (crc >>> 1) ^^^ (0x82F63B78 &&& (0 - (crc &&& 1)))

def crc32c (bytes : List (BitVec 8)) : BitVec 32 :=
  ~~~bytes.foldl (fun crc byte => (List.range 8).foldl (fun crc _ => crc32cRound crc) (crc ^^^ byte.zeroExtend 32))
    (~~~(0 : BitVec 32))

/-- The first 21 bits an identifier has to have on an address, by its last byte. -/
def idPrefixIpv4 (ip : BitVec 32) (r : BitVec 8) : BitVec 21 :=
  let maskedIp := (ip &&& 0x030F3FFF) ||| (r.zeroExtend 32 <<< 29)
  (crc32c [maskedIp.extractLsb' 24 8, maskedIp.extractLsb' 16 8, maskedIp.extractLsb' 8 8,
    maskedIp.extractLsb' 0 8]).extractLsb' 11 21

def classifyIpv4 (ip : BitVec 32) (nodeId : NodeId) : Bep42State :=
  if ipv4IsExempt ip then .exemptLocal
  else if first21Bits nodeId = idPrefixIpv4 ip (nodeId.extractLsb' 0 8) then .compliant
  else .nonCompliant

def classifyIpv6 (ip : BitVec 128) : Bep42State := if ipv6IsLocal ip then .exemptLocal else .unknown

def classifyNode (addr : SocketAddr) : Option NodeId → Bep42State
  | none => .unknown
  | some nodeId => match addr.ip with
    | .v4 ip => classifyIpv4 ip nodeId
    | .v6 ip => classifyIpv6 ip

-- The test vector of the source: 124.31.75.21 with 5fbfbff10c5d6a4ec8a88e4c6ab4c28b95eee401.
example : classifyNode ⟨.v4 0x7C1F4B15, 6881⟩ (some 0x5FBFBFF10C5D6A4EC8A88E4C6AB4C28B95EEE401) = .compliant := by
  decide +kernel

def isSecurePublicCandidate (addr : SocketAddr) (nodeId : Option NodeId) (state : Bep42State) : Bool :=
  (match addr.ip with
    | .v4 ip => !ipv4IsExempt ip
    | .v6 _ => false) && nodeId.isSome && state = .compliant

/-- Two nodes on one public address, unless both have an identifier of their own for it. -/
def samePublicIdentityGroup (leftAddr : SocketAddr) (leftNodeId : Option NodeId) (leftState : Bep42State)
    (rightAddr : SocketAddr) (rightNodeId : Option NodeId) (rightState : Bep42State) : Bool :=
  match leftAddr.ip, rightAddr.ip with
  | .v4 left, .v4 right =>
    if left ≠ right || ipv4IsExempt left || ipv4IsExempt right then false
    else if !isSecurePublicCandidate leftAddr leftNodeId leftState ||
        !isSecurePublicCandidate rightAddr rightNodeId rightState then true
    else match leftNodeId, rightNodeId with
      | some leftId, some rightId => first21Bits leftId = first21Bits rightId
      | _, _ => true
  | _, _ => false

/-- `u16::saturating_add`. -/
def satAdd16 (x y : ℕ) : ℕ := min (x + y) (2 ^ 16 - 1)

structure NodeRecord where
  addr : SocketAddr
  nodeId : Option NodeId
  lastQuerySentAt : Option ℕ := none
  lastQueryResponseAt : Option ℕ := none
  lastInboundQueryAt : Option ℕ := none
  consecutiveFailures : ℕ := 0
  lastChangedAt : ℕ
  trust : NodeTrust := .neutral
  bep42State : Bep42State := .unknown
  deadReferralCount : ℕ := 0
  liveReferralCount : ℕ := 0
  idChurnCount : ℕ := 0
deriving DecidableEq, Repr

namespace NodeRecord

variable (record : NodeRecord)

def family : AddressFamily := .forAddr record.addr

/-- A second identifier for the same address is counted. -/
def countChurn (nodeId : Option NodeId) : NodeRecord :=
  match record.nodeId, nodeId with
  | some existing, some updated =>
    if existing ≠ updated then { record with idChurnCount := satAdd16 record.idChurnCount 1 } else record
  | _, _ => record

def noteQuerySent (now : ℕ) : NodeRecord :=
  { record with lastQuerySentAt := some now, lastChangedAt := now }

def noteQueryResponse (nodeId : Option NodeId) (now : ℕ) : NodeRecord :=
  { record.countChurn nodeId with
    nodeId := nodeId.or record.nodeId
    lastQueryResponseAt := some now
    consecutiveFailures := 0
    lastChangedAt := now }

def noteInboundQuery (now : ℕ) : NodeRecord :=
  { record with lastInboundQueryAt := some now, lastChangedAt := now }

def noteFailure (now : ℕ) : NodeRecord :=
  { record with consecutiveFailures := satAdd16 record.consecutiveFailures 1, lastChangedAt := now }

end NodeRecord

structure CompactPeer where
  addr : SocketAddr
deriving DecidableEq, Repr

def CompactPeer.family (peer : CompactPeer) : AddressFamily := .forAddr peer.addr

def trustRank : NodeTrust → ℕ
  | .trusted => 0
  | .neutral => 1
  | .suspicious => 2

def bep42Rank : Bep42State → ℕ
  | .compliant => 0
  | .exemptLocal => 1
  | .unknown => 2
  | .nonCompliant => 3

end Superseedr
