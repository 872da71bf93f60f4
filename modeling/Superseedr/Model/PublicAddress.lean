import Mathlib.Data.Finset.Card
import Mathlib.Data.List.MinMax
import Superseedr.Model.RoutingTable
import Superseedr.ToMathlib.Arrangement

/-! # The public address of the client

A node that answers a lookup may tell the address it sees the client at. An address that enough nodes reported is
confirmed, and the client takes an identifier that belongs to it. The order in which the candidates are walked and the
bytes that are drawn come with the report.
-/

namespace Superseedr

def publicAddressQuorum : ℕ := 3

def maxPublicAddressCandidates : ℕ := 64

structure PublicAddressObserver where
  votes : AList fun _ : SocketAddr => Finset SocketAddr := ∅
  confirmedIpv4 : Option SocketAddr := none
  confirmedIpv6 : Option SocketAddr := none

namespace PublicAddressObserver

def confirmedFor (o : PublicAddressObserver) : AddressFamily → Option SocketAddr
  | .ipv4 => o.confirmedIpv4
  | .ipv6 => o.confirmedIpv6

def pruneWeakestCandidate (order : Arrangement) (o : PublicAddressObserver) : PublicAddressObserver :=
  match (order.arrange 0 o.votes.entries).argmin fun entry => entry.2.card with
  | some candidate => { o with votes := o.votes.erase candidate.1 }
  | none => o

def recordObservation (order : Arrangement) (o : PublicAddressObserver) (voter observed : SocketAddr) :
    PublicAddressObserver × Option SocketAddr :=
  let family := AddressFamily.forAddr observed
  if .forAddr voter ≠ family || !isRoutableDhtAddr voter || !isRoutableDhtAddr observed then (o, o.confirmedFor family)
  else
    let full := observed ∉ o.votes ∧ maxPublicAddressCandidates ≤ o.votes.keys.length
    let o := if full then o.pruneWeakestCandidate order else o
    let voters := insert voter ((o.votes.lookup observed).getD ∅)
    let o := { o with votes := o.votes.insert observed voters }
    let o := if voters.card < publicAddressQuorum then o
      else match family with
        | .ipv4 => { o with confirmedIpv4 := some observed }
        | .ipv6 => { o with confirmedIpv6 := some observed }
    (o, o.confirmedFor family)

end PublicAddressObserver

/-- The drawn bytes, but for the first 21 bits. -/
def secureNodeIdForIpv4 (ip : BitVec 32) (entropy : NodeId) : Option NodeId :=
  if ipv4IsExempt ip then none else some (idPrefixIpv4 ip (entropy.extractLsb' 0 8) ++ entropy.extractLsb' 0 139)

/-- The response to a lookup that tells an observed address. -/
structure AddressReport where
  voter : SocketAddr
  observed : SocketAddr
  entropy : NodeId
  order : Arrangement

/-- What the runtime keeps of its own identity. -/
structure PublicIdentity where
  allowPublicIpv4Identity : Bool
  localNodeId : NodeId
  ipv4Routing : RoutingTable
  ipv6Routing : RoutingTable
  publicAddresses : PublicAddressObserver := {}

namespace PublicIdentity

def applyConfirmedPublicIdentity (c : PublicIdentity) (entropy : NodeId) : Option SocketAddr → PublicIdentity
  | some ⟨.v4 ip, port⟩ =>
    if !c.allowPublicIpv4Identity || classifyNode ⟨.v4 ip, port⟩ (some c.localNodeId) = .compliant then c
    else match secureNodeIdForIpv4 ip entropy with
      | some newNodeId => if newNodeId = c.localNodeId then c else
        { c with
          localNodeId := newNodeId
          ipv4Routing := { c.ipv4Routing with localNodeId := newNodeId }
          ipv6Routing := { c.ipv6Routing with localNodeId := newNodeId } }
      | none => c
  | _ => c

/-- What `handle_lookup_result` does with the observed address. -/
def handleReport (c : PublicIdentity) (report : AddressReport) : PublicIdentity :=
  let (publicAddresses, confirmed) := c.publicAddresses.recordObservation report.order report.voter report.observed
  { c with publicAddresses }.applyConfirmedPublicIdentity report.entropy confirmed

end PublicIdentity

end Superseedr
