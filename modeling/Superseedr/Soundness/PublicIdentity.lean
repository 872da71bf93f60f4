import Superseedr.Model.PublicAddress

/-! # Who can change the identity of the client

A voter is a socket address. A confirmed address was reported from three of them, whatever was pruned in between, so
that whoever answers from two confirms nothing alone. A second port on one of two IP addresses makes the third voter.
-/

namespace Superseedr

open Finset

variable {after : PublicAddressObserver}

def reporters (reports : List AddressReport) (observed : SocketAddr) : Finset SocketAddr :=
  ((reports.filter (·.observed = observed)).map (·.voter)).toFinset

variable {reports : List AddressReport} {report : AddressReport}

theorem reporters_subset (observed : SocketAddr) :
    reporters reports observed ⊆ reporters (reports ++ [report]) observed := by
  simp only [reporters, List.filter_append, List.map_append, List.toFinset_append, subset_union_left]

namespace PublicAddressObserver

variable {o : PublicAddressObserver} {order : Arrangement}

structure Witnessed (reports : List AddressReport) (o : PublicAddressObserver) : Prop where
  counted : ∀ observed voters, o.votes.lookup observed = some voters → voters ⊆ reporters reports observed
  confirmed : ∀ family, ∀ observed ∈ o.confirmedFor family, publicAddressQuorum ≤ (reporters reports observed).card

theorem Witnessed.prune (witnessed : Witnessed reports o) : Witnessed reports (o.pruneWeakestCandidate order) := by
  unfold pruneWeakestCandidate
  split
  · exact ⟨fun observed voters found => witnessed.counted observed voters (AList.lookup_of_erase found),
      witnessed.confirmed⟩
  · exact witnessed

theorem Witnessed.later (witnessed : Witnessed reports o) (report : AddressReport) :
    Witnessed (reports ++ [report]) o where
  counted observed voters found := (witnessed.counted observed voters found).trans (reporters_subset ..)
  confirmed family observed isConfirmed :=
    (witnessed.confirmed family observed isConfirmed).trans (card_le_card (reporters_subset ..))

theorem Witnessed.record {confirmed : Option SocketAddr} (witnessed : Witnessed reports o)
    (records : o.recordObservation order report.voter report.observed = (after, confirmed)) :
    Witnessed (reports ++ [report]) after ∧ ∃ family, confirmed = after.confirmedFor family := by
  unfold recordObservation at records
  extract_lets family full room voters counted final at records
  have roomy : Witnessed (reports ++ [report]) room := by
    dsimp only [room]
    split_ifs
    exacts [(witnessed.later report).prune, witnessed.later report]
  have reported : voters ⊆ reporters (reports ++ [report]) report.observed := by
    refine insert_subset (by simp [reporters]) ?_
    cases found : room.votes.lookup report.observed with
    | none => exact empty_subset _
    | some known => exact roomy.counted _ known found
  have recorded : Witnessed (reports ++ [report]) counted :=
    ⟨AList.forall_insert roomy.counted reported, roomy.confirmed⟩
  split_ifs at records <;> obtain ⟨rfl, rfl⟩ := Prod.mk.inj records
  · exact ⟨witnessed.later report, family, rfl⟩
  refine ⟨?_, family, rfl⟩
  dsimp only [final]
  split_ifs with few
  · exact recorded
  have vouched := (not_lt.mp few).trans (card_le_card reported)
  cases family <;> refine ⟨recorded.counted, fun other observed isConfirmed => ?_⟩ <;> cases other
  · exact Option.some.inj isConfirmed ▸ vouched
  · exact recorded.confirmed .ipv6 observed isConfirmed
  · exact recorded.confirmed .ipv4 observed isConfirmed
  · exact Option.some.inj isConfirmed ▸ vouched

end PublicAddressObserver

namespace PublicIdentity

variable {c start : PublicIdentity}

/-- An identifier that was drawn for an address of version 4. -/
def DrawnFor (nodeId : NodeId) (observed : SocketAddr) : Prop :=
  ∃ ip entropy, observed.ip = .v4 ip ∧ secureNodeIdForIpv4 ip entropy = some nodeId

theorem applyConfirmedPublicIdentity_spec (c : PublicIdentity) (entropy : NodeId) (confirmed : Option SocketAddr) :
    let after := c.applyConfirmedPublicIdentity entropy confirmed
    after.publicAddresses = c.publicAddresses ∧
      (after.localNodeId = c.localNodeId ∨ ∃ observed ∈ confirmed, DrawnFor after.localNodeId observed) := by
  unfold applyConfirmedPublicIdentity
  repeat' split
  all_goals try exact ⟨rfl, .inl rfl⟩
  rename_i ip _ _ _ _ drawn _
  exact ⟨rfl, .inr ⟨_, rfl, ip, entropy, rfl, drawn⟩⟩

structure Settled (reports : List AddressReport) (start c : PublicIdentity) : Prop where
  witnessed : c.publicAddresses.Witnessed reports
  identity : c.localNodeId = start.localNodeId ∨
    ∃ observed, publicAddressQuorum ≤ (reporters reports observed).card ∧ DrawnFor c.localNodeId observed

theorem Settled.handleReport (settled : Settled reports start c) (report : AddressReport) :
    Settled (reports ++ [report]) start (c.handleReport report) := by
  unfold PublicIdentity.handleReport
  cases records : c.publicAddresses.recordObservation report.order report.voter report.observed with
  | mk publicAddresses _
  obtain ⟨witnessed, family, rfl⟩ := settled.witnessed.record records
  obtain ⟨kept, identity⟩ := applyConfirmedPublicIdentity_spec { c with publicAddresses } report.entropy _
  refine ⟨kept ▸ witnessed, ?_⟩
  rcases identity with stays | ⟨observed, isConfirmed, drawn⟩
  · rcases settled.identity with before | ⟨observed, vouched, drawn⟩
    · exact .inl (stays.trans before)
    · exact .inr ⟨observed, vouched.trans (card_le_card (reporters_subset ..)), by rw [stays]; exact drawn⟩
  · exact .inr ⟨observed, witnessed.confirmed family observed isConfirmed, drawn⟩

theorem settled_foldl (new : start.publicAddresses = {}) (reports : List AddressReport) :
    Settled reports start (reports.foldl handleReport start) := by
  induction reports using List.reverseRecOn with
  | nil => exact ⟨new ▸ ⟨nofun, fun family => by cases family <;> nofun⟩, .inl rfl⟩
  | append_singleton reports report ih =>
    rw [List.foldl_concat]
    exact ih.handleReport report

/-- Two socket addresses confirm no address alone, and make the client take no identifier. -/
theorem identity_needs_others (new : start.publicAddresses = {}) (reports : List AddressReport)
    {attacker : Finset SocketAddr} (few : attacker.card ≤ 2) : let c := reports.foldl handleReport start
    (∀ family, ∀ observed ∈ c.publicAddresses.confirmedFor family, ¬ reporters reports observed ⊆ attacker) ∧
      (c.localNodeId = start.localNodeId ∨
        ∃ observed, DrawnFor c.localNodeId observed ∧ ¬ reporters reports observed ⊆ attacker) := by
  have others : ∀ observed, publicAddressQuorum ≤ (reporters reports observed).card →
      ¬ reporters reports observed ⊆ attacker := fun observed enough within =>
    absurd (enough.trans ((card_le_card within).trans few)) (by decide)
  have settled := settled_foldl new reports
  refine ⟨fun family observed isConfirmed =>
    others observed (settled.witnessed.confirmed family observed isConfirmed), ?_⟩
  exact settled.identity.imp_right fun ⟨observed, enough, drawn⟩ => ⟨observed, drawn, others observed enough⟩

/-- A client without an identifier for its address. -/
def client : PublicIdentity := ⟨true, 0, .new 0 {} 0, .new 0 {} 0, {}⟩

/-- A report about the port 6881 of an address of version 4. -/
def reportFrom (ip : BitVec 32) (port : BitVec 16) (observed : BitVec 32) : AddressReport :=
  ⟨⟨.v4 ip, port⟩, ⟨.v4 observed, 6881⟩, 0, .stored⟩

/-- Two nodes and a third one report the same address. -/
theorem identity_needs_others_third : let reports :=
      [reportFrom 0x09090901 1 0x08080808, reportFrom 0x09090902 1 0x08080808, reportFrom 0x01020304 1 0x08080808]
    ⟨.v4 0x08080808, 6881⟩ ∈ (reports.foldl handleReport client).publicAddresses.confirmedFor .ipv4 ∧
      ¬ reporters reports ⟨.v4 0x08080808, 6881⟩ ⊆ {⟨.v4 0x09090901, 1⟩, ⟨.v4 0x09090902, 1⟩} :=
  ⟨by decide +kernel, (@identity_needs_others client rfl _ _ (by decide)).1 .ipv4 _ (by decide +kernel)⟩

/-- Two IP addresses make the client change its identifier, one of them with a second port. -/
theorem second_port_confirms : let attacker : Finset IpAddr := {.v4 0x09090901, .v4 0x09090902}
    let reports := [reportFrom 0x01020304 1 0x05060708, reportFrom 0x09090901 1 0x08080808,
      reportFrom 0x09090901 2 0x08080808, reportFrom 0x09090902 1 0x08080808]
    let c := reports.foldl handleReport client
    (∀ report ∈ reports, report.voter.ip ∈ attacker ∨ report.observed = ⟨.v4 0x05060708, 6881⟩) ∧
      c.publicAddresses.confirmedFor .ipv4 = some ⟨.v4 0x08080808, 6881⟩ ∧
      (∀ voter ∈ reporters reports ⟨.v4 0x08080808, 6881⟩, voter.ip ∈ attacker) ∧
      c.localNodeId ≠ client.localNodeId := by
  decide +kernel

end PublicIdentity

end Superseedr
