import Superseedr.Soundness.RoutingPlacement

/-! # Identities and replacements of the routing table

A record with the public identity of a candidate keeps it out or is dropped for it. Answers and inbound queries change
the identifier of a record in place without such a check, and a candidate is not recognised in another bucket than its
own. Replacements wait in full buckets, until a node of the bucket is dropped for a candidate or the bucket is split.
-/

namespace Superseedr

open List NodeRecord

variable {l : List NodeRecord} {op : RoutingTable.Op} {rounds start : ℕ} {isNode : Bool} {localNodeId : NodeId}
  {config : RoutingConfig}

def NodeRecord.Apart (left right : NodeRecord) : Prop :=
  left.addr ≠ right.addr ∧ samePublicIdentityGroup left.addr left.nodeId left.bep42State right.addr right.nodeId
    right.bep42State = false

theorem NodeRecord.Apart.symm {left right : NodeRecord} (apart : left.Apart right) : right.Apart left := by
  refine ⟨apart.1.symm, ?_⟩
  have group := apart.2
  unfold samePublicIdentityGroup at group ⊢
  grind

def NodeRecord.Identified (record : NodeRecord) : Prop :=
  ∃ nodeId, record.nodeId = some nodeId ∧ record.bep42State = classifyNode record.addr (some nodeId)

/-- How many nodes are dropped for the candidate. -/
def Bucket.losses (bucket : Bucket) (candidate : NodeRecord) (now : ℕ) : ℕ :=
  bucket.nodes.countP fun node =>
    publicIdentityConflicts candidate node && publicIdentityReplacementPreferred candidate node now

namespace RoutingTable

variable {nodeId : NodeId} {candidate record : NodeRecord} {addr : SocketAddr} {now i : ℕ} {t t' : RoutingTable}
  {bucket changed : Bucket} {change : NodeRecord → NodeRecord}

structure Distinguished (t : RoutingTable) : Prop where
  apart : t.records.Pairwise Apart
  identified : ∀ record ∈ t.records, record.Identified

/-- A candidate whose address is stored is stored in the bucket of its identifier, and no identifier gives a stored
address the public identity of another record. -/
def Faithful (t : RoutingTable) : Op → Prop
  | .insert candidate _ => ∀ nodeId ∈ candidate.nodeId, t.StaysHome candidate.addr nodeId
  | .recordResponse addr nodeId _ | .recordInboundQuery addr nodeId _ => (∃ record ∈ t.records, record.addr = addr) →
    ∀ known ∈ nodeId, ∀ other ∈ t.records, other.addr ≠ addr → samePublicIdentityGroup addr (some known)
      (classifyNode addr (some known)) other.addr other.nodeId other.bep42State = false
  | .recordQuerySent _ _ | .recordFailure _ _ | .setLocalNodeId _ => True

theorem Distinguished.of_subperm (sub : t.records.Subperm l) (apart : l.Pairwise Apart)
    (identified : ∀ record ∈ l, record.Identified) : t.Distinguished := by
  refine ⟨?_, fun record listed => identified record (sub.subset listed)⟩
  obtain ⟨m, same, sublist⟩ := sub
  exact (same.pairwise_iff Apart.symm).mp (apart.sublist sublist)

theorem apart_of_dropConflicting (free : t.hasBlockingConflict candidate now = false)
    (absent : ∀ record ∈ t.records, record.addr ≠ candidate.addr) :
    ∀ record ∈ (t.dropConflicting candidate now).records, candidate.Apart record := by
  intro record listed
  obtain ⟨_, member, stays⟩ := mem_flatMap.mp listed
  obtain ⟨bucket, stored, rfl⟩ := mem_map.mp member
  rw [Bucket.records, Bucket.dropConflicting, ← filter_append, mem_filter] at stays
  have differ := (absent record (mem_flatMap.mpr ⟨bucket, stored, stays.1⟩)).symm
  have open_ :
      ¬(publicIdentityConflicts candidate record && !publicIdentityReplacementPreferred candidate record now) :=
    fun blocks => Bool.false_ne_true (free.symm.trans (any_eq_true.mpr ⟨bucket, stored, any_eq_true.mpr
      ⟨record, stays.1, blocks⟩⟩))
  have unconflicted : publicIdentityConflicts candidate record = false := by
    have kept := stays.2
    revert open_ kept
    cases publicIdentityConflicts candidate record <;>
    cases publicIdentityReplacementPreferred candidate record now <;> simp
  exact ⟨differ, by simpa [publicIdentityConflicts, differ] using unconflicted⟩

section

variable (distinguished : t.Distinguished)
include distinguished

theorem Distinguished.add (identified : candidate.Identified) (free : t.hasBlockingConflict candidate now = false)
    (absent : ∀ record ∈ t.records, record.addr ≠ candidate.addr) (place : t.buckets[i]? = some bucket)
    (sub : changed.records.Subperm (candidate :: (bucket.dropConflicting candidate now).records)) :
    ((t.dropConflicting candidate now).putBucket i changed).Distinguished := by
  have fewer := records_dropConflicting_sublist t candidate now
  refine .of_subperm (subperm_putBucket (getElem?_dropConflicting candidate now place) sub) ?_ ?_
  · exact pairwise_cons.mpr ⟨apart_of_dropConflicting free absent, distinguished.apart.sublist fewer⟩
  · exact forall_mem_cons.mpr ⟨identified, fun record listed => distinguished.identified record (fewer.subset listed)⟩

theorem Distinguished.withRecord (place : t.buckets[i]? = some bucket)
    (run : bucket.withRecord addr change now = some (changed, isNode))
    (keepsAddr : ∀ record, (change record).addr = record.addr)
    (identifies : ∀ record, record.Identified → (change record).Identified)
    (identity : ∀ record ∈ t.records, record.Identified → record.addr = addr →
      ((change record).nodeId = record.nodeId ∧ (change record).bep42State = record.bep42State) ∨
      ∀ other ∈ t.records, other.addr ≠ addr → samePublicIdentityGroup addr (change record).nodeId
        (change record).bep42State other.addr other.nodeId other.bep42State = false) :
    (t.putBucket i changed).Distinguished := by
  obtain ⟨-, before, record, after, whole, rfl, edited⟩ := records_withRecord run
  obtain ⟨rest, was, becomes, -⟩ := records_put place
  have old : t.records.Perm (record :: (before ++ after ++ rest)) := by
    rw [whole] at was
    exact was.trans (perm_middle.append_right rest)
  have new : (t.putBucket i changed).records.Perm (change record :: (before ++ after ++ rest)) := by
    have whole' := becomes changed
    rw [edited] at whole'
    exact whole'.trans (perm_middle.append_right rest)
  obtain ⟨own, apart⟩ := pairwise_cons.mp ((old.pairwise_iff Apart.symm).mp distinguished.apart)
  have stored : record ∈ t.records := old.mem_iff.mpr (.head _)
  have known : record.Identified := distinguished.identified record stored
  refine .of_subperm new.subperm (pairwise_cons.mpr ⟨fun other listed => ⟨?_, ?_⟩, apart⟩) ?_
  · rw [keepsAddr]
    exact (own other listed).1
  · rw [keepsAddr]
    rcases identity record stored known rfl with ⟨sameId, sameState⟩ | checked
    · rw [sameId, sameState]
      exact (own other listed).2
    · exact checked other (old.mem_iff.mpr (.tail _ listed)) (own other listed).1.symm
  · exact forall_mem_cons.mpr ⟨identifies record known, fun other listed =>
      distinguished.identified other (old.mem_iff.mpr (.tail _ listed))⟩

theorem Distinguished.inserts (structured : t.Structured) (inserts : Inserts nodeId candidate now t t')
    (identified : candidate.Identified) (home : t.StaysHome candidate.addr nodeId) : t'.Distinguished := by
  induction inserts with
  | @update t i bucket updated outcome found place merged =>
    obtain ⟨⟨changed, isNode⟩, run, same⟩ := Option.map_eq_some_iff.mp merged
    cases same
    have keeps : ∀ record : NodeRecord, record.Identified → (mergeRecord record candidate now).nodeId = record.nodeId ∧
        (mergeRecord record candidate now).bep42State = record.bep42State := by
      rintro record ⟨id, known, state⟩
      simp [mergeRecord, known, state]
    refine distinguished.withRecord place run (fun _ => rfl) (fun record known => ?_) fun record _ known _ =>
      .inl (keeps record known)
    obtain ⟨id, isId, state⟩ := known
    obtain ⟨sameId, sameState⟩ := keeps record ⟨id, isId, state⟩
    exact ⟨id, sameId.trans isId, sameState.trans state⟩
  | refuse => exact distinguished
  | @push t i bucket found place unknown free _ =>
    exact distinguished.add identified free (home.absent structured found place unknown) place subperm_push
  | @settle t i bucket found place unknown free _ =>
    exact distinguished.add identified free (home.absent structured found place unknown) place (subperm_settle ..)
  | @split t t' i bucket left right found place unknown _ _ _ halves rest ih =>
    have dropped := getElem?_dropConflicting candidate now place
    refine ih (.of_subperm ?_ distinguished.apart distinguished.identified)
      ((structured.dropConflicting candidate now).putHalves dropped halves)
      (home.putHalves structured found place unknown halves)
    exact (subperm_putHalves halves dropped).trans (records_dropConflicting_sublist ..).subperm

theorem Distinguished.reported (now : ℕ) {reported : Option NodeId}
    (keepsAddr : ∀ record, (change record).addr = record.addr)
    (keepsId : ∀ record, (change record).nodeId = reported.or record.nodeId)
    (classifies : ∀ record, (change record).bep42State = classifyNode record.addr (reported.or record.nodeId))
    (checked : (∃ record ∈ t.records, record.addr = addr) → ∀ known ∈ reported, ∀ other ∈ t.records, other.addr ≠ addr →
    samePublicIdentityGroup addr (some known)
      (classifyNode addr (some known)) other.addr other.nodeId other.bep42State = false) :
    Distinguished { t with buckets := withRecordMut addr change now t.buckets } := by
  refine withRecordMut_rule distinguished fun i bucket changed isNode place run => distinguished.withRecord place run
    keepsAddr (fun record ⟨id, known, _⟩ => ?_) fun record stored ⟨id, known, state⟩ at' => ?_
  · rw [Identified, keepsId, keepsAddr, classifies, known]
    cases reported with
    | none => exact ⟨id, rfl, rfl⟩
    | some new => exact ⟨new, rfl, rfl⟩
  · rw [keepsId, classifies, known, at', state]
    cases reported with
    | none => exact .inl ⟨rfl, by rw [at']; rfl⟩
    | some new => exact .inr (checked ⟨record, stored, at'⟩ new rfl)

theorem Distinguished.apply (structured : t.Structured) (faithful : t.Faithful op) (run : t.apply rounds op = some t') :
    t'.Distinguished := by
  cases op with
  | insert candidate now =>
    rcases apply_insert_cases run with rfl | ⟨nodeId, known, inserts⟩
    · exact distinguished
    · exact distinguished.inserts structured inserts ⟨nodeId, known, rfl⟩ (faithful nodeId known)
  | recordQuerySent addr now | recordFailure addr now =>
    cases run
    exact withRecordMut_rule distinguished fun _ _ _ _ place run =>
      distinguished.withRecord place run (fun _ => rfl) (fun _ known => known) fun _ _ _ _ => .inl ⟨rfl, rfl⟩
  | recordResponse addr id now | recordInboundQuery addr id now =>
    cases run
    refine distinguished.reported now (fun record => record.addr_countChurn id) (fun _ => rfl)
      (fun record => ?_) faithful
    exact congrArg (classifyNode · _) (record.addr_countChurn id)
  | setLocalNodeId =>
    cases run
    exact ⟨distinguished.apart, distinguished.identified⟩

end

/-- As long as candidates are stored in the bucket of their identifier, if at all, and no reported identifier has the
public identity of another record, no two records have one public identity. -/
theorem identities_distinct (run : Steps Applies Faithful (new localNodeId config start) t) :
    (t.buckets.flatMap fun bucket => bucket.nodes ++ bucket.replacements).Pairwise fun left right =>
      samePublicIdentityGroup left.addr left.nodeId left.bep42State right.addr right.nodeId right.bep42State =
        false := by
  obtain ⟨-, distinguished⟩ := run.preserves (fun t => t.Structured ∧ t.Distinguished)
    (fun s t op faithful ⟨rounds, applied⟩ ⟨structured, distinguished⟩ =>
      ⟨(structured.apply applied).1, distinguished.apply structured faithful applied⟩)
    ⟨Structured.new localNodeId config start, .nil, nofun⟩
  exact distinguished.apart.imp fun apart => apart.2

def neighbour (port : BitVec 16) (nodeId : NodeId) : NodeRecord :=
  { addr := ⟨.v4 0x08080001, port⟩, nodeId := some nodeId, lastChangedAt := 0 }

/-- Two of them have identifiers for the address. -/
def neighbours : List Op :=
  [.insert (neighbour 1 0x5578E00000000000000000000000000000000001) 0,
    .insert (neighbour 2 0x29FBA80000000000000000000000000000000002) 0]

/-- The second of them answers with an identifier that is not for the address, and both are stored with one public
identity. -/
theorem identity_shared : ∃ t : RoutingTable, Steps Applies (fun _ _ => True) (new 0 {} 0) t ∧
    ¬(t.buckets.flatMap fun bucket => bucket.nodes ++ bucket.replacements).Pairwise fun left right =>
      samePublicIdentityGroup left.addr left.nodeId left.bep42State right.addr right.nodeId right.bep42State = false :=
  exists_applied (fun _ _ => True) (fun _ _ => true)
    (neighbours ++ [.recordResponse (neighbour 2 0).addr (some 0) 1]) {} _
    (fun _ _ _ _ => trivial) (by decide +kernel)

theorem identities_distinct_neighbours : ∃ t : RoutingTable,
    (t.buckets.flatMap fun bucket => bucket.nodes ++ bucket.replacements).length = 2 ∧
    (t.buckets.flatMap fun bucket => bucket.nodes ++ bucket.replacements).Pairwise fun left right =>
      samePublicIdentityGroup left.addr left.nodeId left.bep42State right.addr right.nodeId right.bep42State =
        false := by
  obtain ⟨t, run, two⟩ := exists_applied Faithful isSteady neighbours {}
    (fun t => (t.buckets.flatMap fun bucket => bucket.nodes ++ bucket.replacements).length = 2)
    (by simp [neighbours, neighbour, isSteady, Op.names, Faithful]) (by decide +kernel)
  exact ⟨t, two, identities_distinct run⟩

def Stocked (t : RoutingTable) : Prop :=
  ∀ bucket ∈ t.buckets, bucket.replacements ≠ [] → t.config.bucketSize ≤ bucket.nodes.length

/-- No bucket with replacements loses a node for the candidate or is split for it, except that the candidate may take
the place of a node of its own bucket. -/
def Spares (t : RoutingTable) (nodeId : NodeId) (candidate : NodeRecord) (now : ℕ) : Prop :=
  ∀ bucket ∈ t.buckets, bucket.replacements ≠ [] →
    bucket.losses candidate now = 0 ∧
        (bucket.bucketPrefix.contains nodeId = true → bucket.bucketPrefix.contains t.localNodeId = false) ∨
      bucket.losses candidate now = 1 ∧ bucket.bucketPrefix.contains nodeId = true

/-- Candidates spare the buckets with replacements. -/
def Undisturbed (t : RoutingTable) : Op → Prop
  | .insert candidate now => ∀ nodeId ∈ candidate.nodeId, t.Spares nodeId
      { candidate with bep42State := classifyNode candidate.addr (some nodeId), lastChangedAt := now } now
  | _ => True

theorem length_dropConflicting (bucket : Bucket) (candidate : NodeRecord) (now : ℕ) :
    (bucket.dropConflicting candidate now).nodes.length + bucket.losses candidate now = bucket.nodes.length := by
  rw [Bucket.losses, Bucket.dropConflicting, ← countP_eq_length_filter, Nat.add_comm, eq_comm]
  simpa using length_eq_countP_add_countP (l := bucket.nodes) fun node =>
    publicIdentityConflicts candidate node && publicIdentityReplacementPreferred candidate node now

theorem losses_dropConflicting (bucket : Bucket) (candidate : NodeRecord) (now : ℕ) :
    (bucket.dropConflicting candidate now).losses candidate now = 0 := by
  simp +contextual [Bucket.losses, Bucket.dropConflicting, countP_eq_zero, or_iff_not_imp_left]

theorem replacements_of_dropConflicting (waiting : (bucket.dropConflicting candidate now).replacements ≠ []) :
    bucket.replacements ≠ [] :=
  fun nothing => waiting (by simp [Bucket.dropConflicting, nothing])

theorem Stocked.elsewhere (stocked : t.Stocked) (spares : t.Spares nodeId candidate now) (stored : bucket ∈ t.buckets)
    (away : bucket.bucketPrefix.contains nodeId ≠ true)
    (waiting : (bucket.dropConflicting candidate now).replacements ≠ []) :
    t.config.bucketSize ≤ (bucket.dropConflicting candidate now).nodes.length := by
  have before := replacements_of_dropConflicting waiting
  have length := length_dropConflicting bucket candidate now
  have full := stocked bucket stored before
  rcases spares bucket stored before with ⟨none, -⟩ | ⟨-, here⟩
  · omega
  · exact absurd here away

theorem Stocked.putBucket (stocked : t.Stocked)
    (full : changed.replacements ≠ [] → t.config.bucketSize ≤ changed.nodes.length) :
    (t.putBucket i changed).Stocked := by
  intro bucket stored waiting
  rcases mem_or_eq_of_mem_set stored with before | rfl
  · exact stocked bucket before waiting
  · exact full waiting

theorem Stocked.withRecord (stocked : t.Stocked) (place : t.buckets[i]? = some bucket)
    (run : bucket.withRecord addr change now = some (changed, isNode)) : (t.putBucket i changed).Stocked := by
  refine stocked.putBucket fun waiting => ?_
  have before := stocked bucket (mem_of_getElem? place)
  unfold Bucket.withRecord at run
  split at run
  · cases run
    rw [length_modify]
    exact before waiting
  split at run
  · cases run
    refine before fun nothing => waiting ?_
    simp [nothing]
  · cases run

theorem Stocked.putDropped (stocked : t.Stocked) (structured : t.Structured) (spares : t.Spares nodeId candidate now)
    (found : t.bucketIndexFor nodeId = some i)
    (full : changed.replacements ≠ [] → t.config.bucketSize ≤ changed.nodes.length) :
    ((t.dropConflicting candidate now).putBucket i changed).Stocked := by
  intro other stored waiting
  obtain ⟨j, place⟩ := mem_iff_getElem?.mp stored
  rw [RoutingTable.putBucket, getElem?_set] at place
  split_ifs at place with here
  · cases place
    exact full waiting
  · rw [RoutingTable.dropConflicting, getElem?_map, Option.map_eq_some_iff] at place
    obtain ⟨bucket, place, rfl⟩ := place
    obtain ⟨_, _, found', -, -, unique⟩ := structured.bucketIndexFor nodeId
    cases found.symm.trans found'
    exact stocked.elsewhere spares (mem_of_getElem? place)
      (fun covers => here (unique j bucket place covers).symm) waiting

theorem Stocked.inserts (stocked : t.Stocked) (structured : t.Structured) (spares : t.Spares nodeId candidate now)
    (inserts : Inserts nodeId candidate now t t') : t'.Stocked := by
  induction inserts with
  | @update t i bucket updated outcome found place merged =>
    obtain ⟨⟨changed, isNode⟩, run, same⟩ := Option.map_eq_some_iff.mp merged
    cases same
    exact stocked.withRecord place run
  | refuse => exact stocked
  | @push t i bucket found place _ _ _ =>
    refine stocked.putDropped structured spares found fun waiting => ?_
    have before := replacements_of_dropConflicting waiting
    have full := stocked bucket (mem_of_getElem? place) before
    have length := length_dropConflicting bucket candidate now
    have few : bucket.losses candidate now ≤ 1 := by
      rcases spares bucket (mem_of_getElem? place) before with ⟨none, -⟩ | ⟨one, -⟩
      · omega
      · omega
    rw [Bucket.push, length_append, length_singleton]
    omega
  | settle found _ _ _ full =>
    refine stocked.putDropped structured spares found fun _ => ?_
    rw [(settle_bounds ..).2.1]
    exact full
  | @split t t' i bucket left right found place _ _ full own halves _ ih =>
    -- The bucket of the candidate has no replacements, and neither have its halves.
    have covered := contains_of_bucketIndexFor found place
    have length := length_dropConflicting bucket candidate now
    have nothing : bucket.replacements = [] := by
      by_contra waiting
      rcases spares bucket (mem_of_getElem? place) waiting with ⟨-, other⟩ | ⟨one, -⟩
      · exact absurd own (Bool.eq_false_iff.mp (other covered))
      · have room := structured.nodes bucket (mem_of_getElem? place)
        omega
    have old : ∀ other ∈ ((t.dropConflicting candidate now).putHalves i left right).buckets, other.replacements ≠ [] →
        ∃ before ∈ t.buckets, before.bucketPrefix.contains nodeId ≠ true ∧
        before.dropConflicting candidate now = other := by
      intro other stored waiting
      obtain ⟨-, _, _, ⟨-, isLeft⟩, ⟨-, isRight⟩, -⟩ := bucket_split_eq_some halves
      have none : (bucket.dropConflicting candidate now).replacements = [] := by simp [Bucket.dropConflicting, nothing]
      rw [none, filter_nil] at isLeft isRight
      rcases mem_putHalves stored with kept | rfl | rfl
      · obtain ⟨before, member, rfl⟩ := mem_map.mp kept
        refine ⟨before, member, fun covers => replacements_of_dropConflicting waiting ?_, rfl⟩
        obtain ⟨j, there⟩ := mem_iff_getElem?.mp member
        obtain ⟨_, _, found', -, -, unique⟩ := structured.bucketIndexFor nodeId
        cases found.symm.trans found'
        obtain rfl := unique j before there covers
        rw [Option.some.inj (there.symm.trans place), nothing]
      · exact absurd isLeft waiting
      · exact absurd isRight waiting
    refine ih (fun other stored waiting => ?_)
      ((structured.dropConflicting candidate now).putHalves (getElem?_dropConflicting candidate now place) halves)
      fun other stored waiting => .inl ?_
    · obtain ⟨before, member, away, rfl⟩ := old other stored waiting
      exact stocked.elsewhere spares member away waiting
    · obtain ⟨before, member, away, rfl⟩ := old other stored waiting
      exact ⟨losses_dropConflicting before candidate now, fun covers => absurd covers away⟩

theorem Stocked.apply (stocked : t.Stocked) (structured : t.Structured) (undisturbed : t.Undisturbed op)
    (run : t.apply rounds op = some t') : t'.Stocked := by
  cases op with
  | insert candidate now =>
    rcases apply_insert_cases run with rfl | ⟨nodeId, known, inserts⟩
    · exact stocked
    · exact stocked.inserts structured (undisturbed nodeId known) inserts
  | recordQuerySent | recordFailure | recordResponse | recordInboundQuery =>
    cases run
    exact withRecordMut_rule stocked fun _ _ _ _ => stocked.withRecord
  | setLocalNodeId =>
    cases run
    exact stocked

/-- As long as no bucket with replacements loses a node for a candidate or is split for it, other than by the candidate
that takes the place, replacements wait in full buckets only. -/
theorem replacements_wait_for_place (run : Steps Applies Undisturbed (new localNodeId config start) t) :
    ∀ bucket ∈ t.buckets, bucket.replacements ≠ [] → t.config.bucketSize ≤ bucket.nodes.length := by
  obtain ⟨-, stocked⟩ := run.preserves (fun t => t.Structured ∧ t.Stocked)
    (fun s t op undisturbed ⟨rounds, applied⟩ ⟨structured, stocked⟩ =>
      ⟨(structured.apply applied).1, stocked.apply structured undisturbed applied⟩)
    ⟨Structured.new localNodeId config start, by simp [Stocked, new]⟩
  exact stocked

/-- Two nodes for a bucket of one, which is not that of the local identifier. -/
def queuing : List Op := [.insert (nodeAt 1 (2 <<< 158)) 0, .insert (nodeAt 2 (3 <<< 158)) 0]

/-- The local identifier moves into the full bucket, which is split for a third node, and the replacement is left
waiting in an empty half. -/
theorem replacement_stranded : ∃ t : RoutingTable, Steps Applies (fun _ _ => True) (new 0 { bucketSize := 1 } 0) t ∧
    ∃ bucket ∈ t.buckets, bucket.nodes = [] ∧ bucket.replacements.map (·.addr) = [(nodeAt 2 0).addr] :=
  exists_applied (fun _ _ => True) (fun _ _ => true)
    (queuing ++ [.setLocalNodeId (2 <<< 158), .insert (nodeAt 3 (5 <<< 157)) 0]) { bucketSize := 1 } _
    (fun _ _ _ _ => trivial) (by decide +kernel)

theorem replacements_wait_for_place_queued : ∃ t : RoutingTable,
    t.buckets.map (fun bucket => (bucket.nodes.length, bucket.replacements.length)) = [(0, 0), (1, 1)] ∧
    ∀ bucket ∈ t.buckets, bucket.replacements ≠ [] → t.config.bucketSize ≤ bucket.nodes.length := by
  obtain ⟨t, run, reached⟩ := exists_applied Undisturbed
    (fun t _ => t.buckets.all fun bucket => bucket.replacements.isEmpty) queuing { bucketSize := 1 }
    (fun t => t.buckets.map (fun bucket => (bucket.nodes.length, bucket.replacements.length)) = [(0, 0), (1, 1)])
    (by simp +contextual [queuing, Undisturbed, Spares]) (by decide +kernel)
  exact ⟨t, reached, replacements_wait_for_place run⟩

end RoutingTable

end Superseedr
