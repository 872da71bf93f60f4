import Mathlib.Data.List.Perm.Subperm
import Superseedr.Soundness.RoutingPartition

/-! # Where the records of the routing table are

A record belongs into the bucket of its identifier, and an address into one record. A candidate is looked up in the
bucket of its identifier only, and a node that answers with another identifier gets it in place, so both hold as long as
no address that is stored is given an identifier of another bucket.
-/

namespace Superseedr

open List Option Bucket

variable {isNode : Bool} {op : RoutingTable.Op} {rounds : ℕ}

def Bucket.records (bucket : Bucket) : List NodeRecord := bucket.nodes ++ bucket.replacements

theorem NodeRecord.addr_countChurn (record : NodeRecord) (id : Option NodeId) :
    (record.countChurn id).addr = record.addr := by
  unfold countChurn
  split
  · split_ifs <;> rfl
  · rfl

namespace RoutingTable

def records (t : RoutingTable) : List NodeRecord := t.buckets.flatMap Bucket.records

structure Placed (t : RoutingTable) : Prop where
  home : ∀ bucket ∈ t.buckets, ∀ record ∈ bucket.records, ∀ nodeId ∈ record.nodeId,
    bucket.bucketPrefix.contains nodeId = true
  distinct : (t.records.map (·.addr)).Nodup

/-- The address an operation gives an identifier to. -/
def Op.names : Op → Option (SocketAddr × NodeId)
  | .insert candidate _ => candidate.nodeId.map fun nodeId => (candidate.addr, nodeId)
  | .recordResponse addr nodeId _ | .recordInboundQuery addr nodeId _ => nodeId.map fun nodeId => (addr, nodeId)
  | .recordQuerySent _ _ | .recordFailure _ _ | .setLocalNodeId _ => none

/-- An address that is stored belongs into the bucket that stores it. -/
def StaysHome (t : RoutingTable) (addr : SocketAddr) (nodeId : NodeId) : Prop :=
  ∀ bucket ∈ t.buckets, ∀ record ∈ bucket.records, record.addr = addr → bucket.bucketPrefix.contains nodeId = true

instance (t : RoutingTable) (addr : SocketAddr) (nodeId : NodeId) : Decidable (t.StaysHome addr nodeId) :=
  inferInstanceAs (Decidable (∀ bucket ∈ t.buckets, ∀ record ∈ bucket.records, record.addr = addr →
    bucket.bucketPrefix.contains nodeId = true))

/-- No address that is stored is given an identifier of another bucket. -/
def Steady (t : RoutingTable) (op : Op) : Prop :=
  ∀ addr nodeId, op.names = some (addr, nodeId) → t.StaysHome addr nodeId

variable {nodeId : NodeId} {candidate : NodeRecord} {addr : SocketAddr} {now i : ℕ} {t t' : RoutingTable}
  {bucket changed left right : Bucket} {change : NodeRecord → NodeRecord}

theorem Placed.new (localNodeId : NodeId) (config : RoutingConfig) (now : ℕ) : (new localNodeId config now).Placed where
  home := forall_mem_singleton.mpr nofun
  distinct := nodup_nil

theorem nodup_of_subperm {l l' : List NodeRecord} (sub : l.Subperm l') (distinct : (l'.map (·.addr)).Nodup) :
    (l.map (·.addr)).Nodup := by
  obtain ⟨m, same, sublist⟩ := sub
  exact (same.map _).nodup_iff.mp (distinct.sublist (sublist.map _))

theorem records_put (place : t.buckets[i]? = some bucket) :
    ∃ rest, t.records.Perm (bucket.records ++ rest) ∧
      (∀ changed, (t.putBucket i changed).records.Perm (changed.records ++ rest)) ∧
      ∀ left right, (t.putHalves i left right).records.Perm (left.records ++ right.records ++ rest) := by
  have inside := (List.getElem?_eq_some_iff.mp place).1
  refine ⟨(t.buckets.take i).flatMap Bucket.records ++ (t.buckets.drop (i + 1)).flatMap Bucket.records, ?_, ?_, ?_⟩
  · have whole : t.records = (t.buckets.take i).flatMap Bucket.records ++
        (bucket.records ++ (t.buckets.drop (i + 1)).flatMap Bucket.records) := by
      rw [records, ← flatMap_cons, ← flatMap_append, ← take_cons_drop place]
    rw [whole]
    exact perm_append_comm_assoc ..
  · intro changed
    rw [records, putBucket, set_eq_take_append_cons_drop, if_pos inside, flatMap_append, flatMap_cons]
    exact perm_append_comm_assoc ..
  · intro left right
    rw [records, putHalves, flatMap_append, flatMap_cons, flatMap_cons, ← append_assoc left.records]
    exact perm_append_comm_assoc ..

theorem subperm_putBucket (place : t.buckets[i]? = some bucket)
    (sub : changed.records.Subperm (candidate :: bucket.records)) :
    (t.putBucket i changed).records.Subperm (candidate :: t.records) := by
  obtain ⟨rest, before, after, -⟩ := records_put place
  exact ((after changed).subperm.trans ((subperm_append_right rest).mpr sub)).trans (before.symm.cons candidate).subperm

theorem exists_records_dropConflicting (candidate : NodeRecord) (now : ℕ) :
    ∃ stays : NodeRecord → Bool, ∀ bucket : Bucket,
      (bucket.dropConflicting candidate now).records = bucket.records.filter stays :=
  ⟨_, fun _ => (filter_append ..).symm⟩

theorem records_dropConflicting_sublist (t : RoutingTable) (candidate : NodeRecord) (now : ℕ) :
    (t.dropConflicting candidate now).records.Sublist t.records := by
  obtain ⟨stays, each⟩ := exists_records_dropConflicting candidate now
  have same : (t.dropConflicting candidate now).records = t.records.filter stays := by
    simp only [records, dropConflicting, flatMap_map, each, filter_flatMap]
  rw [same]
  exact filter_sublist

theorem Placed.dropConflicting (placed : t.Placed) (candidate : NodeRecord) (now : ℕ) :
    (t.dropConflicting candidate now).Placed := by
  refine ⟨fun other member record listed => ?_, ?_⟩
  · obtain ⟨bucket, stored, rfl⟩ := mem_map.mp member
    obtain ⟨stays, each⟩ := exists_records_dropConflicting candidate now
    rw [each] at listed
    exact placed.home bucket stored record (mem_of_mem_filter listed)
  · exact placed.distinct.sublist ((records_dropConflicting_sublist t candidate now).map _)

theorem Placed.add (placed : t.Placed) (known : candidate.nodeId = some nodeId)
    (found : t.bucketIndexFor nodeId = some i) (place : t.buckets[i]? = some bucket)
    (absent : ∀ record ∈ t.records, record.addr ≠ candidate.addr)
    (samePrefix : changed.bucketPrefix = bucket.bucketPrefix)
    (sub : changed.records.Subperm (candidate :: (bucket.dropConflicting candidate now).records)) :
    ((t.dropConflicting candidate now).putBucket i changed).Placed := by
  have dropped := placed.dropConflicting candidate now
  have left := getElem?_dropConflicting candidate now place
  refine ⟨fun other member record listed id named => ?_, ?_⟩
  · rcases mem_or_eq_of_mem_set member with old | rfl
    · exact dropped.home other old record listed id named
    · rw [samePrefix]
      rcases mem_cons.mp (sub.subset listed) with rfl | stored
      · obtain rfl := mem_unique known named
        exact contains_of_bucketIndexFor found place
      · exact dropped.home _ (mem_of_getElem? left) record stored id named
  · refine nodup_of_subperm (subperm_putBucket left sub) (nodup_cons.mpr ⟨fun listed => ?_, dropped.distinct⟩)
    obtain ⟨record, stored, same⟩ := mem_map.mp listed
    exact absent record ((records_dropConflicting_sublist ..).subset stored) same

section

variable (halves : bucket.split now = some (left, right))
include halves

theorem records_halves :
    left.records = bucket.records.filter (fun record => record.nodeId.any left.bucketPrefix.contains) ∧
      right.records = bucket.records.filter
        (fun record => record.nodeId.any fun nodeId => !left.bucketPrefix.contains nodeId) := by
  obtain ⟨-, goesLeft, goesRight, ⟨leftNodes, leftReplacements⟩, ⟨rightNodes, rightReplacements⟩, isLeft, isRight⟩ :=
    bucket_split_eq_some halves
  rw [← funext isLeft, ← funext isRight]
  simp only [Bucket.records, leftNodes, leftReplacements, rightNodes, rightReplacements, filter_append, and_self]

theorem subperm_halves : (left.records ++ right.records).Subperm bucket.records := by
  obtain ⟨isLeft, isRight⟩ := records_halves halves
  rw [isLeft, isRight]
  refine Subperm.trans ?_ (filter_append_perm (fun record : NodeRecord =>
    record.nodeId.any left.bucketPrefix.contains) bucket.records).subperm
  refine (subperm_append_left _).mpr (Sublist.subperm (monotone_filter_right _ fun record goes => ?_))
  obtain ⟨nodeId, known, outside⟩ := (any_eq_true _ _).mp goes
  simpa [known] using outside

theorem subperm_putHalves (place : t.buckets[i]? = some bucket) :
    (t.putHalves i left right).records.Subperm t.records := by
  obtain ⟨rest, before, -, after⟩ := records_put place
  exact ((after left right).subperm.trans ((subperm_append_right rest).mpr (subperm_halves halves))).trans
    before.symm.subperm

theorem Placed.putHalves (placed : t.Placed) (place : t.buckets[i]? = some bucket) :
    (t.putHalves i left right).Placed := by
  obtain ⟨isLeft, isRight⟩ := records_halves halves
  obtain ⟨-, -, leftCovers, rightCovers⟩ := BucketPrefix.split_eq_some (bucket_split_eq_some halves).1
  refine ⟨fun other member record listed id known => ?_, ?_⟩
  · rcases mem_putHalves member with old | rfl | rfl
    · exact placed.home other old record listed id known
    · rw [isLeft, mem_filter, known, any_some] at listed
      exact listed.2
    · rw [isRight, mem_filter, known, any_some, Bool.not_eq_true'] at listed
      have covered := placed.home bucket (mem_of_getElem? place) record listed.1 id known
      have outside := listed.2
      rw [leftCovers, covered, Bool.true_and, Bool.not_eq_false'] at outside
      rw [rightCovers, covered, outside]
      rfl
  · exact nodup_of_subperm (subperm_putHalves halves place) placed.distinct

end

theorem records_withRecord (run : bucket.withRecord addr change now = some (changed, isNode)) :
    changed.bucketPrefix = bucket.bucketPrefix ∧ ∃ before record after, bucket.records = before ++ record :: after ∧
      record.addr = addr ∧ changed.records = before ++ change record :: after := by
  have single : ∀ {l : List NodeRecord} {j : ℕ}, l.findIdx? (·.addr = addr) = some j →
      ∃ before record after, l = before ++ record :: after ∧ record.addr = addr ∧
        l.modify j change = before ++ change record :: after := by
    intro l j found
    obtain ⟨inside, same, -⟩ := findIdx?_eq_some_iff_getElem.mp found
    refine ⟨l.take j, l[j], l.drop (j + 1), ?_, of_decide_eq_true same, ?_⟩
    · rw [← drop_eq_getElem_cons inside, take_append_drop]
    · rw [modify_eq_take_cons_drop inside]
  unfold withRecord at run
  split at run
  · rename_i j found
    obtain ⟨before, record, after, whole, same, edited⟩ := single found
    cases run
    refine ⟨rfl, before, record, after ++ bucket.replacements, ?_, same, ?_⟩
    · rw [Bucket.records, whole, append_assoc, cons_append]
    · rw [Bucket.records, edited, append_assoc, cons_append]
  split at run
  · rename_i j found
    obtain ⟨before, record, after, whole, same, edited⟩ := single found
    cases run
    refine ⟨rfl, bucket.nodes ++ before, record, after, ?_, same, ?_⟩
    · rw [Bucket.records, whole, append_assoc]
    · rw [Bucket.records, edited, append_assoc]
  · cases run

theorem withRecord_eq_none (run : bucket.withRecord addr change now = none) :
    ∀ record ∈ bucket.records, record.addr ≠ addr := by
  unfold withRecord at run
  split at run
  · cases run
  split at run
  · cases run
  rename_i _ absentNode _ absentReplacement
  intro record listed
  rcases mem_append.mp listed with stored | stored
  · exact of_decide_eq_false (findIdx?_eq_none_iff.mp absentNode record stored)
  · exact of_decide_eq_false (findIdx?_eq_none_iff.mp absentReplacement record stored)

theorem Placed.withRecord (placed : t.Placed) (place : t.buckets[i]? = some bucket)
    (run : bucket.withRecord addr change now = some (changed, isNode))
    (keepsAddr : ∀ record, (change record).addr = record.addr)
    (home : ∀ record ∈ bucket.records, record.addr = addr → ∀ nodeId ∈ (change record).nodeId,
      bucket.bucketPrefix.contains nodeId = true) : (t.putBucket i changed).Placed := by
  obtain ⟨samePrefix, before, record, after, whole, same, edited⟩ := records_withRecord run
  obtain ⟨rest, was, becomes, -⟩ := records_put place
  have addrs : changed.records.map (·.addr) = bucket.records.map (·.addr) := by
    rw [whole, edited, map_append, map_append, map_cons, map_cons, keepsAddr]
  have stored : record ∈ bucket.records := whole ▸ mem_append_right _ (.head _)
  refine ⟨fun other member entry listed id known => ?_, ?_⟩
  · rcases mem_or_eq_of_mem_set member with old | rfl
    · exact placed.home other old entry listed id known
    · rw [samePrefix]
      rw [edited, mem_append, mem_cons] at listed
      have kept := placed.home bucket (mem_of_getElem? place)
      rcases listed with early | rfl | late
      · exact kept entry (whole ▸ mem_append_left _ early) id known
      · exact home record stored same id known
      · exact kept entry (whole ▸ mem_append_right _ (.tail _ late)) id known
  · have perm : ((t.putBucket i changed).records.map (·.addr)).Perm (t.records.map (·.addr)) := by
      refine ((becomes changed).map _).trans (Perm.trans ?_ (was.map _).symm)
      rw [map_append, map_append, addrs]
    exact perm.nodup_iff.mpr placed.distinct

section

variable (home : t.StaysHome candidate.addr nodeId) (structured : t.Structured)
  (found : t.bucketIndexFor nodeId = some i) (place : t.buckets[i]? = some bucket)
  (unknown : bucket.updateExisting candidate now = none)
include home structured found place unknown

/-- An address that the bucket of its identifier does not store is not stored at all. -/
theorem StaysHome.absent : ∀ record ∈ t.records, record.addr ≠ candidate.addr := by
  intro record listed same
  obtain ⟨other, member, stored⟩ := mem_flatMap.mp listed
  obtain ⟨j, atPlace⟩ := mem_iff_getElem?.mp member
  obtain ⟨k, _, foundAgain, -, -, unique⟩ := structured.bucketIndexFor nodeId
  obtain rfl := mem_unique found foundAgain
  obtain rfl := unique j other atPlace (home other member record stored same)
  obtain rfl := mem_unique place atPlace
  exact withRecord_eq_none (map_eq_none_iff.mp unknown) record stored same

theorem StaysHome.putHalves (halves : (bucket.dropConflicting candidate now).split now = some (left, right)) :
    ((t.dropConflicting candidate now).putHalves i left right).StaysHome candidate.addr nodeId := by
  intro other member record stored same
  have listed := (subperm_putHalves halves (getElem?_dropConflicting candidate now place)).subset
    (mem_flatMap.mpr ⟨other, member, stored⟩)
  exact absurd same
    (home.absent structured found place unknown record ((records_dropConflicting_sublist ..).subset listed))

end

theorem subperm_push : (bucket.push candidate now).records.Subperm (candidate :: bucket.records) := by
  have same : (bucket.push candidate now).records = bucket.nodes ++ candidate :: bucket.replacements := by
    rw [Bucket.records, Bucket.push, append_assoc, singleton_append]
  rw [same]
  exact perm_middle.subperm

theorem subperm_settle (limit : ℕ) :
    (bucket.settle limit candidate now).1.records.Subperm (candidate :: bucket.records) := by
  unfold settle
  split
  · rename_i bad found
    obtain ⟨inside, -⟩ := findIdx?_eq_some_iff_getElem.mp found
    have nodes : (bucket.nodes.set bad candidate).Subperm (candidate :: bucket.nodes) := by
      rw [set_eq_take_append_cons_drop, if_pos inside]
      refine perm_middle.subperm.trans ((subperm_cons candidate).mpr ?_)
      rw [← eraseIdx_eq_take_drop_succ]
      exact (eraseIdx_sublist _ _).subperm
    exact (subperm_append_right bucket.replacements).mpr nodes
  have kept : (bucket.replacements.filter (·.addr ≠ candidate.addr) ++ [candidate]).Subperm
      (candidate :: bucket.replacements) :=
    (perm_append_singleton ..).subperm.trans ((subperm_cons candidate).mpr filter_sublist.subperm)
  have replacements : (bucket.queueReplacement limit candidate now).replacements.Subperm
      (candidate :: bucket.replacements) :=
    ((take_sublist ..).subperm.trans (perm_insertionSort ..).subperm).trans kept
  exact ((subperm_append_left bucket.nodes).mpr replacements).trans perm_middle.subperm

theorem Placed.inserts (placed : t.Placed) (structured : t.Structured) (inserts : Inserts nodeId candidate now t t')
    (known : candidate.nodeId = some nodeId) (home : t.StaysHome candidate.addr nodeId) : t'.Placed := by
  induction inserts with
  | @update t i bucket updated outcome found place merged =>
    obtain ⟨⟨changed, isNode⟩, run, same⟩ := map_eq_some_iff.mp merged
    cases same
    refine placed.withRecord place run (fun _ => rfl) fun record stored _ id merges => ?_
    -- The record keeps its identifier, or gets that of the candidate if it has none.
    rcases or_eq_some_iff.mp (show record.nodeId.or candidate.nodeId = some id from merges) with own | ⟨-, new⟩
    · exact placed.home bucket (mem_of_getElem? place) record stored id own
    · obtain rfl := mem_unique known new
      exact contains_of_bucketIndexFor found place
  | refuse => exact placed
  | @push t i bucket found place unknown _ _ =>
    exact placed.add known found place (home.absent structured found place unknown) rfl subperm_push
  | @settle t i bucket found place unknown _ _ =>
    refine placed.add known found place (home.absent structured found place unknown) ?_ (subperm_settle ..)
    exact (settle_bounds ..).1
  | @split t t' i bucket left right found place unknown _ _ _ halves rest ih =>
    have dropped := getElem?_dropConflicting candidate now place
    exact ih ((placed.dropConflicting candidate now).putHalves halves dropped)
      ((structured.dropConflicting candidate now).putHalves dropped halves)
      (home.putHalves structured found place unknown halves)

/-- Every steady operation keeps the records in place. -/
theorem Placed.apply (placed : t.Placed) (structured : t.Structured) (steady : t.Steady op)
    (run : t.apply rounds op = some t') : t'.Placed := by
  cases op with
  | insert candidate now =>
    rcases apply_insert_cases run with rfl | ⟨nodeId, known, inserts⟩
    · exact placed
    have home : t.StaysHome candidate.addr nodeId := by
      refine steady candidate.addr nodeId ?_
      rw [Op.names, known, map_some]
    exact placed.inserts structured inserts known home
  | recordQuerySent | recordFailure =>
    cases run
    refine withRecordMut_rule placed fun i bucket _ _ place run => placed.withRecord place run (fun _ => rfl) ?_
    exact fun record stored _ => placed.home bucket (mem_of_getElem? place) record stored
  | recordResponse addr id now | recordInboundQuery addr id now =>
    cases run
    refine withRecordMut_rule placed fun i bucket _ _ place run =>
      placed.withRecord place run (fun record => record.addr_countChurn id) ?_
    intro record stored same nodeId chosen
    rcases or_eq_some_iff.mp (show id.or record.nodeId = some nodeId from chosen) with new | ⟨-, own⟩
    · refine steady addr nodeId ?_ bucket (mem_of_getElem? place) record stored same
      rw [Op.names, new, map_some]
    · exact placed.home bucket (mem_of_getElem? place) record stored nodeId own
  | setLocalNodeId =>
    cases run
    exact ⟨placed.home, placed.distinct⟩

/-- As long as no address that is stored is given an identifier of another bucket, every record with a known identifier
is in the bucket of that identifier, and no address occurs in two records. -/
theorem records_placed {localNodeId : NodeId} {config : RoutingConfig} {start : ℕ}
    (run : Steps Applies Steady (new localNodeId config start) t) :
    (∀ bucket ∈ t.buckets, ∀ record ∈ bucket.nodes ++ bucket.replacements, ∀ nodeId, record.nodeId = some nodeId →
      bucket.bucketPrefix.contains nodeId = true) ∧
    ((t.buckets.flatMap fun bucket => bucket.nodes ++ bucket.replacements).map (·.addr)).Nodup := by
  obtain ⟨structured, placed⟩ := run.preserves (fun t => t.Structured ∧ t.Placed)
    (fun s t op steady ⟨rounds, applied⟩ ⟨structured, placed⟩ =>
      ⟨(structured.apply applied).1, placed.apply structured steady applied⟩)
    ⟨Structured.new localNodeId config start, Placed.new localNodeId config start⟩
  exact ⟨placed.home, placed.distinct⟩

def splitting : List Op := [.insert (nodeAt 1 (1 <<< 159)) 0, .insert (nodeAt 2 0) 0]

def churning : List Op :=
  splitting ++ [.recordFailure (nodeAt 1 0).addr 1, .recordFailure (nodeAt 1 0).addr 2,
    .recordResponse (nodeAt 2 0).addr (some (1 <<< 159)) 3, .insert (nodeAt 2 (1 <<< 159)) 4]

/-- A node that answers with another identifier stays where it was, and is inserted a second time. -/
theorem churned_node_twice : ∃ t : RoutingTable,
    Steps Applies (fun _ _ => True) (new 0 { bucketSize := 1 } 0) t ∧
    (∃ bucket ∈ t.buckets, ∃ record ∈ bucket.nodes, ∃ nodeId, record.nodeId = some nodeId ∧
      bucket.bucketPrefix.contains nodeId = false) ∧
    ¬((t.buckets.flatMap fun bucket => bucket.nodes ++ bucket.replacements).map (·.addr)).Nodup := by
  obtain ⟨t, run, reached⟩ := exists_applied (fun _ _ => True) (fun _ _ => true) churning { bucketSize := 1 }
    (fun t => (t.buckets.any fun bucket => bucket.nodes.any fun record => record.nodeId.any fun nodeId =>
        !bucket.bucketPrefix.contains nodeId) = true ∧
      ¬((t.buckets.flatMap fun bucket => bucket.nodes ++ bucket.replacements).map (·.addr)).Nodup)
    (fun _ _ _ _ => trivial) (by decide +kernel)
  refine ⟨t, run, ?_, reached.2⟩
  obtain ⟨bucket, member, stored⟩ := any_eq_true.mp reached.1
  obtain ⟨record, listed, misplaced⟩ := any_eq_true.mp stored
  obtain ⟨nodeId, known, outside⟩ := (any_eq_true _ _).mp misplaced
  exact ⟨bucket, member, record, listed, nodeId, known, by simpa using outside⟩

def nearbyChurn : List Op := splitting ++ [.recordResponse (nodeAt 2 0).addr (some 1) 3, .insert (nodeAt 2 1) 4]

/-- The identifiers bucket by bucket. -/
def nodeIds (t : RoutingTable) : List (List (Option NodeId)) :=
  t.buckets.map fun bucket => bucket.nodes.map (·.nodeId)

/-- Whether an operation leaves its address in the bucket that stores it. -/
def isSteady (t : RoutingTable) (op : Op) : Bool := op.names.all fun named => decide (t.StaysHome named.1 named.2)

theorem records_placed_renamed : ∃ t : RoutingTable, t.nodeIds = [[some 1#160], [some (1#160 <<< 159)]] ∧
    (∀ bucket ∈ t.buckets, ∀ record ∈ bucket.nodes ++ bucket.replacements, ∀ nodeId, record.nodeId = some nodeId →
      bucket.bucketPrefix.contains nodeId = true) ∧
    ((t.buckets.flatMap fun bucket => bucket.nodes ++ bucket.replacements).map (·.addr)).Nodup := by
  have steady : ∀ op ∈ nearbyChurn, ∀ t, isSteady t op = true → Steady t op := by
    intro op _ t passed addr nodeId named
    rw [isSteady, named, all_some] at passed
    exact of_decide_eq_true passed
  obtain ⟨t, run, reached⟩ := exists_applied Steady isSteady nearbyChurn { bucketSize := 1 }
    (fun t => t.nodeIds = [[some 1#160], [some (1#160 <<< 159)]]) steady (by decide +kernel)
  exact ⟨t, reached, records_placed run⟩

end RoutingTable

end Superseedr
