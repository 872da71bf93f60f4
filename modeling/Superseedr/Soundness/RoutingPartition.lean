import Superseedr.ToMathlib.CellPartition
import Superseedr.ToMathlib.LabeledSteps
import Superseedr.Model.RoutingTable

/-! # The structure of the routing table

The buckets partition the identifiers, whatever happens to the table: a split puts two halves in the place of a bucket,
and nothing else changes which identifiers belong to a bucket. No bucket holds more than the configuration admits. Each
round of `insert` that does not end it splits the bucket of the candidate, so there are at most 161 rounds.
-/

namespace Superseedr

open List Option RoutingTable

variable {outcome : InsertOutcome} {left right other changed : Bucket} {addr : SocketAddr}
  {change : NodeRecord → NodeRecord} {isNode : Bool} {op : RoutingTable.Op}

namespace BucketPrefix

variable {p left right : BucketPrefix} {nodeId : NodeId}

theorem contains_iff : p.contains nodeId = true ↔ ∀ i < p.bitLen, p.bits.getMsbD i = nodeId.getMsbD i := by
  simp [contains]

theorem split_eq_some (halves : p.split = some (left, right)) :
    left.bitLen = p.bitLen + 1 ∧ right.bitLen = p.bitLen + 1 ∧
      (∀ nodeId, left.contains nodeId = (p.contains nodeId && !nodeId.getMsbD p.bitLen)) ∧
      ∀ nodeId, right.contains nodeId = (p.contains nodeId && nodeId.getMsbD p.bitLen) := by
  unfold split at halves
  split_ifs at halves with room
  cases halves
  have longer :
      ∀ (bits : NodeId) (value : Bool) (nodeId : NodeId), (∀ i < p.bitLen, bits.getMsbD i = p.bits.getMsbD i) →
      bits.getMsbD p.bitLen = value →
      ((∀ i < p.bitLen + 1, bits.getMsbD i = nodeId.getMsbD i) ↔
        (∀ i < p.bitLen, p.bits.getMsbD i = nodeId.getMsbD i) ∧ value = nodeId.getMsbD p.bitLen) := by
    intro bits value nodeId same last
    rw [Nat.forall_lt_succ_right, last]
    exact and_congr_left' (forall₂_congr fun i inside => by rw [same i inside])
  refine ⟨rfl, rfl, fun nodeId => ?_, fun nodeId => ?_⟩
  · rw [Bool.eq_iff_iff, contains_iff, longer p.bits false nodeId (fun _ _ => rfl) (p.blank _ le_rfl), Bool.and_eq_true,
      contains_iff]
    cases nodeId.getMsbD p.bitLen <;> simp
  · have set : ∀ i ≤ p.bitLen, (setBit160 p.bits p.bitLen).getMsbD i = (p.bits.getMsbD i || decide (p.bitLen = i)) :=
      fun i _ => getMsbD_setBit160 room
    rw [Bool.eq_iff_iff, contains_iff, longer (setBit160 p.bits p.bitLen) true nodeId, Bool.and_eq_true, contains_iff]
    · cases nodeId.getMsbD p.bitLen <;> simp
    · intro i inside
      rw [set i inside.le, decide_eq_false (Nat.ne_of_gt inside), Bool.or_false]
    · rw [set _ le_rfl, decide_eq_true rfl, Bool.or_true]

end BucketPrefix

namespace RoutingTable

inductive Inserts (nodeId : NodeId) (candidate : NodeRecord) (now : ℕ) : RoutingTable → RoutingTable → Prop where
  | update {t i bucket updated outcome} (found : t.bucketIndexFor nodeId = some i) (place : t.buckets[i]? = some bucket)
      (known : bucket.updateExisting candidate now = some (updated, outcome)) :
      Inserts nodeId candidate now t (t.putBucket i updated)
  | refuse {t} : Inserts nodeId candidate now t t
  | push {t i bucket} (found : t.bucketIndexFor nodeId = some i) (place : t.buckets[i]? = some bucket)
      (unknown : bucket.updateExisting candidate now = none) (free : t.hasBlockingConflict candidate now = false)
      (room : (bucket.dropConflicting candidate now).nodes.length < t.config.bucketSize) :
      Inserts nodeId candidate now t
        ((t.dropConflicting candidate now).putBucket i ((bucket.dropConflicting candidate now).push candidate now))
  | settle {t i bucket} (found : t.bucketIndexFor nodeId = some i) (place : t.buckets[i]? = some bucket)
      (unknown : bucket.updateExisting candidate now = none) (free : t.hasBlockingConflict candidate now = false)
      (full : t.config.bucketSize ≤ (bucket.dropConflicting candidate now).nodes.length) :
      Inserts nodeId candidate now t
        ((t.dropConflicting candidate now).putBucket i
          ((bucket.dropConflicting candidate now).settle t.config.replacementLimit candidate now).1)
  | split {t t' i bucket left right} (found : t.bucketIndexFor nodeId = some i) (place : t.buckets[i]? = some bucket)
      (unknown : bucket.updateExisting candidate now = none) (free : t.hasBlockingConflict candidate now = false)
      (full : t.config.bucketSize ≤ (bucket.dropConflicting candidate now).nodes.length)
      (own : bucket.bucketPrefix.contains t.localNodeId = true)
      (halves : (bucket.dropConflicting candidate now).split now = some (left, right))
      (rest : Inserts nodeId candidate now ((t.dropConflicting candidate now).putHalves i left right) t') :
      Inserts nodeId candidate now t t'

variable {nodeId : NodeId} {candidate : NodeRecord} {now i rounds : ℕ} {t t' : RoutingTable} {bucket : Bucket}

theorem inserts_of_insertLoop (run : insertLoop nodeId candidate now rounds t = some (t', outcome)) :
    Inserts nodeId candidate now t t' := by
  induction rounds generalizing t with
  | zero => cases run
  | succ rounds ih =>
    obtain ⟨i, found, run⟩ := bind_eq_some_iff.mp run
    obtain ⟨bucket, place, run⟩ := bind_eq_some_iff.mp run
    split at run
    · rename_i updated _ known
      cases run
      exact .update found place known
    rename_i unknown
    split at run
    · cases run
      exact .refuse
    rename_i blocks
    have free := Bool.eq_false_iff.mpr blocks
    dsimp only at run
    split at run
    · rename_i room
      cases run
      exact .push found place unknown free room
    rename_i full
    split at run
    · rename_i left right chosen
      split at chosen
      · rename_i own
        exact .split found place unknown free (not_lt.mp full) own chosen (ih run)
      · cases chosen
    · cases run
      exact .settle found place unknown free (not_lt.mp full)

structure Structured (t : RoutingTable) : Prop where
  partitions : Partitions BucketPrefix.contains (t.buckets.map (·.bucketPrefix))
  nodes : ∀ bucket ∈ t.buckets, bucket.nodes.length ≤ t.config.bucketSize
  replacements : ∀ bucket ∈ t.buckets, bucket.replacements.length ≤ t.config.replacementLimit

theorem Structured.new (localNodeId : NodeId) (config : RoutingConfig) (now : ℕ) :
    (new localNodeId config now).Structured where
  partitions := .singleton fun _ => BucketPrefix.contains_iff.mpr nofun
  nodes := forall_mem_singleton.mpr (Nat.zero_le _)
  replacements := forall_mem_singleton.mpr (Nat.zero_le _)

theorem take_cons_drop (place : t.buckets[i]? = some bucket) :
    t.buckets = t.buckets.take i ++ bucket :: t.buckets.drop (i + 1) := by
  obtain ⟨inside, rfl⟩ := List.getElem?_eq_some_iff.mp place
  rw [← drop_eq_getElem_cons inside, take_append_drop]

theorem bucket_split_eq_some (halves : bucket.split now = some (left, right)) :
    bucket.bucketPrefix.split = some (left.bucketPrefix, right.bucketPrefix) ∧
      ∃ goesLeft goesRight : NodeRecord → Bool,
        (left.nodes = bucket.nodes.filter goesLeft ∧ left.replacements = bucket.replacements.filter goesLeft) ∧
        (right.nodes = bucket.nodes.filter goesRight ∧ right.replacements = bucket.replacements.filter goesRight) ∧
        (∀ record, goesLeft record = record.nodeId.any left.bucketPrefix.contains) ∧
        ∀ record, goesRight record = record.nodeId.any fun nodeId => !left.bucketPrefix.contains nodeId := by
  obtain ⟨⟨leftPrefix, rightPrefix⟩, split, same⟩ := map_eq_some_iff.mp halves
  cases same
  exact ⟨split, _, _, ⟨rfl, rfl⟩, ⟨rfl, rfl⟩, fun _ => rfl, fun _ => rfl⟩

theorem mem_putHalves (member : other ∈ (t.putHalves i left right).buckets) :
    other ∈ t.buckets ∨ other = left ∨ other = right := by
  simp only [putHalves, mem_append, mem_cons] at member
  rcases member with before | isLeft | isRight | later
  · exact .inl (mem_of_mem_take before)
  · exact .inr (.inl isLeft)
  · exact .inr (.inr isRight)
  · exact .inl (mem_of_mem_drop later)

theorem settle_bounds (bucket : Bucket) (limit : ℕ) (candidate : NodeRecord) (now : ℕ) :
    let settled := (bucket.settle limit candidate now).1
    settled.bucketPrefix = bucket.bucketPrefix ∧ settled.nodes.length = bucket.nodes.length ∧
      (bucket.replacements.length ≤ limit → settled.replacements.length ≤ limit) := by
  unfold Bucket.settle
  split
  · exact ⟨rfl, length_set .., id⟩
  · exact ⟨rfl, rfl, fun _ => length_take_le ..⟩

theorem getElem?_dropConflicting (candidate : NodeRecord) (now : ℕ) (place : t.buckets[i]? = some bucket) :
    (t.dropConflicting candidate now).buckets[i]? = some (bucket.dropConflicting candidate now) := by
  rw [dropConflicting, getElem?_map, place, map_some]

theorem withRecordMut_cases (addr : SocketAddr) (change : NodeRecord → NodeRecord) (buckets : List Bucket) :
    withRecordMut addr change now buckets = buckets ∨
      ∃ i bucket changed isNode, buckets[i]? = some bucket ∧
        bucket.withRecord addr change now = some (changed, isNode) ∧
        withRecordMut addr change now buckets = buckets.set i changed := by
  induction buckets with
  | nil => exact .inl rfl
  | cons bucket rest ih =>
    rw [withRecordMut]
    split
    · rename_i changed isNode run
      exact .inr ⟨0, bucket, changed, isNode, rfl, run, rfl⟩
    · rcases ih with same | ⟨i, other, changed, isNode, place, run, same⟩
      · exact .inl (by rw [same])
      · exact .inr ⟨i + 1, other, changed, isNode, place, run, by rw [same, set_cons_succ]⟩

theorem withRecordMut_rule {P : RoutingTable → Prop} (unchanged : P t)
    (put : ∀ i bucket changed isNode, t.buckets[i]? = some bucket →
      bucket.withRecord addr change now = some (changed, isNode) → P (t.putBucket i changed)) :
    P { t with buckets := withRecordMut addr change now t.buckets } := by
  rcases withRecordMut_cases addr change t.buckets with same | ⟨i, bucket, changed, isNode, place, run, same⟩
  · rw [same]
    exact unchanged
  · rw [same]
    exact put i bucket changed isNode place run

theorem apply_insert_cases (run : t.apply rounds (.insert candidate now) = some t') :
    t' = t ∨ ∃ nodeId, candidate.nodeId = some nodeId ∧ Inserts nodeId
      { candidate with bep42State := classifyNode candidate.addr (some nodeId), lastChangedAt := now } now t t' := by
  obtain ⟨⟨after, outcome⟩, ran, rfl⟩ := map_eq_some_iff.mp run
  unfold insert at ran
  split at ran
  · exact .inl (congrArg Prod.fst (some.inj ran)).symm
  rename_i nodeId known
  split at ran
  · exact .inl (congrArg Prod.fst (some.inj ran)).symm
  · exact .inr ⟨nodeId, known, inserts_of_insertLoop ran⟩

theorem contains_of_bucketIndexFor (found : t.bucketIndexFor nodeId = some i) (place : t.buckets[i]? = some bucket) :
    bucket.bucketPrefix.contains nodeId = true := by
  obtain ⟨inside, covered, -⟩ := findIdx?_eq_some_iff_getElem.mp found
  obtain rfl := some.inj ((getElem?_eq_getElem inside).symm.trans place)
  exact covered

section Keeping

variable (structured : t.Structured)
include structured

/-- Every identifier has a bucket, which is the only one it belongs to. -/
theorem Structured.bucketIndexFor (nodeId : NodeId) :
    ∃ i bucket, t.bucketIndexFor nodeId = some i ∧ t.buckets[i]? = some bucket ∧
      bucket.bucketPrefix.contains nodeId = true ∧
      ∀ j other, t.buckets[j]? = some other → other.bucketPrefix.contains nodeId = true → j = i := by
  obtain ⟨i, p, found, place, covered⟩ := structured.partitions.exists_index nodeId
  rw [findIdx?_map] at found
  obtain ⟨bucket, stored, rfl⟩ := map_eq_some_iff.mp (getElem?_map .. ▸ place)
  refine ⟨i, bucket, found, stored, covered, fun j other storedOther alsoCovered => ?_⟩
  refine structured.partitions.index_unique (d := bucket.bucketPrefix) ?_ alsoCovered place covered
  rw [getElem?_map, storedOther, map_some]

theorem Structured.dropConflicting (candidate : NodeRecord) (now : ℕ) :
    (t.dropConflicting candidate now).Structured where
  partitions := by
    have prefixes : (t.dropConflicting candidate now).buckets.map (·.bucketPrefix) = t.buckets.map (·.bucketPrefix) :=
      map_map ..
    exact prefixes ▸ structured.partitions
  nodes := forall_mem_map.mpr fun bucket stored => (length_filter_le ..).trans (structured.nodes bucket stored)
  replacements := forall_mem_map.mpr fun bucket stored =>
    (length_filter_le ..).trans (structured.replacements bucket stored)

section

variable (place : t.buckets[i]? = some bucket)
include place

theorem Structured.putBucket (same : changed.bucketPrefix = bucket.bucketPrefix)
    (nodes : changed.nodes.length ≤ t.config.bucketSize)
    (replacements : changed.replacements.length ≤ t.config.replacementLimit) : (t.putBucket i changed).Structured where
  partitions := by
    have prefixes : (t.buckets.set i changed).map (·.bucketPrefix) = t.buckets.map (·.bucketPrefix) := by
      obtain ⟨inside, rfl⟩ := List.getElem?_eq_some_iff.mp place
      rw [map_set, same, ← map_set, set_getElem_self]
    exact prefixes ▸ structured.partitions
  nodes other member := by
    rcases mem_or_eq_of_mem_set member with old | rfl
    · exact structured.nodes other old
    · exact nodes
  replacements other member := by
    rcases mem_or_eq_of_mem_set member with old | rfl
    · exact structured.replacements other old
    · exact replacements

theorem Structured.putHalves (halves : bucket.split now = some (left, right)) :
    (t.putHalves i left right).Structured := by
  obtain ⟨split, goesLeft, goesRight, ⟨leftNodes, leftReplacements⟩, ⟨rightNodes, rightReplacements⟩, -⟩ :=
    bucket_split_eq_some halves
  have stored := mem_of_getElem? place
  refine ⟨?_, fun other member => ?_, fun other member => ?_⟩
  · obtain ⟨-, -, isLeft, isRight⟩ := BucketPrefix.split_eq_some split
    have whole := structured.partitions
    rw [take_cons_drop place, map_append, map_cons] at whole
    have parts := whole.split (fun nodeId => nodeId.getMsbD bucket.bucketPrefix.bitLen) isLeft isRight
    simpa only [RoutingTable.putHalves, map_append, map_cons] using parts
  · rcases mem_putHalves member with old | rfl | rfl
    · exact structured.nodes other old
    · exact leftNodes ▸ (length_filter_le ..).trans (structured.nodes bucket stored)
    · exact rightNodes ▸ (length_filter_le ..).trans (structured.nodes bucket stored)
  · rcases mem_putHalves member with old | rfl | rfl
    · exact structured.replacements other old
    · exact leftReplacements ▸ (length_filter_le ..).trans (structured.replacements bucket stored)
    · exact rightReplacements ▸ (length_filter_le ..).trans (structured.replacements bucket stored)

theorem Structured.withRecord (run : bucket.withRecord addr change now = some (changed, isNode)) :
    (t.putBucket i changed).Structured := by
  have nodes := structured.nodes bucket (mem_of_getElem? place)
  have replacements := structured.replacements bucket (mem_of_getElem? place)
  unfold Bucket.withRecord at run
  split at run
  · cases run
    exact structured.putBucket place rfl ((length_modify ..).trans_le nodes) replacements
  split at run
  · cases run
    exact structured.putBucket place rfl nodes ((length_modify ..).trans_le replacements)
  · cases run

theorem Structured.split_deepens (covered : bucket.bucketPrefix.contains nodeId = true)
    (halves : bucket.split now = some (left, right)) :
    ∃ j half, (t.putHalves i left right).bucketIndexFor nodeId = some j ∧
      (t.putHalves i left right).buckets[j]? = some half ∧
      half.bucketPrefix.bitLen = bucket.bucketPrefix.bitLen + 1 := by
  obtain ⟨j, half, found, stored, -, unique⟩ := (structured.putHalves place halves).bucketIndexFor nodeId
  obtain ⟨leftLen, rightLen, isLeft, isRight⟩ := BucketPrefix.split_eq_some (bucket_split_eq_some halves).1
  have inside : i ≤ t.buckets.length := (List.getElem?_eq_some_iff.mp place).1.le
  have length := length_take_of_le inside
  have leftPlace : (t.putHalves i left right).buckets[i]? = some left := by
    rw [RoutingTable.putHalves, getElem?_append_right length.le, length, Nat.sub_self, getElem?_cons_zero]
  have rightPlace : (t.putHalves i left right).buckets[i + 1]? = some right := by
    rw [RoutingTable.putHalves, getElem?_append_right (by omega), length, Nat.add_sub_cancel_left,
      getElem?_cons_succ, getElem?_cons_zero]
  refine ⟨j, half, found, stored, ?_⟩
  cases side : nodeId.getMsbD bucket.bucketPrefix.bitLen with
  | false =>
    obtain rfl := unique i left leftPlace (by rw [isLeft, covered, side]; rfl)
    rw [← mem_unique leftPlace stored, leftLen]
  | true =>
    obtain rfl := unique (i + 1) right rightPlace (by rw [isRight, covered, side]; rfl)
    rw [← mem_unique rightPlace stored, rightLen]

end

theorem Structured.inserts (inserts : Inserts nodeId candidate now t t') : t'.Structured ∧ t'.config = t.config := by
  induction inserts with
  | @update t i bucket updated outcome found place known =>
    obtain ⟨⟨changed, isNode⟩, run, same⟩ := map_eq_some_iff.mp known
    cases same
    exact ⟨structured.withRecord place run, rfl⟩
  | refuse => exact ⟨structured, rfl⟩
  | @push t i bucket found place unknown free room =>
    have dropped := structured.dropConflicting candidate now
    have placed := getElem?_dropConflicting candidate now place
    have few := dropped.replacements _ (mem_of_getElem? placed)
    refine ⟨dropped.putBucket placed rfl ?_ few, rfl⟩
    rw [Bucket.push, length_append, length_singleton]
    exact room
  | @settle t i bucket found place unknown free full =>
    have dropped := structured.dropConflicting candidate now
    have placed := getElem?_dropConflicting candidate now place
    obtain ⟨same, nodes, replacements⟩ := settle_bounds (bucket.dropConflicting candidate now) t.config.replacementLimit
      candidate now
    exact ⟨dropped.putBucket placed same (nodes.trans_le (dropped.nodes _ (mem_of_getElem? placed)))
      (replacements (dropped.replacements _ (mem_of_getElem? placed))), rfl⟩
  | @split t t' i bucket left right found place unknown free _ own halves rest ih =>
    exact ih
      ((structured.dropConflicting candidate now).putHalves (getElem?_dropConflicting candidate now place) halves)

theorem Structured.apply (run : t.apply rounds op = some t') : t'.Structured ∧ t'.config = t.config := by
  cases op with
  | insert candidate now =>
    rcases apply_insert_cases run with rfl | ⟨nodeId, -, inserts⟩
    · exact ⟨structured, rfl⟩
    · exact structured.inserts inserts
  | recordQuerySent | recordResponse | recordInboundQuery | recordFailure =>
    cases run
    exact ⟨withRecordMut_rule structured fun _ _ _ _ place => structured.withRecord place, rfl⟩
  | setLocalNodeId =>
    cases run
    exact ⟨{ structured with }, rfl⟩

theorem Structured.insertLoop_ends (found : t.bucketIndexFor nodeId = some i) (place : t.buckets[i]? = some bucket) :
    ∃ result, ∀ rounds, 160 - bucket.bucketPrefix.bitLen < rounds →
      insertLoop nodeId candidate now rounds t = some result := by
  induction remaining : 160 - bucket.bucketPrefix.bitLen using Nat.strong_induction_on generalizing t i bucket with
  | _ depth ih =>
    have covered := contains_of_bucketIndexFor found place
    -- What the loop does in a round does not depend on how many are left.
    suffices next : ∃ result, ∀ rounds, depth < rounds + 1 →
        insertLoop nodeId candidate now (rounds + 1) t = some result by
      obtain ⟨result, ends⟩ := next
      refine ⟨result, fun rounds enough => ?_⟩
      obtain ⟨rounds, rfl⟩ := Nat.exists_eq_succ_of_ne_zero (Nat.ne_of_gt (Nat.zero_lt_of_lt enough))
      exact ends rounds enough
    simp only [insertLoop, found, bind_some, place]
    cases known : bucket.updateExisting candidate now with
    | some updated => exact ⟨_, fun _ _ => rfl⟩
    | none =>
      split_ifs with blocked room
      · exact ⟨_, fun _ _ => rfl⟩
      · exact ⟨_, fun _ _ => rfl⟩
      · cases halves : (bucket.dropConflicting candidate now).split now with
        | none => exact ⟨_, fun _ _ => rfl⟩
        | some pair =>
          have dropped := structured.dropConflicting candidate now
          obtain ⟨j, half, foundHalf, storedHalf, deeper⟩ :=
            dropped.split_deepens (getElem?_dropConflicting candidate now place) covered halves
          have bounded := half.bucketPrefix.bounded
          have fewer : 160 - half.bucketPrefix.bitLen < depth := by
            rw [deeper] at bounded ⊢
            change _ - (bucket.bucketPrefix.bitLen + 1) < depth
            change bucket.bucketPrefix.bitLen + 1 ≤ 160 at bounded
            omega
          obtain ⟨result, ends⟩ :=
            ih _ fewer (dropped.putHalves (getElem?_dropConflicting candidate now place) halves)
              foundHalf storedHalf rfl
          exact ⟨result, fun rounds enough => ends rounds (by omega)⟩
      · exact ⟨_, fun _ _ => rfl⟩

theorem Structured.apply_ends (op : Op) : ∃ t', ∀ rounds, 161 ≤ rounds → t.apply rounds op = some t' := by
  cases op with
  | insert candidate now =>
    simp only [RoutingTable.apply, RoutingTable.insert]
    split
    · exact ⟨t, fun _ _ => rfl⟩
    rename_i nodeId _
    split
    · exact ⟨t, fun _ _ => rfl⟩
    · obtain ⟨i, bucket, found, place, -⟩ := structured.bucketIndexFor nodeId
      obtain ⟨result, ends⟩ := structured.insertLoop_ends found place
      exact ⟨result.1, fun rounds enough => by rw [ends rounds (by omega), map_some]⟩
  | recordQuerySent | recordResponse | recordInboundQuery | recordFailure | setLocalNodeId => exact ⟨_, fun _ _ => rfl⟩

end Keeping

/-- An operation that ends. -/
def Applies (op : Op) (t t' : RoutingTable) : Prop := ∃ rounds, t.apply rounds op = some t'

theorem exists_applied (guard : RoutingTable → Op → Prop) (check : RoutingTable → Op → Bool) (ops : List Op)
    (config : RoutingConfig) (facts : RoutingTable → Prop) [DecidablePred facts]
    (admitted : ∀ op ∈ ops, ∀ t, check t op = true → guard t op)
    (replayed : (ops.foldlM (fun t op => if check t op then apply 161 t op else none) (new 0 config 0)).any
      (fun t => decide (facts t)) = true) : ∃ t, Steps Applies guard (new 0 config 0) t ∧ facts t := by
  obtain ⟨t, run, reached⟩ := Steps.exists_replay guard (apply 161) check ops _ facts admitted replayed
  exact ⟨t, run.mono_move fun _ _ _ applied => ⟨161, applied⟩, reached⟩

/-- Whatever happens to a routing table, every identifier belongs to exactly one bucket, which the lookup finds, no
bucket holds more than it may, and every further operation ends. -/
theorem buckets_structured {localNodeId : NodeId} {config : RoutingConfig} {start : ℕ}
    (run : Steps Applies (fun _ _ => True) (new localNodeId config start) t) :
    (∀ nodeId, ∃ i bucket, t.bucketIndexFor nodeId = some i ∧ t.buckets[i]? = some bucket ∧
      bucket.bucketPrefix.contains nodeId = true ∧
      ∀ j other, t.buckets[j]? = some other → other.bucketPrefix.contains nodeId = true → j = i) ∧
    (∀ bucket ∈ t.buckets, bucket.nodes.length ≤ config.bucketSize ∧
      bucket.replacements.length ≤ config.replacementLimit) ∧
    ∀ op, ∃ t', ∀ rounds, 161 ≤ rounds → t.apply rounds op = some t' := by
  obtain ⟨structured, same⟩ := run.preserves (fun t => t.Structured ∧ t.config = config)
    (fun s t op _ ⟨rounds, applied⟩ ⟨structured, same⟩ =>
      have after := structured.apply applied
      ⟨after.1, after.2.trans same⟩)
    ⟨Structured.new localNodeId config start, rfl⟩
  refine ⟨structured.bucketIndexFor, fun bucket member => ?_, structured.apply_ends⟩
  exact ⟨same ▸ structured.nodes bucket member, same ▸ structured.replacements bucket member⟩

def nodeAt (host : BitVec 32) (nodeId : NodeId) : NodeRecord :=
  { addr := ⟨.v4 (0x08080000 + host), 6881⟩, nodeId := some nodeId, lastChangedAt := 0 }

/-- Three nodes for buckets of one split the table twice. -/
theorem buckets_structured_split : ∃ t : RoutingTable, t.buckets.length = 3 ∧
    (∀ nodeId, ∃ i bucket, t.bucketIndexFor nodeId = some i ∧ t.buckets[i]? = some bucket ∧
      bucket.bucketPrefix.contains nodeId = true ∧
      ∀ j other, t.buckets[j]? = some other → other.bucketPrefix.contains nodeId = true → j = i) ∧
    (∀ bucket ∈ t.buckets, bucket.nodes.length ≤ 1 ∧ bucket.replacements.length ≤ 8) ∧
    ∀ op, ∃ t', ∀ rounds, 161 ≤ rounds → t.apply rounds op = some t' := by
  obtain ⟨t, run, reached⟩ := exists_applied (fun _ _ => True) (fun _ _ => true)
    [.insert (nodeAt 1 (1 <<< 159)) 0, .insert (nodeAt 2 (1 <<< 158)) 0, .insert (nodeAt 3 (1 <<< 157)) 0]
    { bucketSize := 1 } (fun t => t.buckets.length = 3) (fun _ _ _ _ => trivial) (by decide +kernel)
  exact ⟨t, reached, buckets_structured run⟩

end RoutingTable

end Superseedr
