import Superseedr.Model.PeerStore

/-! # Limits of the peer store

However the clock moves and in whatever order the hash table is walked, the store stays within its limits, no bucket is
empty and no bucket holds an address twice. When the clock advances, a peer that is inserted is newer than all others,
so that none of the evictions removes it.
-/

namespace Superseedr.PeerStore

open List AList Option

variable {s : PeerStore} {key : PeerStoreKey} {now limit i rounds : ℕ} {order : Arrangement} {stored other : StoredPeer}
  {bucket fewer : List StoredPeer} {record : PeerStoreKey × StoredPeer}

/-- A bucket within its limit, without an address that occurs twice. -/
structure Neat (limit : ℕ) (bucket : List StoredPeer) : Prop where
  few : bucket.length ≤ limit
  occupied : bucket ≠ []
  distinct : (bucket.map (·.peer.addr)).Nodup

structure Tidy (s : PeerStore) : Prop where
  infoHashes : s.peers.keys.length ≤ s.config.maxInfoHashes
  neat : ∀ key bucket, s.peers.lookup key = some bucket → Neat s.config.maxPeersPerInfoHash bucket

theorem totalPeerCount_eq : s.totalPeerCount = s.peers.records.length := s.peers.length_records.symm

theorem Neat.sublist (neat : Neat limit bucket) (sub : fewer.Sublist bucket) (occupied : fewer ≠ []) :
    Neat limit fewer :=
  ⟨sub.length_le.trans neat.few, occupied, neat.distinct.sublist (sub.map _)⟩

theorem records_pruneExpired (s : PeerStore) (now : ℕ) : (s.pruneExpired now).peers.records.Sublist s.peers.records :=
  (records_retain_sublist _ _).trans (records_mapVal_sublist (fun _ _ => filter_sublist) _)

theorem Tidy.pruneExpired (tidy : s.Tidy) (now : ℕ) : (s.pruneExpired now).Tidy where
  infoHashes := by
    have fewer : (s.pruneExpired now).peers.keys.length ≤ (s.peers.mapVal fun _ bucket =>
        bucket.filter fun stored => now - stored.announcedAt ≤ s.config.peerTtl).keys.length :=
      (filter_sublist.map Sigma.fst).length_le
    rw [keys_mapVal] at fewer
    exact fewer.trans tidy.infoHashes
  neat key bucket found := by
    rw [PeerStore.pruneExpired, lookup_retain, lookup_mapVal, filter_eq_some_iff] at found
    obtain ⟨pruned, occupied⟩ := found
    obtain ⟨before, found, rfl⟩ := map_eq_some_iff.mp pruned
    exact (tidy.neat key before found).sublist filter_sublist (by simpa using occupied)

theorem mem_pruneExpired (isStored : (key, stored) ∈ s.peers.records) (fresh : stored.announcedAt = now) :
    (key, stored) ∈ (s.pruneExpired now).peers.records := by
  obtain ⟨bucket, found, inBucket⟩ := mem_records.mp isStored
  have kept : stored ∈ bucket.filter fun stored => now - stored.announcedAt ≤ s.config.peerTtl := by
    simp [inBucket, fresh]
  refine mem_records.mpr ⟨_, ?_, kept⟩
  rw [pruneExpired, lookup_retain, lookup_mapVal, filter_eq_some_iff]
  refine ⟨by rw [found]; rfl, ?_⟩
  rw [Bool.not_eq_true', isEmpty_eq_false_iff]
  exact ne_nil_of_mem kept

theorem Tidy.erase (tidy : s.Tidy) (key : PeerStoreKey) : Tidy { s with peers := s.peers.erase key } where
  infoHashes := by
    rw [keys_erase]
    exact length_erase_le.trans tidy.infoHashes
  neat other bucket found := tidy.neat other bucket (lookup_of_erase found)

theorem Tidy.insert (tidy : s.Tidy) (room : key ∉ s.peers → s.peers.keys.length < s.config.maxInfoHashes)
    (neat : Neat s.config.maxPeersPerInfoHash bucket) : Tidy { s with peers := s.peers.insert key bucket } where
  infoHashes := by
    have few := tidy.infoHashes
    rw [keys_insert, length_cons]
    by_cases member : key ∈ s.peers
    · have occurs := length_erase_of_mem (mem_keys.mp member)
      have some' := length_pos_of_mem (mem_keys.mp member)
      change _ ≤ s.config.maxInfoHashes
      omega
    · rw [erase_of_not_mem fun occurs => member (mem_keys.mpr occurs)]
      exact room member
  neat := forall_insert tidy.neat neat

theorem removeEntry_spec (tidy : s.Tidy) (found : s.peers.lookup key = some bucket) (place : bucket[i]? = some stored) :
    (s.removeEntry key i).Tidy ∧ s.peers.records.Perm ((key, stored) :: (s.removeEntry key i).peers.records) := by
  obtain ⟨inside, isStored⟩ := List.getElem?_eq_some_iff.mp place
  have split : bucket.Perm (stored :: bucket.eraseIdx i) := by
    rw [← isStored]
    exact (getElem_cons_eraseIdx_perm inside).symm
  have records := (records_perm_erase found).trans ((split.map (Prod.mk key)).append_right _)
  simp only [removeEntry, found]
  split_ifs with last
  · rw [isEmpty_iff.mp last] at records
    exact ⟨tidy.erase key, records⟩
  · have member : key ∈ s.peers := mem_of_lookup_eq_some found
    have neat := (tidy.neat key bucket found).sublist (eraseIdx_sublist bucket i) (by simpa using last)
    exact ⟨tidy.insert (fun absent => absurd member absent) neat, records⟩

theorem exists_entry (isRecord : record ∈ s.peers.records) :
    ∃ i, (record.1, i, record.2.announcedAt) ∈ (order.arrange 1 s.peers.entries).flatMap fun entry =>
      entry.2.zipIdx.map fun (stored, i) => (entry.1, i, stored.announcedAt) := by
  obtain ⟨bucket, found, member⟩ := mem_records.mp isRecord
  obtain ⟨i, place⟩ := mem_iff_getElem?.mp member
  refine ⟨i, mem_flatMap.mpr ⟨⟨record.1, bucket⟩, (order.mem_arrange 1).mpr (mem_lookup_iff.mp found), ?_⟩⟩
  exact mem_map.mpr ⟨(record.2, i), mem_zipIdx_iff_getElem?.mpr place, rfl⟩

theorem oldestPeerEntry_spec (oldest : s.oldestPeerEntry order = some (key, i)) :
    ∃ bucket stored, s.peers.lookup key = some bucket ∧ bucket[i]? = some stored ∧
      ∀ record ∈ s.peers.records, stored.announcedAt ≤ record.2.announcedAt := by
  obtain ⟨entry, least, same⟩ := map_eq_some_iff.mp oldest
  obtain ⟨⟨_, bucket⟩, isEntry, listed⟩ := mem_flatMap.mp (argmin_mem least)
  obtain ⟨⟨stored, _⟩, indexed, rfl⟩ := mem_map.mp listed
  cases same
  rw [order.mem_arrange] at isEntry
  refine ⟨bucket, stored, mem_lookup_iff.mpr isEntry, mem_zipIdx_iff_getElem?.mp indexed, fun record isRecord => ?_⟩
  obtain ⟨j, among⟩ := exists_entry isRecord
  exact le_of_mem_argmin (a := (record.1, j, record.2.announcedAt)) among least

theorem oldestPeerEntry_eq_none (nothing : s.oldestPeerEntry order = none) : s.peers.records = [] := by
  rw [eq_nil_iff_forall_not_mem]
  intro record isRecord
  obtain ⟨i, among⟩ := exists_entry isRecord
  rw [argmin_eq_none.mp (map_eq_none_iff.mp nothing)] at among
  exact not_mem_nil among

def Newest (s : PeerStore) (record : PeerStoreKey × StoredPeer) : Prop :=
  ∃ others, s.peers.records.Perm (record :: others) ∧ ∀ other ∈ others, other.2.announcedAt < record.2.announcedAt

theorem Newest.mem (newest : s.Newest record) : record ∈ s.peers.records := by
  obtain ⟨others, same, -⟩ := newest
  exact same.mem_iff.mpr (.head _)

theorem Newest.remove {oldest : PeerStoreKey × StoredPeer} {t : PeerStore} (newest : s.Newest record)
    (several : 1 < s.peers.records.length)
    (least : ∀ other ∈ s.peers.records, oldest.2.announcedAt ≤ other.2.announcedAt)
    (removed : s.peers.records.Perm (oldest :: t.peers.records)) : t.Newest record := by
  obtain ⟨others, same, older⟩ := newest
  have rest := same.symm.trans removed
  obtain ⟨other, isOther⟩ : ∃ other, other ∈ others := by
    apply exists_mem_of_length_pos
    rw [same.length_eq, length_cons] at several
    omega
  have differ : oldest ≠ record := by
    rintro rfl
    exact absurd (older other isOther) (not_lt.mpr (least other (same.mem_iff.mpr (.tail _ isOther))))
  have isOld : oldest ∈ others := (mem_cons.mp (rest.mem_iff.mpr (.head _))).resolve_left differ
  refine ⟨others.erase oldest, ?_, fun other member => older other (mem_of_mem_erase member)⟩
  have swapped := rest.symm.trans (((perm_cons_erase isOld).cons record).trans (List.Perm.swap ..))
  exact (perm_cons oldest).mp swapped

/-- The loop ends within the limit, with some of the records and with the newest one. -/
theorem enforceRounds_spec (order : Arrangement) (tidy : s.Tidy) (enough : s.peers.records.length ≤ rounds) :
    let left := enforceRounds order rounds s
    left.Tidy ∧ left.config = s.config ∧ left.totalPeerCount ≤ s.config.maxTotalPeers ∧
      (∀ record ∈ left.peers.records, record ∈ s.peers.records) ∧
      (0 < s.config.maxTotalPeers → ∀ record, s.Newest record → left.Newest record) := by
  induction rounds generalizing s with
  | zero =>
    refine ⟨tidy, rfl, ?_, fun _ => id, fun _ _ => id⟩
    rw [enforceRounds, totalPeerCount_eq]
    omega
  | succ rounds ih =>
    rw [enforceRounds]
    split_ifs with beyond
    · rw [totalPeerCount_eq] at beyond
      cases oldest : s.oldestPeerEntry (order.sub rounds) with
      | none =>
        rw [oldestPeerEntry_eq_none oldest, length_nil] at beyond
        omega
      | some entry =>
        obtain ⟨key, i⟩ := entry
        obtain ⟨bucket, stored, found, place, least⟩ := oldestPeerEntry_spec oldest
        obtain ⟨tidier, records⟩ := removeEntry_spec tidy found place
        have config : (s.removeEntry key i).config = s.config := by simp only [removeEntry, found]
        have length := records.length_eq
        rw [length_cons] at length
        obtain ⟨final, same, within, subset, keeps⟩ := ih tidier (by omega)
        rw [config] at same within keeps
        refine ⟨final, same, within, fun record member => ?_, fun positive record newest => ?_⟩
        · exact records.mem_iff.mpr (.tail _ (subset record member))
        · exact keeps positive record (newest.remove (by omega) least records)
    · exact ⟨tidy, rfl, not_lt.mp beyond, fun _ => id, fun _ _ => id⟩

theorem evictOldestBucket_spec (tidy : s.Tidy) (some' : 0 < s.peers.keys.length) :
    ∃ evicted ∈ s.peers.keys, s.evictOldestBucket order = { s with peers := s.peers.erase evicted } := by
  unfold evictOldestBucket
  dsimp only
  split
  · rename_i evicted _ least
    obtain ⟨⟨_, bucket⟩, isEntry, first⟩ := mem_filterMap.mp (argmin_mem least)
    obtain ⟨stored, -, same⟩ := map_eq_some_iff.mp first
    cases same
    rw [order.mem_arrange] at isEntry
    exact ⟨_, mem_keys_of_mem isEntry, rfl⟩
  rename_i nothing
  obtain ⟨key, member⟩ := exists_mem_of_length_pos some'
  obtain ⟨bucket, found⟩ := lookup_eq_some_of_mem (mem_keys.mpr member)
  obtain ⟨stored, rest, rfl⟩ := exists_cons_of_ne_nil (tidy.neat key bucket found).occupied
  have listed : (key, stored.announcedAt) ∈ (order.arrange 0 s.peers.entries).filterMap fun entry =>
      entry.2.head?.map fun stored => (entry.1, stored.announcedAt) :=
    mem_filterMap.mpr ⟨⟨key, stored :: rest⟩, (order.mem_arrange 0).mpr (mem_lookup_iff.mp found), rfl⟩
  rw [argmin_eq_none.mp nothing] at listed
  cases listed

theorem makeRoom_spec (order : Arrangement) (key : PeerStoreKey) (tidy : s.Tidy)
    (positive : 0 < s.config.maxInfoHashes) : let left := s.makeRoom order key
    left.Tidy ∧ left.config = s.config ∧ (key ∉ left.peers → left.peers.keys.length < s.config.maxInfoHashes) ∧
      ∀ record ∈ left.peers.records, record ∈ s.peers.records := by
  unfold makeRoom
  split_ifs with full
  · obtain ⟨evicted, member, same⟩ := evictOldestBucket_spec tidy (positive.trans_le full.2)
    rw [same]
    refine ⟨tidy.erase evicted, rfl, fun _ => ?_, fun record => (records_erase_sublist evicted s.peers).mem⟩
    have few := tidy.infoHashes
    rw [keys_erase, length_erase_of_mem member]
    omega
  · exact ⟨tidy, rfl, fun absent => not_le.mp fun many => full ⟨absent, many⟩, fun _ => id⟩

/-- What a peer is put into, before the oldest ones go. -/
theorem pushPeer_perm (limit : ℕ) (bucket : List StoredPeer) (stored : StoredPeer) :
    ∃ sorted : List StoredPeer, sorted.Perm (stored :: bucket.filter (·.peer.addr ≠ stored.peer.addr)) ∧
      sorted.Pairwise (·.announcedAt ≤ ·.announcedAt) ∧
      pushPeer limit bucket stored = sorted.drop (sorted.length - limit) :=
  ⟨_, (perm_insertionSort _ _).trans (perm_append_singleton ..), pairwise_insertionSort _ _, rfl⟩

theorem pushPeer_neat (positive : 0 < limit) (distinct : (bucket.map (·.peer.addr)).Nodup) :
    Neat limit (pushPeer limit bucket stored) := by
  obtain ⟨sorted, same, -, isPushed⟩ := pushPeer_perm limit bucket stored
  have length := same.length_eq
  rw [length_cons] at length
  rw [isPushed]
  refine ⟨by rw [length_drop]; omega, ?_, ?_⟩
  · rw [ne_eq, drop_eq_nil_iff]
    omega
  · have all : (sorted.map (·.peer.addr)).Nodup := by
      rw [(same.map (·.peer.addr)).nodup_iff, map_cons, nodup_cons]
      refine ⟨fun occurs => ?_, distinct.sublist (filter_sublist.map _)⟩
      obtain ⟨other, member, same⟩ := mem_map.mp occurs
      exact of_decide_eq_true (mem_filter.mp member).2 same
    exact all.sublist ((drop_sublist _ _).map _)

theorem mem_pushPeer (member : other ∈ pushPeer limit bucket stored) : other = stored ∨ other ∈ bucket := by
  obtain ⟨sorted, same, -, isPushed⟩ := pushPeer_perm limit bucket stored
  rw [isPushed] at member
  rcases mem_cons.mp (same.mem_iff.mp (mem_of_mem_drop member)) with isStored | before
  · exact .inl isStored
  · exact .inr (mem_of_mem_filter before)

theorem pushPeer_newest (positive : 0 < limit) (older : ∀ other ∈ bucket, other.announcedAt < stored.announcedAt) :
    ∃ others, (pushPeer limit bucket stored).Perm (stored :: others) ∧
      ∀ other ∈ others, other.announcedAt < stored.announcedAt := by
  obtain ⟨sorted, same, ordered, isPushed⟩ := pushPeer_perm limit bucket stored
  obtain ⟨before, after, rfl⟩ := append_of_mem (same.mem_iff.mpr (.head _))
  have rest : (before ++ after).Perm (bucket.filter (·.peer.addr ≠ stored.peer.addr)) :=
    (perm_cons stored).mp (perm_middle.symm.trans same)
  have earlier : ∀ other ∈ before ++ after, other.announcedAt < stored.announcedAt := fun other member =>
    older other (mem_of_mem_filter (rest.mem_iff.mp member))
  obtain rfl : after = [] := by
    rw [eq_nil_iff_forall_not_mem]
    intro other member
    have later := (pairwise_append.mp ordered).2.1
    exact absurd (earlier other (mem_append_right _ member))
      (not_lt.mpr ((pairwise_cons.mp later).1 other member))
  rw [isPushed, drop_append_of_le_length (by simp only [length_append, length_singleton]; omega)]
  exact ⟨_, perm_append_singleton .., fun other member =>
    earlier other (mem_append_left _ (mem_of_mem_drop member))⟩

theorem mem_records_of_getD (member : other ∈ (s.peers.lookup key).getD []) : (key, other) ∈ s.peers.records := by
  cases found : s.peers.lookup key with
  | none =>
    rw [found] at member
    cases member
  | some bucket => exact mem_records.mpr ⟨bucket, found, by rwa [found] at member⟩

theorem mem_store (member : record ∈ (s.store key stored).peers.records) :
    record = (key, stored) ∨ record ∈ s.peers.records := by
  rw [store, records_insert, mem_append] at member
  rcases member with pushed | before
  · obtain ⟨other, isPushed, rfl⟩ := mem_map.mp pushed
    rcases mem_pushPeer isPushed with rfl | before
    · exact .inl rfl
    · exact .inr (mem_records_of_getD before)
  · exact .inr ((records_erase_sublist key s.peers).mem before)

theorem Tidy.store (tidy : s.Tidy) (room : key ∉ s.peers → s.peers.keys.length < s.config.maxInfoHashes)
    (positive : 0 < s.config.maxPeersPerInfoHash) (stored : StoredPeer) : (s.store key stored).Tidy := by
  refine tidy.insert room (pushPeer_neat positive ?_)
  cases found : s.peers.lookup key with
  | none => exact nodup_nil
  | some bucket => exact (tidy.neat key bucket found).distinct

theorem store_newest (positive : 0 < s.config.maxPeersPerInfoHash)
    (older : ∀ record ∈ s.peers.records, record.2.announcedAt < stored.announcedAt) :
    (s.store key stored).Newest (key, stored) := by
  obtain ⟨others, same, earlier⟩ := pushPeer_newest positive fun other member =>
    older (key, other) (mem_records_of_getD member)
  refine ⟨others.map (Prod.mk key) ++ (s.peers.erase key).records, (same.map (Prod.mk key)).append_right _, ?_⟩
  intro other member
  rcases mem_append.mp member with here | elsewhere
  · obtain ⟨peer, isOther, rfl⟩ := mem_map.mp here
    exact earlier peer isOther
  · exact older other ((records_erase_sublist key s.peers).mem elsewhere)

/-- All limits are positive. -/
structure Positive (config : PeerStoreConfig) : Prop where
  infoHashes : 0 < config.maxInfoHashes
  perInfoHash : 0 < config.maxPeersPerInfoHash
  total : 0 < config.maxTotalPeers

/-- The store within its limits. -/
structure Bounded (s : PeerStore) : Prop extends Tidy s where
  total : s.totalPeerCount ≤ s.config.maxTotalPeers

section Runs

variable {config : PeerStoreConfig}

theorem Bounded.pruneExpired (bounded : s.Bounded) (now : ℕ) : (s.pruneExpired now).Bounded where
  toTidy := bounded.toTidy.pruneExpired now
  total := by
    have fewer := (records_pruneExpired s now).length_le
    have total := bounded.total
    rw [totalPeerCount_eq] at total ⊢
    exact fewer.trans total

/-- A peer is put into a store that stays within its limits, and where it is newer than all others it stays there. -/
theorem insert_spec (order : Arrangement) (infoHash : InfoHash) (peer : CompactPeer) (now : ℕ) (bounded : s.Bounded)
    (positive : Positive s.config) : let after := (s.insert order infoHash peer now).1
    let new : PeerStoreKey × StoredPeer := (⟨infoHash, peer.family⟩, ⟨infoHash, peer, now⟩)
    after.Bounded ∧ after.config = s.config ∧
    (∀ record ∈ after.peers.records, record = new ∨ record ∈ s.peers.records) ∧
      ((∀ record ∈ s.peers.records, record.2.announcedAt < now) → after.Newest new) := by
  obtain ⟨tidy, same, room, fewer⟩ := makeRoom_spec order ⟨infoHash, peer.family⟩
    (bounded.toTidy.pruneExpired now) positive.infoHashes
  have stored := tidy.store (by rwa [same]) (by rw [same]; exact positive.perInfoHash) ⟨infoHash, peer, now⟩
  obtain ⟨final, sameFinal, total, subset, keeps⟩ := enforceRounds_spec (order.sub 2) stored
    totalPeerCount_eq.ge
  refine ⟨⟨final, total.trans_eq (congrArg PeerStoreConfig.maxTotalPeers sameFinal.symm)⟩, sameFinal.trans same,
    fun record member => ?_, fun older => ?_⟩
  · refine (mem_store (subset record member)).imp_right fun before => ?_
    exact (records_pruneExpired s now).mem (fewer record before)
  · refine keeps (by rw [store, same]; exact positive.total) _
      (store_newest (by rw [same]; exact positive.perInfoHash) ?_)
    exact fun record member => older record ((records_pruneExpired s now).mem (fewer record member))

theorem serve_spec (call : Call × ℕ × Arrangement) (bounded : s.Bounded) (positive : Positive s.config) :
    let after := s.serve call
    after.Bounded ∧ after.config = s.config ∧
      ∀ record ∈ after.peers.records, record.2.announcedAt = call.2.1 ∨ record ∈ s.peers.records := by
  obtain ⟨call, now, order⟩ := call
  have pruned : (s.pruneExpired now).Bounded ∧ (s.pruneExpired now).config = s.config ∧
      ∀ record ∈ (s.pruneExpired now).peers.records, record.2.announcedAt = now ∨ record ∈ s.peers.records :=
    ⟨bounded.pruneExpired now, rfl, fun record member => .inr ((records_pruneExpired s now).mem member)⟩
  cases call with
  | insert infoHash peer =>
    obtain ⟨final, same, subset, -⟩ := insert_spec order infoHash peer now bounded positive
    exact ⟨final, same, fun record member => (subset record member).imp_left fun isNew => by rw [isNew]⟩
  | acceptsAnnouncesFor | peersFor | pruneExpired => exact pruned

theorem run_spec (calls : List (Call × ℕ × Arrangement)) (bounded : s.Bounded) (positive : Positive s.config) :
    let after := calls.foldl serve s
    after.Bounded ∧ after.config = s.config ∧
      ∀ record ∈ after.peers.records, (∃ call ∈ calls, record.2.announcedAt = call.2.1) ∨ record ∈ s.peers.records := by
  induction calls generalizing s with
  | nil => exact ⟨bounded, rfl, fun record member => .inr member⟩
  | cons call rest ih =>
    obtain ⟨next, same, new⟩ := serve_spec call bounded positive
    obtain ⟨final, sameFinal, times⟩ := ih next (by rwa [same])
    refine ⟨final, sameFinal.trans same, fun record member => ?_⟩
    rcases times record member with ⟨other, later, time⟩ | before
    · exact .inl ⟨other, .tail _ later, time⟩
    · exact (new record before).imp_left fun time => ⟨call, .head _, time⟩

/-- After any calls the store is within its limits, and a peer that is inserted later than all of them is among those
returned for its info hash at once. -/
theorem store_bounded (calls : List (Call × ℕ × Arrangement)) (positive : Positive config) :
    (calls.foldl serve (new config)).Bounded ∧
      ∀ infoHash peer now order, (∀ call ∈ calls, call.2.1 < now) →
        peer ∈
         (((calls.foldl serve (new config)).insert order infoHash peer now).1.peersFor infoHash peer.family now).2 := by
  have empty : (new config).Bounded := by
    refine ⟨⟨Nat.zero_le _, fun key bucket found => ?_⟩, Nat.zero_le _⟩
    simp [new] at found
  obtain ⟨bounded, same, times⟩ := run_spec calls empty positive
  refine ⟨bounded, fun infoHash peer now order earlier => ?_⟩
  obtain ⟨-, -, -, newest⟩ := insert_spec order infoHash peer now bounded (by rwa [same])
  have isStored := (newest fun record member => ?_).mem
  · obtain ⟨bucket, found, member⟩ := mem_records.mp (mem_pruneExpired isStored rfl)
    rw [peersFor, found]
    exact mem_map_of_mem member
  · rcases times record member with ⟨call, isCall, time⟩ | before
    · rw [time]
      exact earlier call isCall
    · simp [new, records] at before

/-- A store for a single peer, which is replaced. -/
theorem store_bounded_single : let calls : List (Call × ℕ × Arrangement) := [(.insert 1 ⟨⟨.v4 1, 6881⟩⟩, 5, .stored)]
    let store := calls.foldl serve (new ⟨1, 1, 1, 10⟩)
    store.Bounded ∧ ⟨⟨.v4 2, 6881⟩⟩ ∈ ((store.insert .stored 2 ⟨⟨.v4 2, 6881⟩⟩ 6).1.peersFor 2 .ipv4 6).2 := by
  intro calls store
  obtain ⟨bounded, newest⟩ := store_bounded calls (⟨by decide, by decide, by decide⟩ : Positive ⟨1, 1, 1, 10⟩)
  exact ⟨bounded, newest 2 ⟨⟨.v4 2, 6881⟩⟩ 6 .stored (by simp [calls])⟩

end Runs

end Superseedr.PeerStore
