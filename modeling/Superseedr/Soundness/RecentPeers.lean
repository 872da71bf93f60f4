import Mathlib.Data.Finset.Card
import Superseedr.Model.RecentPeers
import Superseedr.ToMathlib.LabeledSteps

/-! # The count of recent peers

A peer that is found again outlives its older finds, since it is forgotten only with its last one. Where it was found
twice at one instant it is forgotten with the first of the two; both have become too old, so that the loop does not
end in between.
-/

namespace Superseedr

open List AList

variable {before : ℕ}

namespace RecentUniquePeers

/-- The map has exactly the peers of the queue, each with the instant of its last find. -/
def Consistent (recent : RecentUniquePeers) : Prop :=
  ∀ peer, recent.lastSeen.lookup peer = (recent.events.reverse.find? (·.2 = peer)).map (·.1)

/-- The state after some finds up to an instant: those that are not queued any more have become too old. -/
structure Sound (window now : ℕ) (log : List (ℕ × SocketAddr)) (recent : RecentUniquePeers) : Prop where
  length : recent.window = window
  sorted : log.Pairwise fun a b => a.1 ≤ b.1
  bounded : ∀ event ∈ log, event.1 ≤ now
  queued : ∃ old, log = old ++ recent.events ∧ ∀ event ∈ old, ¬now - event.1 < window
  consistent : recent.Consistent

variable {window now : ℕ} {events log : List (ℕ × SocketAddr)} {lastSeen : AList fun _ : SocketAddr => ℕ}
  {recent : RecentUniquePeers}

theorem evictLoop_split (sorted : events.Pairwise fun a b => a.1 ≤ b.1) :
    ∃ old, events = old ++ (evictLoop window now events lastSeen).1 ∧ (∀ event ∈ old, ¬now - event.1 < window) ∧
      (∀ event ∈ (evictLoop window now events lastSeen).1, now - event.1 < window) ∧
      ∀ peer, (evictLoop window now events lastSeen).2.lookup peer =
        (lastSeen.lookup peer).filter fun seenAt => (seenAt, peer) ∉ old := by
  induction events generalizing lastSeen with
  | nil => exact ⟨[], rfl, nofun, nofun, fun peer => by rw [evictLoop]; cases lastSeen.lookup peer <;> rfl⟩
  | cons head rest ih =>
    obtain ⟨seenAt, peer⟩ := head
    obtain ⟨first, sorted⟩ := pairwise_cons.mp sorted
    by_cases young : now - seenAt < window
    · rw [evictLoop, if_pos young]
      refine ⟨[], rfl, nofun, forall_mem_cons.mpr ⟨young, fun event later => ?_⟩,
        fun other => by cases lastSeen.lookup other <;> rfl⟩
      have behind := first event later
      dsimp only at behind
      omega
    rw [evictLoop, if_neg young]
    obtain ⟨old, whole, tooOld, rest, known⟩ :=
      @ih (if lastSeen.lookup peer = some seenAt then lastSeen.erase peer else lastSeen) sorted
    refine ⟨(seenAt, peer) :: old, congrArg _ whole, forall_mem_cons.mpr ⟨young, tooOld⟩, rest, fun other => ?_⟩
    rw [known]
    rcases eq_or_ne other peer with rfl | same
    · split_ifs with last
      · simp [last, Option.filter_some]
      · cases found : lastSeen.lookup other with
        | none => rfl
        | some instant =>
          have differ : instant ≠ seenAt := fun equal => last (equal ▸ found)
          simp [Option.filter_some, differ]
    · rw [apply_ite (AList.lookup other), lookup_erase_ne same, ite_self]
      simp [same]

theorem Sound.evictExpired (sound : Sound window before log recent) (later : before ≤ now) :
    Sound window now log (recent.evictExpired now) ∧
      ∀ event ∈ (recent.evictExpired now).events, now - event.1 < window := by
  obtain rfl := sound.length
  obtain ⟨dropped, rfl, gone⟩ := sound.queued
  obtain ⟨old, whole, tooOld, young, known⟩ := @evictLoop_split recent.window now recent.events recent.lastSeen
    (pairwise_append.mp sound.sorted).2.1
  refine ⟨⟨rfl, sound.sorted, fun event member => (sound.bounded event member).trans later,
    ⟨dropped ++ old, ?_, ?_⟩, fun peer => ?_⟩, young⟩
  · rw [append_assoc]
    exact congrArg _ whole
  · refine forall_mem_append.mpr ⟨fun event member => ?_, tooOld⟩
    have before := gone event member
    omega
  · have split := sound.consistent peer
    rw [whole, reverse_append, find?_append] at split
    refine (known peer).trans ?_
    rw [split]
    change _ = ((evictLoop recent.window now recent.events recent.lastSeen).1.reverse.find? (·.2 = peer)).map (·.1)
    cases last : (evictLoop recent.window now recent.events recent.lastSeen).1.reverse.find? (·.2 = peer) with
    | some event =>
      have recentFind := young event (mem_reverse.mp (mem_of_find?_eq_some last))
      have own : event.2 = peer := by simpa using find?_some last
      have kept : (event.1, peer) ∉ old := fun member => tooOld _ member recentFind
      simp [Option.filter_some, kept]
    | none =>
      cases dropped : old.reverse.find? (·.2 = peer) with
      | none => rfl
      | some event =>
        have member := mem_reverse.mp (mem_of_find?_eq_some dropped)
        have own : event.2 = peer := by simpa using find?_some dropped
        subst own
        simp [Option.filter_some, member]

/-- A find is queued behind the others and is the last of its peer. -/
theorem Sound.record (sound : Sound window now log recent) (peer : SocketAddr) :
    Sound window now (log ++ [(now, peer)]) (recent.record now peer) := by
  obtain ⟨old, rfl, gone⟩ := sound.queued
  refine ⟨sound.length, pairwise_append.mpr ⟨sound.sorted, pairwise_singleton .., fun event member _ own => ?_⟩,
    forall_mem_append.mpr ⟨sound.bounded, forall_mem_singleton.mpr le_rfl⟩, ⟨old, append_assoc .., gone⟩,
    fun other => ?_⟩
  · rw [mem_singleton.mp own]
    exact sound.bounded event member
  · simp only [RecentUniquePeers.record, reverse_concat, find?_cons, lookup_insert_ite]
    rcases eq_or_ne other peer with rfl | same
    · simp
    · rw [if_neg same, decide_eq_false same.symm]
      exact sound.consistent other

theorem Sound.recordAll (sound : Sound window now log recent) (peers : List SocketAddr) :
    Sound window now (log ++ peers.map fun peer => (now, peer))
      (peers.foldl (fun recent peer => recent.record now peer) recent) := by
  induction peers generalizing log recent with
  | nil => rwa [map_nil, append_nil]
  | cons peer rest ih =>
    rw [map_cons, append_cons]
    exact ih (sound.record peer)

end RecentUniquePeers

/-- What the service asks of the recent peers. -/
inductive RecentCall where
  | recordBatch (peers : List SocketAddr)
  | uniqueCount

/-- The recent peers with the clock and everything that was ever recorded. -/
structure RecentLog where
  recent : RecentUniquePeers
  now : ℕ
  log : List (ℕ × SocketAddr)

namespace RecentLog

def start (window now : ℕ) : RecentLog := ⟨.new window, now, []⟩

def step (r : RecentLog) (now : ℕ) : RecentCall → RecentLog
  | .recordBatch peers => ⟨r.recent.recordBatch now peers, now, r.log ++ peers.map fun peer => (now, peer)⟩
  | .uniqueCount => ⟨(r.recent.uniqueCount now).1, now, r.log⟩

/-- The peers that were recorded within the last window. -/
def peersSince (r : RecentLog) (window now : ℕ) : Finset SocketAddr :=
  ((r.log.filter fun event => now - event.1 < window).map (·.2)).toFinset

end RecentLog

open RecentUniquePeers RecentLog

/-- Whenever the recent peers are counted, the count is the number of different peers recorded within the last window,
and the queue and the map are consistent before and after. -/
theorem unique_count_exact {window started : ℕ} {r : RecentLog}
    (run : Steps (fun (now, call) r s => r.step now call = s) (fun r (now, _) => r.now ≤ now) (start window started) r)
    {now : ℕ} (later : r.now ≤ now) :
    (r.recent.uniqueCount now).2 = (r.peersSince window now).card ∧ r.recent.Consistent ∧
      (r.recent.uniqueCount now).1.Consistent := by
  have sound : Sound window r.now r.log r.recent := by
    refine run.preserves (fun r => Sound window r.now r.log r.recent) ?_ ?_
    · rintro r _ ⟨now, call⟩ later rfl sound
      have evicted := (sound.evictExpired later).1
      cases call with
      | recordBatch peers => exact evicted.recordAll peers
      | uniqueCount => exact evicted
    · exact ⟨rfl, .nil, nofun, ⟨[], rfl, nofun⟩, fun peer => lookup_empty peer⟩
  obtain ⟨evicted, young⟩ := sound.evictExpired later
  refine ⟨?_, sound.consistent, evicted.consistent⟩
  obtain ⟨old, whole, gone⟩ := evicted.queued
  have same : (r.recent.evictExpired now).lastSeen.keys.toFinset = r.peersSince window now := by
    have recentFinds : r.log.filter (fun event => now - event.1 < window) = (r.recent.evictExpired now).events := by
      rw [whole, filter_append, filter_eq_nil_iff.mpr fun event member => by simpa using gone event member, nil_append]
      exact filter_eq_self.mpr fun event member => decide_eq_true (young event member)
    ext peer
    rw [mem_toFinset, ← AList.mem_keys, ← lookup_isSome, evicted.consistent, peersSince, recentFinds]
    simp
  rw [uniqueCount, ← same, toFinset_card_of_nodup (keys_nodup _)]

/-- A peer that is found twice at one instant and again later is counted once, the other one no more. -/
theorem unique_count_exact_again : ∃ r : RecentLog, (r.recent.uniqueCount 16).2 = 1 ∧
    (r.recent.uniqueCount 16).2 = (r.peersSince 10 16).card ∧ r.recent.Consistent ∧
      (r.recent.uniqueCount 16).1.Consistent := by
  have first : Steps (fun (now, call) r s => step r now call = s) (fun r (now, _) => r.now ≤ now) (start 10 0) _ :=
    @Steps.single _ _ _ _ _ _ (5, .recordBatch [⟨.v4 1, 1⟩, ⟨.v4 1, 1⟩, ⟨.v4 1, 2⟩]) (Nat.zero_le 5) rfl
  have second := first.trans (@Steps.single _ _ _ _ _ _ (12, .recordBatch [⟨.v4 1, 1⟩]) (by decide) rfl)
  exact ⟨_, by decide +kernel, unique_count_exact second (by decide)⟩

end Superseedr
