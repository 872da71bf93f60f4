import Superseedr.Model.Manager
import Superseedr.Soundness.Runs

/-! # What trackers may answer

The numbers of a tracker's answer are signed, and the torrent adds a second to each of them as an unsigned number
and one of them to the clock. A negative number becomes a huge one: minus one does not take the second, and
the others lead beyond the range of the clock.
-/

namespace Superseedr

open Option

namespace TrackerResponse

variable {response : TrackerResponse} {s : TorrentState}

/-- The additions of a second stay within 64 bits. -/
structure AddsUp (response : TrackerResponse) : Prop where
  interval : 0 < asU64 response.interval.toInt → asU64 response.interval.toInt + 1 < 2 ^ 64
  minInterval : ∀ m ∈ response.minInterval, asU64 m.toInt + 1 < 2 ^ 64

/-- The seconds that the tracker asks to wait at least, or those waited anyway when it does not ask. -/
def asked (response : TrackerResponse) (s : TorrentState) : ℤ :=
  if s.torrentStatus ≠ .done then response.minInterval.elim 59 Int64.toInt
  else if response.interval.toInt = 0 then 1799 else response.interval.toInt

/-- No number is minus one, and the wait that is asked for is not negative and ends within the range of the clock. -/
structure Usable (response : TrackerResponse) (s : TorrentState) : Prop where
  interval : response.interval.toInt ≠ -1
  minInterval : ∀ m ∈ response.minInterval, m.toInt ≠ -1
  nonneg : 0 ≤ response.asked s
  ends : s.now / 1000 + response.asked s + 1 < 2 ^ 63

/-- A signed number as an unsigned one. -/
theorem asU64_toInt (i : Int64) :
    (asU64 i.toInt = i.toInt ∧ 0 ≤ i.toInt) ∨ (asU64 i.toInt = i.toInt + 2 ^ 64 ∧ i.toInt < 0 ∧ -2 ^ 63 ≤ i.toInt) := by
  have low := i.le_toInt
  have high := i.toInt_lt
  rw [asU64]
  omega

theorem addsUp_iff : response.AddsUp ↔ response.interval.toInt ≠ -1 ∧ ∀ m ∈ response.minInterval, m.toInt ≠ -1 := by
  have bound (i : Int64) : asU64 i.toInt + 1 < 2 ^ 64 ↔ i.toInt ≠ -1 := by
    have value := asU64_toInt i
    have high := i.toInt_lt
    omega
  have value := asU64_toInt response.interval
  refine ⟨fun adds => ⟨?_, fun m isMin => (bound m).mp (adds.minInterval m isMin)⟩, fun differ => ⟨fun _ => ?_, ?_⟩⟩
  · have interval := adds.interval
    omega
  · exact (bound _).mpr differ.1
  · exact fun m isMin => (bound m).mpr (differ.2 m isMin)

def wait (response : TrackerResponse) (s : TorrentState) : ℕ :=
  if s.torrentStatus ≠ .done then
    (match response.minInterval.map fun i => asU64 i.toInt with | some m => u64 (m + 1) | none => 60) * 1000
  else (if asU64 response.interval.toInt > 0 then u64 (asU64 response.interval.toInt + 1) else 1800) * 1000

/-- Waiting stays within the range of the clock exactly if that much was asked for. -/
theorem AddsUp.wait_lt_iff (adds : response.AddsUp) : (s.now + response.wait s) / 1000 < 2 ^ 63 ↔
    0 ≤ response.asked s ∧ s.now / 1000 + response.asked s + 1 < 2 ^ 63 := by
  have value := asU64_toInt response.interval
  have interval := adds.interval
  unfold wait asked
  split_ifs with running positive zero zero
  · cases isMin : response.minInterval with
    | none => simp only [map_none, elim_none]; omega
    | some m =>
      have value := asU64_toInt m
      rw [map_some, elim_some]
      dsimp only
      rw [u64_of_lt (adds.minInterval m isMin)]
      omega
  · omega
  · rw [u64_of_lt (interval positive)]
    omega
  all_goals omega

end TrackerResponse

/-- An answer is processed without overflow and without a panic, and sets no announce in the past, exactly if the
torrent does not know the tracker or can use the numbers. -/
theorem tracker_answer_safe_iff (host : Host) (s : TorrentState) (url : String) (response : TrackerResponse) :
    ((url ∈ s.trackers → response.AddsUp) ∧
      ∃ t effects, update host s (response.announceResponse url) = some (t, effects) ∧
        ∀ tracker ∈ t.trackers.lookup url, s.now ≤ tracker.nextAnnounceTime) ↔
      (url ∈ s.trackers → response.Usable s) := by
  by_cases known : url ∈ s.trackers
  · obtain ⟨change, updates, announces⟩ : ∃ change : ℕ → TorrentState × List Effect,
        update host s (response.announceResponse url) = (instantAdd s.now (response.wait s)).map change ∧
        ∀ next, ∀ tracker ∈ (change next).1.trackers.lookup url, tracker.nextAnnounceTime = next := by
      refine ⟨_, if_pos known, fun next tracker found => ?_⟩
      obtain ⟨old, -, rfl⟩ := map_eq_some_iff.mp (AList.lookup_modify_self.symm.trans found)
      rfl
    simp only [known, true_imp_iff, updates]
    constructor
    · rintro ⟨adds, t, effects, run, -⟩
      obtain ⟨next, fits, -⟩ := map_eq_some_iff.mp run
      unfold instantAdd at fits
      split_ifs at fits with inRange
      obtain ⟨interval, minInterval⟩ := TrackerResponse.addsUp_iff.mp adds
      obtain ⟨nonneg, ends⟩ := adds.wait_lt_iff.mp inRange
      exact ⟨interval, minInterval, nonneg, ends⟩
    · rintro ⟨interval, minInterval, nonneg, ends⟩
      have adds := TrackerResponse.addsUp_iff.mpr ⟨interval, minInterval⟩
      refine ⟨adds, _, _, by rw [instantAdd, if_pos (adds.wait_lt_iff.mpr ⟨nonneg, ends⟩)]; rfl,
        fun tracker found => ?_⟩
      rw [announces _ tracker found]
      exact Nat.le_add_right ..
  · refine ⟨fun _ member => absurd member known, fun _ => ⟨fun member => absurd member known, s, _, if_neg known, ?_⟩⟩
    rw [AList.lookup_eq_none.mpr known]
    nofun

/-- A tracker that asks to wait at least minus two seconds brings the torrent down. -/
theorem negative_interval_panics : ∃ s, Reachable (fun _ _ => True) s ∧
    update {} s (TrackerResponse.announceResponse ⟨1800, some (-2), []⟩ "t") = none := by
  refine ⟨.new [] (AList.singleton "t" ⟨0, none, none, false⟩) false none 0, ⟨_, ⟨_, _, _, _, _, rfl⟩, .refl⟩, ?_⟩
  exact isNone_iff_eq_none.mp (by decide +kernel)

end Superseedr
