import Superseedr.ToMathlib.LabeledSteps
import Superseedr.ToMathlib.Meter
import Superseedr.Model.LaunchBudget

/-! # What the launch budget allows

With the carried rest counted in, a bucket is a meter, which bounds the launches of any span of time. The rest makes
refills exact up to whole milliseconds: what is left over of a millisecond is lost at each refill.
-/

namespace Superseedr

open Meter

variable {stamp last perMinute burst : ℕ}

namespace DemandLaunchTokenBucket

/-- The tokens and the carried rest. -/
def units (b : DemandLaunchTokenBucket) : ℕ := 60000 * b.tokensScaled + b.refillRemainder

variable (b : DemandLaunchTokenBucket) {now : ℕ}

theorem kept_refill :
    (b.refill now).refillPerMinute = b.refillPerMinute ∧ (b.refill now).burstScaled = b.burstScaled := by
  unfold refill
  split <;> exact ⟨rfl, rfl⟩

theorem lastRefillAt_refill (later : b.lastRefillAt ≤ now) : (b.refill now).lastRefillAt = now := by
  unfold refill
  split_ifs with still
  · omega
  · rfl

def launchCost : ℤ := 60000000000000

/-- A refund may fill the bucket while something is carried over. -/
def capacity (b : DemandLaunchTokenBucket) : ℤ := 1000000 * (60000 * b.burstScaled + 59999)

def rate (b : DemandLaunchTokenBucket) : ℤ := 1000 * b.refillPerMinute

def grown (b : DemandLaunchTokenBucket) (now : ℕ) : ℤ :=
  min b.capacity (1000000 * b.units + b.rate * (now - b.lastRefillAt))

theorem refillUnits_le (now : ℕ) :
    b.refillUnits now ≤ b.refillPerMinute * 1000 * ((now - b.lastRefillAt) / 1000000) + b.refillRemainder := by
  have scaled : sat128 (b.refillPerMinute * dhtPlannerTokenScale) ≤ b.refillPerMinute * 1000 := min_le_left ..
  have elapsed := Nat.mul_le_mul_right ((now - b.lastRefillAt) / 1000000) scaled
  exact (min_le_left ..).trans (Nat.add_le_add_right ((min_le_left ..).trans elapsed) _)

theorem units_refill_le (now : ℕ) : (b.refill now).units ≤
    b.units + b.refillPerMinute * 1000 * ((now - b.lastRefillAt) / 1000000) := by
  unfold refill
  split_ifs with still
  · exact Nat.le_add_right ..
  have worth := b.refillUnits_le now
  have tokens : min (satAdd64 b.tokensScaled (u64 (b.refillUnits now / 60000))) b.burstScaled ≤
      b.tokensScaled + b.refillUnits now / 60000 :=
    (min_le_left ..).trans ((min_le_left ..).trans (Nat.add_le_add_left (Nat.mod_le ..) _))
  simp only [units]
  split <;> omega

theorem rate_nonneg : 0 ≤ b.rate := by
  unfold rate
  omega

theorem grown_nonneg (later : b.lastRefillAt ≤ now) : 0 ≤ b.grown now := by
  have added := mul_nonneg b.rate_nonneg (sub_nonneg.mpr (Nat.cast_le.mpr later))
  unfold grown capacity
  omega

theorem grown_le_add (later : stamp ≤ now) : b.grown now ≤ b.grown stamp + b.rate * (now - stamp) := by
  have added := mul_nonneg b.rate_nonneg (sub_nonneg.mpr (Nat.cast_le.mpr later))
  have sum : b.rate * (now - b.lastRefillAt) = b.rate * (stamp - b.lastRefillAt) + b.rate * (now - stamp) := by ring
  unfold grown
  omega

theorem grown_refill_le (later : b.lastRefillAt ≤ now) : (b.refill now).grown now ≤ b.grown now := by
  have worth := b.units_refill_le now
  have whole := Nat.mul_le_mul_left (b.refillPerMinute * 1000) (Nat.div_mul_le_self (now - b.lastRefillAt) 1000000)
  have growth : b.rate * (now - b.lastRefillAt) = (b.refillPerMinute * 1000 * (now - b.lastRefillAt) : ℕ) := by
    rw [rate, Nat.cast_mul, Nat.cast_sub later]
    push_cast
    ring
  rw [grown, grown, b.lastRefillAt_refill later, sub_self, mul_zero, capacity, b.kept_refill.2, growth]
  refine min_le_min (le_refl _) ?_
  rw [← Nat.mul_assoc] at whole
  omega

theorem grown_refund_le (now : ℕ) : b.refund.grown now ≤ b.grown now + launchCost := by
  simp only [grown, capacity, units, rate, refund, satAdd64, dhtPlannerTokenScale, launchCost]
  omega

theorem grown_consume_le (enough : dhtPlannerTokenScale ≤ b.tokensScaled) :
    b.consume.grown b.lastRefillAt ≤ b.grown b.lastRefillAt - launchCost := by
  have full := b.tokens_le
  have rest := b.remainder_lt
  simp only [grown, capacity, units, rate, consume, dhtPlannerTokenScale, launchCost, sub_self, mul_zero] at *
  omega

section Agreement

/-- A refill at the instant stays below the burst. -/
def Below (b : DemandLaunchTokenBucket) (now : ℕ) : Prop :=
  b.units + b.refillPerMinute * 1000 * ((now - b.lastRefillAt) / 1000000) < 60000 * b.burstScaled

/-- What refills at the instants leave over of their milliseconds. -/
def lostNanos : ℕ → List ℕ → ℕ
  | _, [] => 0
  | stamp, now :: rest => (now - stamp) % 1000000 + lostNanos now rest

theorem sat128_of_lt {x : ℕ} (small : x < 2 ^ 128) : sat128 x = x := min_eq_left (Nat.le_pred_of_lt small)

variable {b}

theorem refillUnits_eq (below : b.Below now) : b.refillUnits now =
    b.refillPerMinute * 1000 * ((now - b.lastRefillAt) / 1000000) + b.refillRemainder := by
  have small := b.burst_lt
  simp only [Below, units] at below
  simp only [refillUnits, dhtPlannerTokenScale]
  have scaled : sat128 (b.refillPerMinute * 1000) * ((now - b.lastRefillAt) / 1000000) =
      b.refillPerMinute * 1000 * ((now - b.lastRefillAt) / 1000000) := by
    rcases Nat.eq_zero_or_pos ((now - b.lastRefillAt) / 1000000) with short | long
    · rw [short, mul_zero, mul_zero]
    · have product := Nat.le_mul_of_pos_right (b.refillPerMinute * 1000) long
      rw [sat128_of_lt (by omega)]
  simp (disch := omega) only [scaled, sat128_of_lt]

theorem units_refill (below : b.Below now) :
    (b.refill now).units = b.units + b.refillPerMinute * 1000 * ((now - b.lastRefillAt) / 1000000) := by
  have small := b.burst_lt
  have worth := refillUnits_eq below
  simp only [Below, units] at below
  have tokens : min (satAdd64 b.tokensScaled (u64 (b.refillUnits now / 60000))) b.burstScaled =
      b.tokensScaled + b.refillUnits now / 60000 := by
    simp only [satAdd64, u64]
    omega
  unfold refill
  split_ifs with still
  · simp [still]
  · simp only [units, tokens]
    rw [if_neg (by omega)]
    omega

/-- Refills up to an instant add up to what their whole milliseconds are worth. -/
theorem units_refills (instants : List ℕ) (ordered : (b.lastRefillAt :: instants).Pairwise (· ≤ ·))
    (bounded : ∀ now ∈ instants, now ≤ last) (below : b.Below last) :
    ∃ whole, (instants.foldl refill b).units = b.units + b.refillPerMinute * 1000 * whole ∧
      b.lastRefillAt + 1000000 * whole + lostNanos b.lastRefillAt instants = instants.getLastD b.lastRefillAt := by
  induction instants generalizing b with
  | nil => exact ⟨0, by simp, by simp [lostNanos]⟩
  | cons now rest ih =>
    obtain ⟨later, ordered⟩ := List.pairwise_cons.mp ordered
    have before := later now (.head _)
    have after := bounded now (.head _)
    have parts : (now - b.lastRefillAt) / 1000000 + (last - now) / 1000000 ≤ (last - b.lastRefillAt) / 1000000 := by
      omega
    have worth := Nat.mul_le_mul_left (b.refillPerMinute * 1000) parts
    unfold Below at below
    rw [Nat.mul_add] at worth
    have first : b.Below now := by
      unfold Below
      omega
    have refilled := units_refill first
    have stamp := b.lastRefillAt_refill before
    obtain ⟨whole, total, spent⟩ := ih (b := b.refill now) (by rwa [stamp])
      (fun other member => bounded other (.tail _ member)) (by
        rw [Below, stamp, b.kept_refill.1, b.kept_refill.2]
        omega)
    refine ⟨(now - b.lastRefillAt) / 1000000 + whole, ?_, ?_⟩
    · rw [List.foldl_cons, total, refilled, b.kept_refill.1]
      ring
    · rw [stamp] at spent
      rw [List.getLastD_cons, ← spent, lostNanos]
      omega

/-- Refills in between change nothing exactly if they leave over less than a millisecond, or if nothing is refilled. -/
theorem refills_agree_iff (b : DemandLaunchTokenBucket) (instants : List ℕ) (last : ℕ)
    (ordered : (b.lastRefillAt :: instants ++ [last]).Pairwise (· ≤ ·)) (below : b.Below last) :
    (((instants ++ [last]).foldl refill b).tokensScaled = (b.refill last).tokensScaled ∧
      ((instants ++ [last]).foldl refill b).refillRemainder = (b.refill last).refillRemainder) ↔
    b.refillPerMinute = 0 ∨ lostNanos b.lastRefillAt (instants ++ [last]) < 1000000 := by
  have bounded : ∀ now ∈ instants ++ [last], now ≤ last := by
    intro now member
    rcases List.mem_append.mp member with earlier | final
    · exact (List.pairwise_append.mp ordered).2.2 now (.tail _ earlier) last (.head _)
    · exact (List.mem_singleton.mp final).le
  obtain ⟨whole, total, spent⟩ := units_refills (instants ++ [last]) ordered bounded below
  rw [List.getLastD_concat] at spent
  have unique (x y : DemandLaunchTokenBucket) :
      (x.tokensScaled = y.tokensScaled ∧ x.refillRemainder = y.refillRemainder) ↔ x.units = y.units := by
    have left := x.remainder_lt
    have right := y.remainder_lt
    unfold units
    omega
  rw [unique, total, units_refill below, Nat.add_left_cancel_iff, mul_eq_mul_left_iff]
  omega

/-- An empty bucket for one launch a second. -/
def denseBucket : DemandLaunchTokenBucket :=
  { tokensScaled := 0, burstScaled := 1000, refillPerMinute := 60, refillRemainder := 0, lastRefillAt := 0,
    tokens_le := by decide, burst_lt := by decide, remainder_lt := (new 60 1 0).remainder_lt }

theorem dense_refills_lose : denseBucket.Below 1000000 ∧
    ([500000, 1000000].foldl refill denseBucket).tokensScaled = 0 ∧ (denseBucket.refill 1000000).tokensScaled = 1 := by
  unfold Below
  decide +kernel

theorem refills_agree_whole :
    (([1000000] ++ [2500000]).foldl refill denseBucket).tokensScaled = (denseBucket.refill 2500000).tokensScaled ∧
    (([1000000] ++ [2500000]).foldl refill denseBucket).refillRemainder =
      (denseBucket.refill 2500000).refillRemainder :=
  (denseBucket.refills_agree_iff [1000000] 2500000 (by decide) (by unfold Below; decide +kernel)).mpr
    (.inr (by decide +kernel))

end Agreement

end DemandLaunchTokenBucket

open DemandLaunchTokenBucket

inductive LaunchCall where
  | refill
  | tryConsume
  | refund

/-- A bucket at an instant, with what was launched before; a refund counts against it. -/
structure LaunchLog where
  bucket : DemandLaunchTokenBucket
  now : ℕ
  log : List (ℤ × ℤ)

namespace LaunchLog

variable {l : LaunchLog} {now : ℕ}

def start (refillPerMinute burst now : ℕ) : LaunchLog := ⟨.new refillPerMinute burst now, now, []⟩

/-- A call at an instant. -/
def step (l : LaunchLog) (now : ℕ) : LaunchCall → LaunchLog
  | .refill => { l with bucket := l.bucket.refill now, now }
  | .tryConsume =>
    match l.bucket.tryConsume now with
    | (bucket, true) => { bucket, now, log := (↑now, 1) :: l.log }
    | (bucket, false) => { l with bucket, now }
  | .refund => { bucket := l.bucket.refund, now, log := (↑now, -1) :: l.log }

structure Sound (perMinute burst : ℕ) (l : LaunchLog) : Prop where
  refills : l.bucket.refillPerMinute = perMinute
  bursts : l.bucket.burstScaled = burst
  later : l.bucket.lastRefillAt ≤ l.now
  metered : Metered (1000 * perMinute : ℤ) (1000000 * (60000 * burst + 59999)) (l.bucket.grown l.now) l.now
    (l.log.map fun (time, launches) => (time, launchCost * launches))

section Change

variable {b : DemandLaunchTokenBucket} (sound : l.Sound perMinute burst)
  (refills : b.refillPerMinute = l.bucket.refillPerMinute) (bursts : b.burstScaled = l.bucket.burstScaled)

include sound refills bursts

theorem Sound.wait (later : l.now ≤ now) (before : b.lastRefillAt ≤ now)
    (grown : b.grown now ≤ l.bucket.grown l.now + l.bucket.rate * (now - l.now)) :
    ({ l with bucket := b, now } : LaunchLog).Sound perMinute burst := by
  obtain ⟨rfl, rfl, -, metered⟩ := sound
  refine ⟨refills, bursts, before, metered.refill l.bucket.rate_nonneg (Nat.cast_le.mpr later) ?_ grown⟩
  rw [← bursts]
  exact min_le_left ..

/-- A token is taken or given back. -/
theorem Sound.pay (launches : ℤ) (before : b.lastRefillAt ≤ l.now)
    (enough : launchCost * launches ≤ l.bucket.grown l.now)
    (grown : b.grown l.now ≤ l.bucket.grown l.now - launchCost * launches) :
    ({ l with bucket := b, log := (↑l.now, launches) :: l.log } : LaunchLog).Sound perMinute burst := by
  obtain ⟨rfl, rfl, -, metered⟩ := sound
  have growing := l.bucket.rate_nonneg
  refine ⟨refills, bursts, before, (metered.take growing enough).refill growing (le_refl _) ?_ ?_⟩
  · rw [← bursts]
    exact min_le_left ..
  · rw [sub_self, mul_zero, add_zero]
    exact grown

end Change

theorem Sound.step (sound : l.Sound perMinute burst) (later : l.now ≤ now) (call : LaunchCall) :
    (l.step now call).Sound perMinute burst := by
  have before := sound.later.trans later
  have stamp := l.bucket.lastRefillAt_refill before
  have refilled := sound.wait l.bucket.kept_refill.1 l.bucket.kept_refill.2 later stamp.le
    ((l.bucket.grown_refill_le before).trans (l.bucket.grown_le_add later))
  cases call with
  | refill => exact refilled
  | tryConsume =>
    by_cases few : (l.bucket.refill now).tokensScaled < dhtPlannerTokenScale
    · simp only [LaunchLog.step, tryConsume, if_pos few]
      exact refilled
    simp only [LaunchLog.step, tryConsume, if_neg few]
    have last : (l.bucket.refill now).consume.lastRefillAt ≤ now := by simp [consume, stamp]
    have grown := (l.bucket.refill now).grown_consume_le (not_lt.mp few)
    have left := grown_nonneg _ last
    rw [stamp] at grown
    exact refilled.pay (by simp [consume]) (by simp [consume]) 1 last (by linarith) (by linarith)
  | refund =>
    have waited := sound.wait rfl rfl later before (l.bucket.grown_le_add later)
    have left := l.bucket.grown_nonneg before
    have grown := l.bucket.grown_refund_le now
    refine waited.pay (by simp [refund]) (by simp [refund]) (-1) (by simpa [refund] using before) ?_ ?_
    · simp only [launchCost]
      omega
    · linarith

end LaunchLog

theorem between_map_mul (c : ℤ) (log : List (ℤ × ℤ)) (first last : ℤ) :
    between (log.map fun (time, amount) => (time, c * amount)) first last = c * between log first last := by
  induction log with
  | nil => simp
  | cons entry log ih => rw [List.map_cons, between_cons, between_cons, ih, mul_add, mul_ite, mul_zero]

variable {l : LaunchLog}

/-- The launches of any span of time are bounded by the burst and the rate. -/
theorem launches_within_budget (refillPerMinute burst started : ℕ)
    (run : Steps (fun (now, call) l m => l.step now call = m) (fun l (now, _) => l.now ≤ now)
      (LaunchLog.start refillPerMinute burst started) l) (first spanMs : ℕ) :
    between l.log first (first + spanMs * 1000000) ≤ burst + divCeil (refillPerMinute * spanMs) 60000 := by
  have sound := run.preserves (·.Sound refillPerMinute (min (burst * dhtPlannerTokenScale) (2 ^ 64 - 1)))
    (fun l m (now, call) later step sound => step ▸ sound.step later call)
    ⟨rfl, rfl, le_refl _, .start (min_le_left ..) (grown_nonneg _ (le_refl _)) (by omega)⟩
  have bounded := sound.metered.bounded first (first + spanMs * 1000000) (by omega)
  have elapsed : (1000 * refillPerMinute * (first + spanMs * 1000000 - first) : ℤ) =
      1000000000 * (refillPerMinute * spanMs : ℕ) := by
    push_cast
    ring
  rw [between_map_mul, elapsed] at bounded
  simp only [divCeil, launchCost, dhtPlannerTokenScale] at bounded ⊢
  omega

/-- A launch, a refill after a second, another launch that is given back, and one more. -/
theorem launches_within_budget_refunded : ∃ l : LaunchLog, between l.log (0 : ℕ) ((0 : ℕ) + 1500 * 1000000) = 2 ∧
    between l.log (0 : ℕ) ((0 : ℕ) + 1500 * 1000000) ≤ (1 : ℕ) + divCeil (60 * 1500) 60000 := by
  obtain ⟨l, run, launched⟩ := Steps.exists_replay (fun l (now, _) => l.now ≤ now)
    (fun l (now, call) => some (l.step now call)) (fun l (now, _) => decide (l.now ≤ now))
    [(0, .tryConsume), (0, .tryConsume), (1000000000, .refill), (1000000000, .tryConsume), (1500000000, .refund),
      (1500000000, .tryConsume)] (LaunchLog.start 60 1 0)
    (fun l => between l.log (0 : ℕ) ((0 : ℕ) + 1500 * 1000000) = 2) (fun _ _ _ => of_decide_eq_true) (by decide +kernel)
  exact ⟨l, launched, launches_within_budget 60 1 0 (run.mono_move fun _ _ _ => Option.some.inj) 0 1500⟩

end Superseedr
