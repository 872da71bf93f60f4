import Superseedr.ToMathlib.LabeledSteps
import Superseedr.ToMathlib.Meter
import Superseedr.Model.TokenBucket

/-! # What a token bucket admits

Calls that are admitted by the loop pay with tokens, so that a bucket of constant rate is a meter and bounds
what is admitted in any span of time, whatever the order in which the calls run. A request for more than the
capacity is not paid for: it only sleeps, and so do all others of its kind at the same time.
-/

namespace Superseedr

open Meter TokenBucket

variable {now amountTokens : ℚ} {i : ℕ} {consumer : Consumer} {event : Limiter.Event}

theorem TokenBucketInner.refilled_le_grown {inner : TokenBucketInner} (later : inner.lastRefillTime ≤ now) :
    inner.refilled now ≤ inner.tokens + inner.fillRate * (now - inner.lastRefillTime) := by
  have elapsed := sub_nonneg.mpr later
  unfold refilled
  split_ifs
  · rw [max_eq_right elapsed, mul_comm inner.fillRate]
    exact min_le_left ..
  · have grown := mul_nonneg inner.growing elapsed
    linarith

namespace Consumer

def Fits (capacity : ℚ) : Consumer → Prop
  | .entering amountTokens => amountTokens ≤ capacity
  | .sleeping .. => False
  | _ => True

end Consumer

namespace Limiter

def Event.keepsRate : Event → Bool
  | .setRate _ | .setRateWithCapacityPreservingTokens .. => false
  | _ => true

def Event.fits (capacity : ℚ) : Event → Bool
  | .request amountTokens => amountTokens ≤ capacity
  | _ => true

structure Sound (rate capacity : ℚ) (l : Limiter) : Prop where
  metered : ∃ inner, l.bucket = .limited inner ∧ inner.fillRate = rate ∧ inner.capacity = capacity ∧
    inner.lastRefillTime ≤ l.now ∧ Metered rate capacity inner.tokens inner.lastRefillTime l.admitted
  fits : ∀ consumer ∈ l.consumers, consumer.Fits capacity

variable {rate capacity : ℚ} {l m : Limiter}

theorem fits_set {consumers : List Consumer} (fits : ∀ other ∈ consumers, other.Fits capacity)
    (fitting : consumer.Fits capacity) : ∀ other ∈ consumers.set i consumer, other.Fits capacity := by
  intro other member
  rcases List.mem_or_eq_of_mem_set member with old | rfl
  · exact fits other old
  · exact fitting

section

variable (sound : l.Sound rate capacity)
include sound

/-- Before the loop a call returns only with nothing, and does not fall asleep. -/
theorem sound_enter (small : amountTokens ≤ capacity) :
    (l.proceed i amountTokens l.bucket (l.bucket.enter l.now amountTokens)).Sound rate capacity := by
  obtain ⟨inner, isInner, sameRate, sameCapacity, later, metered⟩ := sound.metered
  have notLarge : ¬amountTokens > inner.capacity := by
    rw [sameCapacity]
    exact not_lt.mpr small
  rw [isInner, enter]
  split_ifs with nothing stopped
  · exact ⟨⟨inner, rfl, sameRate, sameCapacity, later, metered.free nothing⟩, fits_set sound.fits trivial⟩
  · exact ⟨⟨inner, rfl, sameRate, sameCapacity, later, metered⟩, fits_set sound.fits trivial⟩
  · exact ⟨⟨inner, rfl, sameRate, sameCapacity, later, metered⟩, fits_set sound.fits trivial⟩

theorem sound_check {amountTokens : { amount : ℚ // 0 < amount }} {currentFillRate : ℚ} :
    (l.proceed i amountTokens (l.bucket.check l.now amountTokens currentFillRate).1
      (l.bucket.check l.now amountTokens currentFillRate).2).Sound rate capacity := by
  obtain ⟨inner, isInner, rfl, rfl, later, metered⟩ := sound.metered
  have refilled := metered.refill inner.growing later (inner.refilled_le _) (TokenBucketInner.refilled_le_grown later)
  rw [isInner]
  simp only [check]
  split_ifs with enough
  · exact ⟨⟨_, rfl, rfl, rfl, le_refl _, refilled.take inner.growing enough⟩, fits_set sound.fits trivial⟩
  · exact ⟨⟨_, rfl, rfl, rfl, le_refl _, refilled⟩, fits_set sound.fits trivial⟩

theorem sound_poll (present : l.consumers[i]? = some consumer) (step : l.poll i consumer = some m) :
    m.Sound rate capacity := by
  have fitting := sound.fits consumer (List.mem_of_getElem? present)
  cases consumer with
  | entering amountTokens =>
    cases step
    exact sound_enter sound fitting
  | checking amountTokens currentFillRate =>
    cases step
    exact sound_check sound
  | waiting amountTokens currentFillRate wakeAt =>
    rw [poll] at step
    split_ifs at step
    cases step
    exact ⟨sound.metered, fits_set sound.fits trivial⟩
  | sleeping amountTokens wakeAt => exact fitting.elim
  | pending | returned => cases step

theorem sound_next (constant : event.keepsRate = true) (small : event.fits capacity = true)
    (step : l.next event = some m) : m.Sound rate capacity := by
  cases event with
  | elapse duration =>
    simp only [next] at step
    split_ifs at step with forward
    cases step
    obtain ⟨inner, isInner, sameRate, sameCapacity, later, metered⟩ := sound.metered
    exact ⟨⟨inner, isInner, sameRate, sameCapacity, later.trans (le_add_of_nonneg_right forward), metered⟩, sound.fits⟩
  | request amountTokens =>
    cases step
    have within : amountTokens ≤ capacity := of_decide_eq_true small
    exact ⟨sound.metered, List.forall_mem_append.mpr ⟨sound.fits, List.forall_mem_singleton.mpr within⟩⟩
  | poll i =>
    obtain ⟨consumer, present, step⟩ := Option.bind_eq_some_iff.mp step
    exact sound_poll sound present step
  | setRate | setRateWithCapacityPreservingTokens => cases constant

end

theorem largest_nonneg (l : Limiter) : 0 ≤ l.largest := by
  unfold largest
  induction l.requested with
  | nil => exact le_refl _
  | cons amount rest ih => exact ih.trans (le_max_right ..)

/-- While the rate is constant and no request is larger than the capacity, what is admitted in a span of time is at
most the capacity, what is refilled in that time and one largest request. -/
theorem admitted_within_rate {inner : TokenBucketInner} (created : inner.lastRefillTime ≤ now)
    (run : Steps (fun event before after => Limiter.next before event = some after)
      (fun _ event => event.keepsRate = true ∧ event.fits inner.capacity = true) (start now (.limited inner)) l)
    {first duration : ℚ} (forward : 0 ≤ duration) :
    between l.admitted first (first + duration) ≤ inner.capacity + inner.fillRate * duration + l.largest := by
  have sound : l.Sound inner.fillRate inner.capacity := by
    refine run.preserves (Sound inner.fillRate inner.capacity)
      (fun _ _ _ admitted step before => sound_next before admitted.1 admitted.2 step) ?_
    exact ⟨⟨inner, rfl, rfl, rfl, created, .start inner.within inner.nonneg inner.growing⟩, by simp [start]⟩
  obtain ⟨_, -, -, -, -, metered⟩ := sound.metered
  have bounded := metered.bounded first (first + duration) (le_add_of_nonneg_right forward)
  have largest := l.largest_nonneg
  rw [add_sub_cancel_left] at bounded
  linarith

namespace TwoLargeRequests

/-- A bucket for ten tokens that gets one a second. -/
def tenTokens : TokenBucketInner := full 0 1 10

/-- Two requests for twenty tokens each, made at the same time. -/
def events : List Event := [.request 20, .request 20, .poll 0, .poll 1, .elapse 20, .poll 0, .poll 1]

def smallEvents : List Event := [.request 5, .request 5, .poll 0, .poll 1, .poll 0, .poll 1]

end TwoLargeRequests

open TwoLargeRequests in
/-- Two requests that are larger than the capacity sleep next to each other and are admitted together. -/
theorem large_requests_overlap : ∃ l : Limiter,
    Steps (fun event before after => Limiter.next before event = some after) (fun _ event => event.keepsRate = true)
      (start 0 (.limited tenTokens)) l ∧ 0 < tenTokens.fillRate ∧
      tenTokens.capacity + tenTokens.fillRate * 0 + l.largest < between l.admitted 20 (20 + 0) := by
  exact Steps.exists_replay _ next (fun _ event => event.keepsRate) events (start 0 (.limited tenTokens))
    (fun l => 0 < tenTokens.fillRate ∧
      tenTokens.capacity + tenTokens.fillRate * 0 + l.largest < between l.admitted 20 (20 + 0))
    (fun _ _ _ constant => constant) (by decide +kernel)

open TwoLargeRequests in
/-- Two small requests are admitted at once, and the bound holds for them. -/
theorem small_requests_admitted : ∃ l : Limiter, between l.admitted 0 (0 + 0) = 10 ∧
    between l.admitted 0 (0 + 0) ≤ tenTokens.capacity + tenTokens.fillRate * 0 + l.largest := by
  obtain ⟨l, run, admitted⟩ := Steps.exists_replay
    (fun _ event => Event.keepsRate event = true ∧ Event.fits tenTokens.capacity event = true) next
    (fun _ event => event.keepsRate && event.fits tenTokens.capacity) smallEvents (start 0 (.limited tenTokens))
    (fun l => between l.admitted 0 (0 + 0) = 10) (fun _ _ _ allowed => Bool.and_eq_true_iff.mp allowed)
    (by decide +kernel)
  exact ⟨l, admitted, admitted_within_rate (le_refl 0) run (le_refl 0)⟩

end Limiter

end Superseedr
