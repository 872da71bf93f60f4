import Mathlib.Data.Rat.Defs
import Mathlib.Algebra.Order.Field.Rat
import Mathlib.Order.WithBot

/-! # Rate limiting

A bucket holds tokens that are refilled at a rate up to a capacity. A task that wants to send or has
received some bytes waits until the bucket has as many tokens and takes them. Amounts and times are exact;
an infinite bucket lets everything through. A request for more than the capacity never looks at the tokens:
it sleeps as long as the rate would need for it.
-/

namespace Superseedr

/-- A bucket with finite capacity. Its tokens stay between none and the capacity. -/
structure TokenBucketInner where
  lastRefillTime : ℚ
  tokens : ℚ
  fillRate : ℚ
  capacity : ℚ
  nonneg : 0 ≤ tokens
  within : tokens ≤ capacity
  growing : 0 ≤ fillRate

namespace TokenBucketInner

variable (inner : TokenBucketInner) (now : ℚ)

def refilled : ℚ :=
  if inner.fillRate > 0 then
    min (inner.tokens + max 0 (now - inner.lastRefillTime) * inner.fillRate) inner.capacity
  else inner.tokens

theorem refilled_nonneg : 0 ≤ inner.refilled now := by
  unfold refilled
  split_ifs
  · have elapsed := mul_nonneg (le_max_left 0 (now - inner.lastRefillTime)) inner.growing
    exact le_min (add_nonneg inner.nonneg elapsed) (inner.nonneg.trans inner.within)
  · exact inner.nonneg

theorem refilled_le : inner.refilled now ≤ inner.capacity := by
  unfold refilled
  split_ifs
  · exact min_le_right ..
  · exact inner.within

def refill : TokenBucketInner :=
  { inner with
    lastRefillTime := now
    tokens := inner.refilled now
    nonneg := inner.refilled_nonneg now
    within := inner.refilled_le now }

def take (amount : ℚ) (positive : 0 ≤ amount) (enough : amount ≤ inner.tokens) : TokenBucketInner :=
  { inner with
    tokens := inner.tokens - amount
    nonneg := sub_nonneg.mpr enough
    within := (sub_le_self _ positive).trans inner.within }

end TokenBucketInner

inductive TokenBucket where
  | infinite
  | limited (inner : TokenBucketInner)

namespace TokenBucket

/-- A full bucket. Negative arguments count as zero. -/
def full (now fillRate capacity : ℚ) : TokenBucketInner where
  lastRefillTime := now
  tokens := max capacity 0
  fillRate := max fillRate 0
  capacity := max capacity 0
  nonneg := le_max_right ..
  within := le_refl _
  growing := le_max_right ..

def setRate (now : ℚ) : WithTop ℚ → TokenBucket
  | some newFillRate => limited (full now newFillRate newFillRate)
  | none => infinite

def setRateWithCapacityPreservingTokens (bucket : TokenBucket) (now : ℚ) :
    (newFillRate : WithTop ℚ) → (newCapacity : ℚ) → TokenBucket
  | none, _ => infinite
  | some newFillRate, newCapacity =>
    let rate := max newFillRate 0
    let capacity := max (max newCapacity (min rate 1)) 0
    let tokens := match bucket with
      | infinite => capacity
      | limited inner => min (inner.refilled now) capacity
    limited
      { lastRefillTime := now
        tokens := tokens
        fillRate := rate
        capacity := capacity
        nonneg := by
          cases bucket with
          | infinite => exact le_max_right ..
          | limited inner => exact le_min (inner.refilled_nonneg now) (le_max_right ..)
        within := by
          cases bucket with
          | infinite => exact le_refl _
          | limited inner => exact min_le_right ..
        growing := le_max_right .. }

end TokenBucket

/-- Where a call of `consume_tokens` stands. In the loop its amount is positive. -/
inductive Consumer where
  | entering (amountTokens : ℚ)
  /-- In the loop, about to look at the tokens. -/
  | checking (amountTokens : { amount : ℚ // 0 < amount }) (currentFillRate : ℚ)
  /-- In the loop, asleep. -/
  | waiting (amountTokens : { amount : ℚ // 0 < amount }) (currentFillRate wakeAt : ℚ)
  /-- Asleep for a request that is larger than the capacity. -/
  | sleeping (amountTokens wakeAt : ℚ)
  /-- Waiting forever. -/
  | pending
  | returned
deriving DecidableEq, Repr

/-- The longest sleep for a request that is larger than the capacity; beyond it there is none. -/
def sleepLimit : ℚ := 60 * 5

/-- The part of `consume_tokens` before the loop. -/
def TokenBucket.enter (now amountTokens : ℚ) : TokenBucket → Consumer
  | .infinite => .returned
  | .limited inner =>
    if nothing : amountTokens ≤ 0 then .returned
    else if inner.fillRate ≤ 0 then .pending
    else if amountTokens > inner.capacity then
      if amountTokens / inner.fillRate < sleepLimit then .sleeping amountTokens (now + amountTokens / inner.fillRate)
      else .returned
    else .checking ⟨amountTokens, not_le.mp nothing⟩ inner.fillRate

/-- One round of the loop of `consume_tokens`. -/
def TokenBucket.check (now : ℚ) (amountTokens : { amount : ℚ // 0 < amount }) (currentFillRate : ℚ) :
    TokenBucket → TokenBucket × Consumer
  | .infinite => (.infinite, .returned)
  | .limited inner =>
    let refilled := inner.refill now
    if enough : amountTokens.1 ≤ refilled.tokens then
      (.limited (refilled.take amountTokens amountTokens.2.le enough), .returned)
    else
      let waitTime := max ((amountTokens.1 - refilled.tokens) / currentFillRate) (1 / 1000)
      (.limited refilled, .waiting amountTokens currentFillRate (now + waitTime))

/-- A bucket with the calls that use it, and for the record the sizes of all requests and when they were admitted. -/
structure Limiter where
  now : ℚ
  bucket : TokenBucket
  consumers : List Consumer
  requested : List ℚ
  admitted : List (ℚ × ℚ)

namespace Limiter

/-- What happens around a bucket: time passes, a call is made, a call runs up to its next sleep, the rate is set. -/
inductive Event where
  | elapse (duration : ℚ)
  | request (amountTokens : ℚ)
  | poll (i : ℕ)
  | setRate (newFillRate : WithTop ℚ)
  | setRateWithCapacityPreservingTokens (newFillRate : WithTop ℚ) (newCapacity : ℚ)
deriving DecidableEq

def proceed (l : Limiter) (i : ℕ) (amountTokens : ℚ) (bucket : TokenBucket) (consumer : Consumer) : Limiter :=
  { l with
    bucket := bucket
    consumers := l.consumers.set i consumer
    admitted := if consumer = .returned then (l.now, amountTokens) :: l.admitted else l.admitted }

/-- A call runs up to its next sleep. Sleeping calls go on when their time has come. -/
def poll (l : Limiter) (i : ℕ) : Consumer → Option Limiter
  | .entering amountTokens => some (l.proceed i amountTokens l.bucket (l.bucket.enter l.now amountTokens))
  | .checking amountTokens currentFillRate =>
    let (bucket, consumer) := l.bucket.check l.now amountTokens currentFillRate
    some (l.proceed i amountTokens bucket consumer)
  | .waiting amountTokens currentFillRate wakeAt =>
    if wakeAt ≤ l.now then some (l.proceed i amountTokens l.bucket (.checking amountTokens currentFillRate)) else none
  | .sleeping amountTokens wakeAt =>
    if wakeAt ≤ l.now then some (l.proceed i amountTokens l.bucket .returned) else none
  | .pending | .returned => none

/-- What an event leads to, if it is possible. -/
def next (l : Limiter) : Event → Option Limiter
  | .elapse duration => if 0 ≤ duration then some { l with now := l.now + duration } else none
  | .request amountTokens =>
    some { l with consumers := l.consumers ++ [.entering amountTokens], requested := amountTokens :: l.requested }
  | .poll i => l.consumers[i]?.bind (l.poll i)
  | .setRate newFillRate => some { l with bucket := .setRate l.now newFillRate }
  | .setRateWithCapacityPreservingTokens newFillRate newCapacity =>
    some { l with bucket := l.bucket.setRateWithCapacityPreservingTokens l.now newFillRate newCapacity }

/-- A bucket that nobody uses yet. -/
def start (now : ℚ) (bucket : TokenBucket) : Limiter := ⟨now, bucket, [], [], []⟩

def largest (l : Limiter) : ℚ := l.requested.foldr max 0

end Limiter

end Superseedr
