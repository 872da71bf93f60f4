import Superseedr.Model.Basic

/-! # The launch budget of the demand planner

Each class of demands has a bucket of launches, counted in thousandths. A refill turns the elapsed milliseconds into
launches and carries the rest of the division. Instants are nanoseconds.
-/

namespace Superseedr

def dhtPlannerTokenScale : ℕ := 1000

/-- The saturating result of 128-bit arithmetic. -/
def sat128 (x : ℕ) : ℕ := min x (2 ^ 128 - 1)

/-- A bucket holds at most its burst, and what it carries over is below the divisor. -/
structure DemandLaunchTokenBucket where
  tokensScaled : ℕ
  burstScaled : ℕ
  refillPerMinute : ℕ
  refillRemainder : ℕ
  lastRefillAt : ℕ
  tokens_le : tokensScaled ≤ burstScaled
  burst_lt : burstScaled < 2 ^ 64
  remainder_lt : refillRemainder < 60000

namespace DemandLaunchTokenBucket

variable (b : DemandLaunchTokenBucket) (now : ℕ)

def new (refillPerMinute burst now : ℕ) : DemandLaunchTokenBucket where
  tokensScaled := min (burst * dhtPlannerTokenScale) (2 ^ 64 - 1)
  burstScaled := min (burst * dhtPlannerTokenScale) (2 ^ 64 - 1)
  refillPerMinute
  refillRemainder := 0
  lastRefillAt := now
  tokens_le := le_refl _
  burst_lt := Nat.lt_of_le_pred (by decide) (min_le_right ..)
  remainder_lt := by decide

/-- What the elapsed milliseconds and the carried rest are worth, in parts of a thousandth. -/
def refillUnits : ℕ :=
  let elapsedMs := (now - b.lastRefillAt) / 1000000
  sat128 (sat128 (sat128 (b.refillPerMinute * dhtPlannerTokenScale) * elapsedMs) + b.refillRemainder)

def refill : DemandLaunchTokenBucket :=
  if now - b.lastRefillAt = 0 then b
  else
    let tokensScaled := min (satAdd64 b.tokensScaled (u64 (b.refillUnits now / 60000))) b.burstScaled
    { b with
      tokensScaled
      refillRemainder := if tokensScaled = b.burstScaled then 0 else b.refillUnits now % 60000
      lastRefillAt := now
      tokens_le := min_le_right ..
      remainder_lt := by split <;> omega }

/-- Take a token that is there. -/
def consume : DemandLaunchTokenBucket :=
  { b with
    tokensScaled := b.tokensScaled - dhtPlannerTokenScale
    tokens_le := le_trans (Nat.sub_le ..) b.tokens_le }

/-- Whether there was a token to launch with. -/
def tryConsume : DemandLaunchTokenBucket × Bool :=
  let b := b.refill now
  if b.tokensScaled < dhtPlannerTokenScale then (b, false) else (b.consume, true)

def refund : DemandLaunchTokenBucket :=
  { b with
    tokensScaled := min (satAdd64 b.tokensScaled dhtPlannerTokenScale) b.burstScaled
    tokens_le := min_le_right .. }

end DemandLaunchTokenBucket

end Superseedr
