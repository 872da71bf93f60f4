import Mathlib.Algebra.Ring.Int.Defs
import Mathlib.Algebra.Ring.Nat
import Mathlib.Data.Nat.Basic
import Mathlib.Data.Int.Basic

/-! # Fixed-width arithmetic and failing computations

Counters and indices are natural numbers; where the program narrows one, the narrowing is written
out. Signed metadata fields are integers and become unsigned by two's complement. A computation
that can panic returns an `Option`, and `none` means that the program stops there.
-/

namespace Superseedr

abbrev Bytes := List UInt8

def u32 (x : ℕ) : ℕ := x % 2 ^ 32

/-- `x as u64`, and the wrapping result of 64-bit arithmetic. -/
def u64 (x : ℕ) : ℕ := x % 2 ^ 64

/-- `x as u64` for a signed `x`. -/
def asU64 (x : ℤ) : ℕ := (x % 2 ^ 64).toNat

/-- `x as u32` for a signed `x`. -/
def asU32 (x : ℤ) : ℕ := (x % 2 ^ 32).toNat

/-- `u32::saturating_add`. -/
def satAdd32 (x y : ℕ) : ℕ := min (x + y) (2 ^ 32 - 1)

/-- `u64::saturating_add`. -/
def satAdd64 (x y : ℕ) : ℕ := min (x + y) (2 ^ 64 - 1)

/-- `usize::MAX` on the 64-bit targets. -/
def usizeMax : ℕ := 2 ^ 64 - 1

def divCeil (x y : ℕ) : ℕ := (x + y - 1) / y

private def trailingZerosAux : ℕ → ℕ → ℕ
  | 0, _ => 0
  | fuel + 1, x => if x % 2 = 1 then 0 else trailingZerosAux fuel (x / 2) + 1

/-- `u64::trailing_zeros`. -/
def trailingZeros (x : ℕ) : ℕ := trailingZerosAux 64 x

theorem u32_of_lt {x : ℕ} (small : x < 2 ^ 32) : u32 x = x := Nat.mod_eq_of_lt small

theorem u64_of_lt {x : ℕ} (small : x < 2 ^ 64) : u64 x = x := Nat.mod_eq_of_lt small

end Superseedr
