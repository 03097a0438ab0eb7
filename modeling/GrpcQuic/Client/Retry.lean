import Mathlib.Data.Rat.Floor
import Mathlib.Algebra.Order.Field.Rat
import Mathlib.Algebra.Order.Field.Basic

/-! # Retry policy and its backoff schedule

The multiplier is read as an exact rational and `powi` as the exact integer
power. The two casts of `backoff_for` are kept: the attempt index becomes a
signed 32-bit exponent and the milliseconds saturate at 64 bits.
-/
namespace GrpcQuic.Retry

/-- A `Duration` in nanoseconds. -/
abbrev Duration := ℕ

def Duration.fromMillis (millis : ℕ) : Duration := millis * 1000000
def Duration.asMillis (d : Duration) : ℕ := d / 1000000

structure RetryPolicy where
  maxAttempts : ℕ
  initialBackoff : Duration
  backoffMultiplier : ℚ
  maxBackoff : Duration

def RetryPolicy.default : RetryPolicy where
  maxAttempts := 5
  initialBackoff := Duration.fromMillis 100
  backoffMultiplier := 2
  maxBackoff := Duration.fromMillis 30000

def asI32 (n : ℕ) : ℤ := Int.bmod n (2 ^ 32)

/-- `x as u64` on a float: truncation that saturates at both ends. -/
def asU64 (x : ℚ) : ℕ := min ⌊x⌋.toNat (2 ^ 64 - 1)

def RetryPolicy.backoffFor (policy : RetryPolicy) (attempt : ℕ) : Duration :=
  let factor := policy.backoffMultiplier ^ asI32 attempt
  let millis := asU64 ((policy.initialBackoff.asMillis : ℚ) * factor)
  min (Duration.fromMillis millis) policy.maxBackoff

theorem RetryPolicy.backoffFor_le_maxBackoff (policy : RetryPolicy) (attempt : ℕ) :
    policy.backoffFor attempt ≤ policy.maxBackoff := Nat.min_le_right _ _

end GrpcQuic.Retry
