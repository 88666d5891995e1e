import Mathlib

/-! `core::time::Duration` as a whole number of nanoseconds, with `saturating_mul` saturating at
`Duration::MAX`. -/

namespace Duration

def nanosPerSec : ℕ := 1000000000

/-- `Duration::MAX`. -/
def max : ℕ := 2 ^ 64 * nanosPerSec - 1

def fromSecs (secs : ℕ) : ℕ := secs * nanosPerSec

def fromNanos (nanos : ℕ) : ℕ := nanos

/-- `as_secs`: the whole seconds. -/
def asSecs (d : ℕ) : ℕ := d / nanosPerSec

/-- `saturating_mul`: the product while its seconds fit in `u64`. -/
def saturatingMul (d k : ℕ) : ℕ := min (d * k) max

theorem saturatingMul_of_le {d k : ℕ} (h : d * k ≤ max) : saturatingMul d k = d * k :=
  min_eq_left h

theorem asSecs_fromSecs (secs : ℕ) : asSecs (fromSecs secs) = secs :=
  Nat.mul_div_cancel secs (by decide)

end Duration
