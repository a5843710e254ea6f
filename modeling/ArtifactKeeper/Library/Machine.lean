import Mathlib.Algebra.Order.Ring.Int

/-!
# Machine integers and time

Fixed-width integers are integers with the conversions a program applies to them; times and time
spans are integers counting microseconds.
-/

namespace Machine

def asI32 (x : ℤ) : ℤ := Int.bmod x (2 ^ 32)

def asI64 (x : ℤ) : ℤ := Int.bmod x (2 ^ 64)

def seconds (n : ℤ) : ℤ := n * 1000000

def asSecs (span : ℤ) : ℤ := span / 1000000

theorem asSecs_lt {span n : ℤ} : asSecs span < n ↔ span < seconds n := by
  simp only [asSecs, seconds]
  omega

def timestampMillis (at_ : ℤ) : ℤ := at_ / 1000

theorem timestampMillis_mono {a b : ℤ} (h : a ≤ b) : timestampMillis a ≤ timestampMillis b := by
  simp only [timestampMillis]
  omega

end Machine
