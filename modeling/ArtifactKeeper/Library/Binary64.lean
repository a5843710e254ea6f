import Mathlib.Tactic.Linarith
import Mathlib.Tactic.Ring

/-!
# Nonnegative binary64 numbers

A nonnegative finite double is kept as a fraction `num / den`.  `round p q` is the double nearest to
`p / q`, a tie going to the even mantissa; the exponent range is not modelled.
-/

/-- A nonnegative double, as the fraction it stands for. -/
structure Binary64 where
  num : ℕ
  den : ℕ
  deriving DecidableEq

namespace Binary64

open Nat

/-- `p / q` to the nearest integer, a tie to the even one. -/
def nearest (p q : ℕ) : ℕ :=
  if 2 * (p % q) < q ∨ 2 * (p % q) = q ∧ p / q % 2 = 0 then p / q else p / q + 1

/-- The scale at which a fraction below `2 ^ 52` has a mantissa of 53 bits. -/
def scale (p q : ℕ) : ℕ :=
  let k := 52 + q.log2 - p.log2
  if q * 2 ^ 52 ≤ p * 2 ^ k then k else k + 1

/-- The double nearest to `p / q`. -/
def round (p q : ℕ) : Binary64 :=
  if p = 0 then ⟨0, 1⟩
  else if q * 2 ^ 52 ≤ p then
    -- the unit in the last place is an integer
    let e := (p / q).log2 - 52
    ⟨nearest p (q * 2 ^ e) * 2 ^ e, 1⟩
  else
    let k := scale p q
    ⟨nearest (p * 2 ^ k) q, 2 ^ k⟩

def ofNat (n : ℕ) : Binary64 := round n 1

def div (x y : Binary64) : Binary64 := round (x.num * y.den) (x.den * y.num)

/-- The least integer that is not below the number. -/
def ceil (x : Binary64) : ℕ := (x.num + x.den - 1) / x.den

/-! ### Rounding -/

variable {p q n d : ℕ}

theorem nearest_of_dvd (positive : 0 < q) (divides : q ∣ p) : nearest p q = p / q := by
  have exact := mod_eq_zero_of_dvd divides
  unfold nearest
  exact if_pos (.inl (by omega))

/-- The nearest integer is off by at most one half. -/
theorem nearest_bounds (positive : 0 < q) :
    2 * (nearest p q * q) ≤ 2 * p + q ∧ 2 * p ≤ 2 * (nearest p q * q) + q := by
  have parts := div_add_mod' p q
  have less := mod_lt p positive
  unfold nearest
  split_ifs with low
  · omega
  · rw [add_mul]
    omega

theorem nearest_mul_right {t : ℕ} (positive : 0 < t) : nearest (p * t) (q * t) = nearest p q := by
  have cut : 2 * (p % q * t) < q * t ↔ 2 * (p % q) < q := by
    rw [← Nat.mul_assoc, Nat.mul_lt_mul_right positive]
  have tie : 2 * (p % q * t) = q * t ↔ 2 * (p % q) = q := by
    rw [← Nat.mul_assoc, Nat.mul_left_inj (by omega)]
  unfold nearest
  simp only [Nat.mul_mod_mul_right, Nat.mul_div_mul_right _ _ positive, cut, tie]

theorem le_scale (nonzero : p ≠ 0) : q * 2 ^ 52 ≤ p * 2 ^ scale p q := by
  have below : q < 2 ^ (q.log2 + 1) := lt_log2_self
  have above : 2 ^ p.log2 ≤ p := log2_self_le nonzero
  unfold scale
  simp only
  split_ifs with enough
  · exact enough
  · calc q * 2 ^ 52 ≤ 2 ^ (q.log2 + 1) * 2 ^ 52 := mul_le_mul_right _ below.le
      _ = 2 ^ (q.log2 + 1 + 52) := (pow_add ..).symm
      _ ≤ 2 ^ (p.log2 + (52 + q.log2 - p.log2 + 1)) := Nat.pow_le_pow_right (by omega) (by omega)
      _ = 2 ^ p.log2 * 2 ^ (52 + q.log2 - p.log2 + 1) := pow_add ..
      _ ≤ p * 2 ^ (52 + q.log2 - p.log2 + 1) := mul_le_mul_right _ above

/-! ### Counting blocks -/

theorem ceil_eq_of_bounds {x : Binary64} {c : ℕ} (lower : c * x.den < x.num + x.den)
    (upper : x.num ≤ c * x.den) : x.ceil = c := by
  unfold ceil
  refine Nat.div_eq_of_lt_le (by omega) ?_
  rw [Nat.succ_mul]
  omega

/-- A double of at least `2 ^ 52` that is an integer below `2 ^ 53` is exact. -/
theorem round_eq_of_large (t : ℕ) (positive : 0 < t) (above : 2 ^ 52 ≤ n) (below : n < 2 ^ 53) :
    round (n * t) t = ⟨n, 1⟩ := by
  have log : n.log2 = 52 := (log2_eq_iff (by omega)).2 ⟨above, below⟩
  have nonzero : n * t ≠ 0 := mul_ne_zero (by omega) (by omega)
  have large : t * 2 ^ 52 ≤ n * t := by
    rw [mul_comm]
    exact mul_le_mul_right _ above
  unfold round
  rw [if_neg nonzero, if_pos large]
  simp only [Nat.mul_div_cancel _ positive, log, Nat.sub_self, pow_zero, Nat.mul_one]
  rw [nearest_of_dvd positive (Nat.dvd_mul_left ..), Nat.mul_div_cancel _ positive]

/-- The mantissa of a small quotient lies between the two integers around it. -/
theorem nearest_between {c k : ℕ} (positive : 0 < d) (fine : d < 2 * 2 ^ k)
    (lower : c * d < n + d) (upper : n ≤ c * d) :
    c * 2 ^ k < nearest (n * 2 ^ k) d + 2 ^ k ∧ nearest (n * 2 ^ k) d ≤ c * 2 ^ k := by
  by_cases divides : n = c * d
  · have same : n * 2 ^ k = c * 2 ^ k * d := by rw [divides]; ring
    rw [same, nearest_of_dvd positive (Nat.dvd_mul_left ..), Nat.mul_div_cancel _ positive]
    have := Nat.two_pow_pos k
    omega
  · obtain ⟨_, _⟩ := nearest_bounds (p := n * 2 ^ k) positive
    have strict : (n + 1) * 2 ^ k ≤ c * d * 2 ^ k := mul_le_mul_right _ (by omega)
    have strict' : (c * d + 1) * 2 ^ k ≤ (n + d) * 2 ^ k := mul_le_mul_right _ (by omega)
    constructor
    · by_contra no
      have low := mul_le_mul_right d (not_lt.1 no)
      nlinarith
    · by_contra no
      have high := mul_le_mul_right d (not_le.1 no)
      nlinarith

theorem ceil_round {t : ℕ} (scaled : 0 < t) (positive : 0 < d) (small : n < 2 ^ 53) :
    (round (n * t) (d * t)).ceil = (n + d - 1) / d := by
  have parts := div_add_mod' (n + d - 1) d
  have rest := mod_lt (n + d - 1) positive
  have upper : n ≤ (n + d - 1) / d * d := by omega
  have lower : (n + d - 1) / d * d < n + d := by omega
  by_cases zero : n = 0
  · subst zero
    rw [div_eq_of_lt (by omega)]
    simp [round, ceil]
  have nonzero : n * t ≠ 0 := mul_ne_zero zero (by omega)
  by_cases large : d * t * 2 ^ 52 ≤ n * t
  · have one : d = 1 := by
      have : d * 2 ^ 52 ≤ n := le_of_mul_le_mul_right (by linarith) scaled
      omega
    subst one
    rw [one_mul] at large ⊢
    rw [round_eq_of_large t scaled (le_of_mul_le_mul_right (by linarith) scaled) small]
    simp [ceil]
  · have wide := le_scale (q := d * t) nonzero
    have fine : d < 2 * 2 ^ scale (n * t) (d * t) := by
      have : d * 2 ^ 52 ≤ n * 2 ^ scale (n * t) (d * t) :=
        le_of_mul_le_mul_right (by linarith) scaled
      have := Nat.mul_lt_mul_of_pos_right small (Nat.two_pow_pos (scale (n * t) (d * t)))
      omega
    obtain ⟨above, below⟩ := nearest_between positive fine lower upper
    have same : nearest (n * t * 2 ^ scale (n * t) (d * t)) (d * t) =
        nearest (n * 2 ^ scale (n * t) (d * t)) d := by
      rw [mul_right_comm, nearest_mul_right scaled]
    unfold round
    rw [if_neg nonzero, if_neg large]
    refine ceil_eq_of_bounds ?_ ?_
    · simpa only [same] using above
    · simpa only [same] using below

/-- An integer below `2 ^ 53` is converted exactly. -/
theorem ofNat_eq (small : n < 2 ^ 53) : ∃ t, 0 < t ∧ (ofNat n).num = n * t ∧ (ofNat n).den = t := by
  unfold ofNat round
  split_ifs with zero large
  · exact ⟨1, by omega, by simp [zero], rfl⟩
  · refine ⟨1, by omega, ?_, rfl⟩
    have exact := round_eq_of_large 1 (by omega) (by omega) small
    have nonzero : n * 1 ≠ 0 := by omega
    unfold round at exact
    rw [if_neg nonzero, if_pos (by omega), mul_one] at exact
    rw [mul_one]
    exact congrArg num exact
  · refine ⟨2 ^ scale n 1, Nat.two_pow_pos _, ?_, rfl⟩
    simp only
    rw [nearest_of_dvd (by omega) (Nat.one_dvd _), Nat.div_one]

/-- Blocks of `d` that cover `n`, counted through doubles. -/
theorem ceil_div (positive : 0 < d) (small : n < 2 ^ 53) (small' : d < 2 ^ 53) :
    ((ofNat n).div (ofNat d)).ceil = (n + d - 1) / d := by
  obtain ⟨t, ht, num, den⟩ := ofNat_eq small
  obtain ⟨u, hu, num', den'⟩ := ofNat_eq small'
  have common : n * t * u = n * (t * u) := mul_assoc ..
  have common' : t * (d * u) = d * (t * u) := by ring
  rw [div, num, den, num', den', common, common']
  exact ceil_round (mul_pos ht hu) positive small

example : ((ofNat 10).div (ofNat 3)).ceil = 4 := by decide

end Binary64
