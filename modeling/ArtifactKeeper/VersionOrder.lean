import ArtifactKeeper.Library.Comparisons
import ArtifactKeeper.Library.Text
import Mathlib.Tactic.Ring

/-!
# Segments of versions

The comparisons of one segment of a version with another that the curation rules and the age gate
share.  Both are total preorders, and runs of digits are compared by value.
-/

namespace ArtifactKeeper.VersionOrder

open Comparisons List Text Char Nat

/-- Two runs of digits by value, without parsing them. -/
def compareDigitRuns (a b : Text) : Ordering :=
  let a := a.dropWhile (· = '0')
  let b := b.dropWhile (· = '0')
  (compare (byteLength a) (byteLength b)).then (compare a b)

variable (s : Text)

def splitLeadingDigits : Option Text × Text :=
  match s.takeWhile isDigit with
  | [] => (none, s)
  | digits => (some digits, s.dropWhile isDigit)

/-- Natural order: the leading digits by value, then the rest; without leading digits last. -/
def compareNaturalSegment (a b : Text) : Ordering :=
  match splitLeadingDigits a, splitLeadingDigits b with
  | (some da, ra), (some db, rb) => (compareDigitRuns da db).then (compare ra rb)
  | (some _, _), (none, _) => .lt
  | (none, _), (some _, _) => .gt
  | (none, ra), (none, rb) => compare ra rb

def numeric : Bool := !s.isEmpty && s.all isDigit

/-- Numeric identifiers by value and below the others. -/
def compareSemverPrereleaseIdentifier (a b : Text) : Ordering :=
  match numeric a, numeric b with
  | true, true => compareDigitRuns a b
  | true, false => .lt
  | false, true => .gt
  | false, false => compare a b

/-! ### Total preorders -/

/-- Without leading zeros, shorter runs come first. -/
def compareShortest (a b : Text) : Ordering :=
  (compare a.byteLength b.byteLength).then (compare a b)

instance transCmp_compareShortest : Std.TransCmp compareShortest :=
  inferInstanceAs (Std.TransCmp (compareLex (compareOn byteLength) compare))

instance transCmp_compareDigitRuns : Std.TransCmp compareDigitRuns :=
  transCmp_on compareShortest (dropWhile (· = '0'))

/-- Segments with leading digits are of the lower kind. -/
def naturalKey : (Text × Text) ⊕ Text :=
  match splitLeadingDigits s with
  | (some digits, rest) => .inl (digits, rest)
  | (none, rest) => .inr rest

theorem compareNaturalSegment_eq (a b : Text) :
    compareNaturalSegment a b =
      below (fun x y => (compareDigitRuns x.1 y.1).then (compare x.2 y.2)) compare (naturalKey a)
        (naturalKey b) := by
  unfold compareNaturalSegment naturalKey
  rcases splitLeadingDigits a with ⟨_ | _, _⟩ <;> rcases splitLeadingDigits b with ⟨_ | _, _⟩ <;> rfl

instance transCmp_compareNaturalSegment : Std.TransCmp compareNaturalSegment := by
  have byDigits := transCmp_on compareDigitRuns (Prod.fst : Text × Text → Text)
  have byRest := transCmp_on (compare : Text → Text → Ordering) (Prod.snd : Text × Text → Text)
  have both := transCmp_then (fun x y : Text × Text => compareDigitRuns x.1 y.1) fun x y =>
    compare x.2 y.2
  rw [funext₂ compareNaturalSegment_eq]
  exact transCmp_on _ naturalKey

/-- Numeric identifiers are of the lower kind. -/
def identifierKey : Text ⊕ Text := if numeric s then .inl s else .inr s

theorem compareSemverPrereleaseIdentifier_eq (a b : Text) :
    compareSemverPrereleaseIdentifier a b =
      below compareDigitRuns compare (identifierKey a) (identifierKey b) := by
  unfold compareSemverPrereleaseIdentifier identifierKey
  cases numeric a <;> cases numeric b <;> rfl

instance transCmp_compareSemverPrereleaseIdentifier :
    Std.TransCmp compareSemverPrereleaseIdentifier := by
  rw [funext₂ compareSemverPrereleaseIdentifier_eq]
  exact transCmp_on _ identifierKey

/-! ### Runs of digits by value -/

abbrev Digits : Prop := ∀ c ∈ s, c.isDigit = true

def value : ℕ := ofDigitChars 10 s 0

theorem compare_append_digit (a b : ℕ) {x y : ℕ} (left : x < 10) (right : y < 10) :
    compare (10 * a + x) (10 * b + y) = (compare a b).then (compare x y) := by
  rcases lt_trichotomy a b with less | rfl | greater
  · rw [Nat.compare_eq_lt.2 less, Nat.compare_eq_lt.2 (by omega)]
    rfl
  · rw [Nat.compare_eq_eq.2 rfl, Ordering.then]
    rcases lt_trichotomy x y with less | rfl | greater
    · rw [Nat.compare_eq_lt.2 less, Nat.compare_eq_lt.2 (by omega)]
    · rw [Nat.compare_eq_eq.2 rfl, Nat.compare_eq_eq.2 rfl]
    · rw [Nat.compare_eq_gt.2 greater, Nat.compare_eq_gt.2 (by omega)]
  · rw [Nat.compare_eq_gt.2 greater, Nat.compare_eq_gt.2 (by omega)]
    rfl

theorem compare_digit {c d : Char} (left : c.isDigit = true) (right : d.isDigit = true) :
    compare (c.toNat - '0'.toNat) (d.toNat - '0'.toNat) = compare c d := by
  have large := toNat_of_isDigit left
  have large' := toNat_of_isDigit right
  simp only [reduceToNat]
  rcases lt_trichotomy c.toNat d.toNat with less | same | greater
  · have less' : c < d := less
    rw [Nat.compare_eq_lt.2 (by omega)]
    simp [compare, compareOfLessAndEq, less']
  · obtain rfl := toNat_inj.1 same
    rw [Nat.compare_eq_eq.2 rfl, Std.ReflOrd.compare_self]
  · have less' : d < c := greater
    have heads : compare d c = .lt := by simp [compare, less']
    rw [Nat.compare_eq_gt.2 (by omega), Std.OrientedCmp.gt_iff_lt.2 heads]

variable {s t : Text}

theorem compare_ofDigitChars (left : Digits s) (right : Digits t) (same : s.length = t.length)
    (a b : ℕ) :
    compare (ofDigitChars 10 s a) (ofDigitChars 10 t b) = (compare a b).then (compare s t) := by
  induction s generalizing t a b with
  | nil =>
    obtain rfl := length_eq_zero_iff.1 same.symm
    simp
  | cons c s ih =>
    cases t with
    | nil => cases same
    | cons d t =>
      obtain ⟨first, rest⟩ := forall_mem_cons.1 left
      obtain ⟨first', rest'⟩ := forall_mem_cons.1 right
      have digit := toNat_of_isDigit first
      have digit' := toNat_of_isDigit first'
      rw [ofDigitChars_cons, ofDigitChars_cons, ih rest rest' (by simpa using same),
        compare_append_digit a b (by simp; omega) (by simp; omega), compare_digit first first',
        List.compare_cons_cons, Ordering.then_assoc]

theorem ofDigitChars_bounds (digits : Digits s) (a : ℕ) :
    a * 10 ^ s.length ≤ ofDigitChars 10 s a ∧ ofDigitChars 10 s a < (a + 1) * 10 ^ s.length := by
  induction s generalizing a with
  | nil => simp
  | cons c s ih =>
    obtain ⟨first, rest⟩ := forall_mem_cons.1 digits
    have digit := toNat_of_isDigit first
    obtain ⟨lower, upper⟩ := ih rest (10 * a + (c.toNat - '0'.toNat))
    have high : c.toNat - '0'.toNat ≤ 9 := by
      simp only [reduceToNat]
      omega
    rw [ofDigitChars_cons, length_cons, pow_succ]
    constructor
    · calc a * (10 ^ s.length * 10) = 10 * a * 10 ^ s.length := by ring
        _ ≤ (10 * a + (c.toNat - '0'.toNat)) * 10 ^ s.length := by gcongr; omega
        _ ≤ _ := lower
    · calc _ < (10 * a + (c.toNat - '0'.toNat) + 1) * 10 ^ s.length := upper
        _ ≤ (10 * a + 9 + 1) * 10 ^ s.length := by gcongr
        _ = (a + 1) * (10 ^ s.length * 10) := by ring

theorem value_dropWhile (s : Text) : value (s.dropWhile (· = '0')) = value s := by
  induction s with
  | nil => rfl
  | cons c s ih =>
    by_cases zero : c = '0'
    · subst zero
      simpa [value, ofDigitChars_cons] using ih
    · simp [zero]

theorem byteLength_of_digits (digits : Digits s) : byteLength s = s.length := by
  refine byteLength_of_ascii fun c mem => ?_
  have digit := toNat_of_isDigit (digits c mem)
  omega

/-- Without leading zeros, a longer run is larger. -/
theorem value_lt_of_length_lt (left : Digits s) (right : Digits t) (nonzero : t.head? ≠ some '0')
    (shorter : s.length < t.length) : value s < value t := by
  cases t with
  | nil => simp at shorter
  | cons c t =>
    obtain ⟨first, rest⟩ := forall_mem_cons.1 right
    have digit := toNat_of_isDigit first
    have other : c.toNat ≠ 48 := fun zero => nonzero (congrArg some (toNat_inj.1 zero))
    have positive : 1 ≤ c.toNat - '0'.toNat := by
      simp only [reduceToNat]
      omega
    have upper := (ofDigitChars_bounds left 0).2
    have lower := (ofDigitChars_bounds rest (10 * 0 + (c.toNat - '0'.toNat))).1
    calc value s < (0 + 1) * 10 ^ s.length := upper
      _ ≤ (c.toNat - '0'.toNat) * 10 ^ t.length := by
        gcongr
        · decide
        · simpa [Nat.lt_succ_iff] using shorter
      _ ≤ value (c :: t) := by simpa [value, ofDigitChars_cons] using lower

theorem compareDigitRuns_eq (left : Digits s) (right : Digits t) :
    compareDigitRuns s t = compare (value s) (value t) := by
  have left' : Digits (s.dropWhile (· = '0')) := fun c mem =>
    left c ((dropWhile_sublist _).mem mem)
  have right' : Digits (t.dropWhile (· = '0')) := fun c mem =>
    right c ((dropWhile_sublist _).mem mem)
  have head (s : Text) : (s.dropWhile (· = '0')).head? ≠ some '0' := by
    intro zero
    have kept := head?_dropWhile_not (fun c => decide (c = '0')) s
    rw [zero] at kept
    simp at kept
  unfold compareDigitRuns
  simp only
  rw [byteLength_of_digits left', byteLength_of_digits right', ← value_dropWhile s,
    ← value_dropWhile t]
  rcases lt_trichotomy (s.dropWhile (· = '0')).length (t.dropWhile (· = '0')).length with
    less | same | greater
  · rw [Nat.compare_eq_lt.2 less,
      Nat.compare_eq_lt.2 (value_lt_of_length_lt left' right' (head t) less)]
    rfl
  · rw [Nat.compare_eq_eq.2 same]
    exact (compare_ofDigitChars left' right' same 0 0).symm
  · rw [Nat.compare_eq_gt.2 greater,
      Nat.compare_eq_gt.2 (value_lt_of_length_lt right' left' (head s) greater)]
    rfl

end ArtifactKeeper.VersionOrder
