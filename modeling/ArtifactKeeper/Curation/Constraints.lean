import ArtifactKeeper.VersionOrder

/-!
# Version constraints of curation rules

`versionCompare` compares epochs first and then segment by segment; it is a total preorder on all
texts.  A constraint is an operator and a version.  Whatever the text of a constraint is, the versions
that satisfy it are convex.
-/

namespace ArtifactKeeper.Curation

open Comparisons VersionOrder Text Std.TransCmp

/-! ### Comparison -/

/-- A leading epoch, `0` if there is none, and the rest. -/
def splitEpoch (version : Text) : Text × Text :=
  match version.takeWhile Char.isDigit, version.dropWhile Char.isDigit with
  | digit :: digits, c :: rest =>
    if c = ':' ∨ c = '!' then (digit :: digits, rest) else ("0", version)
  | _, _ => ("0", version)

def segments (rest : Text) : List Text := rest.splitOnP fun c => c = '.' ∨ c = '-'

def versionCompare (a b : Text) : ℤ :=
  let (epochA, restA) := splitEpoch a
  let (epochB, restB) := splitEpoch b
  match compareDigitRuns epochA epochB with
  | .lt => -1
  | .gt => 1
  | .eq => sign (padded compareNaturalSegment "0" (segments restA) (segments restB))

/-! ### Constraints -/

inductive Op
  | ge
  | le
  | gt
  | lt
  | eq
  deriving DecidableEq

def Op.text : Op → Text
  | .ge => ">="
  | .le => "<="
  | .gt => ">"
  | .lt => "<"
  | .eq => "="

/-- The operator of a constraint and the version it names. -/
def parseConstraint (constraint : Text) : Op × Text :=
  if let some v := constraint.stripPrefix ">=" then (.ge, v.trim)
  else if let some v := constraint.stripPrefix "<=" then (.le, v.trim)
  else if let some v := constraint.stripPrefix ">" then (.gt, v.trim)
  else if let some v := constraint.stripPrefix "<" then (.lt, v.trim)
  else if let some v := constraint.stripPrefix "=" then (.eq, v.trim)
  else (.eq, constraint)

def Op.holds : Op → ℤ → Bool
  | .ge, cmp => cmp ≥ 0
  | .le, cmp => cmp ≤ 0
  | .gt, cmp => cmp > 0
  | .lt, cmp => cmp < 0
  | .eq, cmp => cmp = 0

def versionMatches (constraint version : Text) : Bool :=
  let constraint := constraint.trim
  if constraint = "*" then true
  else
    let (op, target) := parseConstraint constraint
    op.holds (versionCompare version target)

/-! ### The order of versions -/

def versionOrder (a b : Text) : Ordering :=
  (compareDigitRuns (splitEpoch a).1 (splitEpoch b).1).then
    (padded compareNaturalSegment "0" (segments (splitEpoch a).2) (segments (splitEpoch b).2))

instance transCmp_versionOrder : Std.TransCmp versionOrder := by
  have byEpoch := transCmp_on compareDigitRuns fun v => (splitEpoch v).1
  have bySegments := transCmp_on (padded compareNaturalSegment "0") fun v =>
    segments (splitEpoch v).2
  exact transCmp_then (fun a b => compareDigitRuns (splitEpoch a).1 (splitEpoch b).1) fun a b =>
    padded compareNaturalSegment "0" (segments (splitEpoch a).2) (segments (splitEpoch b).2)

theorem versionCompare_eq (a b : Text) : versionCompare a b = sign (versionOrder a b) := by
  unfold versionCompare versionOrder
  rcases splitEpoch a with ⟨epochA, _⟩
  rcases splitEpoch b with ⟨epochB, _⟩
  simp only
  cases compareDigitRuns epochA epochB <;> rfl

theorem versionCompare_self (a : Text) : versionCompare a a = 0 := by
  rw [versionCompare_eq, sign_eq_zero]
  exact Std.ReflCmp.compare_self

theorem versionCompare_swap (a b : Text) : versionCompare b a = -versionCompare a b := by
  rw [versionCompare_eq, versionCompare_eq, ← sign_swap]
  exact congrArg sign Std.OrientedCmp.eq_swap

variable {a b : Text}

theorem versionCompare_trans {c : Text} (first : versionCompare a b ≤ 0)
    (second : versionCompare b c ≤ 0) : versionCompare a c ≤ 0 := by
  rw [versionCompare_eq, sign_nonpos] at first second ⊢
  exact isLE_trans first second

/-! ### What a constraint admits -/

theorem Op.holds_between (op : Op) {c target : Text} (lower : versionCompare a b ≤ 0)
    (upper : versionCompare b c ≤ 0) (first : op.holds (versionCompare a target) = true)
    (last : op.holds (versionCompare c target) = true) :
    op.holds (versionCompare b target) = true := by
  simp only [versionCompare_eq, sign_nonpos] at lower upper first last ⊢
  have above := Std.OrientedCmp.isGE_iff_isLE.2 lower
  cases op <;> simp only [Op.holds, decide_eq_true_eq, sign_nonneg, sign_nonpos,
    sign_pos, sign_neg, sign_eq_zero] at first last ⊢
  case ge => exact isGE_trans above first
  case le => exact isLE_trans upper last
  case gt => exact gt_of_isGE_of_gt above first
  case lt => exact lt_of_isLE_of_lt upper last
  case eq => exact eq_of_between lower upper first last

theorem versionMatches_between (constraint : Text) {c : Text} (lower : versionCompare a b ≤ 0)
    (upper : versionCompare b c ≤ 0) (first : versionMatches constraint a = true)
    (last : versionMatches constraint c = true) : versionMatches constraint b = true := by
  unfold versionMatches at first last ⊢
  simp only at first last ⊢
  split_ifs at first last ⊢
  · rfl
  · exact Op.holds_between _ lower upper first last

/-- A constraint as rules are written. -/
def Op.constraint (op : Op) (w : Text) : Text := op.text ++ ' ' :: w

/-- The version that a constraint names, before its last trimming. -/
def written (w : Text) : Text := (' ' :: w).rdropWhile isWhitespace

theorem trim_constraint (op : Op) (w : Text) : (op.constraint w).trim = op.text ++ written w := by
  have front : (op.constraint w).dropWhile isWhitespace = op.constraint w := by
    cases op <;> rfl
  have solid : op.text.rdropWhile isWhitespace = op.text := by cases op <;> decide
  rw [trim, front]
  exact rdropWhile_append solid _

/-- A version that is written after a space does not add to the operator. -/
theorem head?_written (w : Text) : (written w).head? ≠ some '=' := by
  intro head
  have starts : written w <+: ' ' :: w := List.rdropWhile_prefix _ _
  cases shape : written w with
  | nil => simp [shape] at head
  | cons c _ =>
    rw [shape] at head starts
    obtain ⟨rfl, -⟩ := List.cons_prefix_cons.1 starts
    simp at head

theorem parseConstraint_text (op : Op) {rest : Text} (apart : rest.head? ≠ some '=') :
    parseConstraint (op.text ++ rest) = (op, rest.trim) := by
  cases rest with
  | nil => cases op <;> rfl
  | cons c _ =>
    have other : c ≠ '=' := by simpa using apart
    cases op <;> simp [parseConstraint, Op.text, stripPrefix, other.symm]

theorem versionMatches_constraint (op : Op) (v w : Text) :
    versionMatches (op.constraint w) v = op.holds (versionCompare v (written w).trim) := by
  have special : op.text ++ written w ≠ "*" := by
    cases op <;> exact fun same => absurd (List.cons.inj same).1 (by decide)
  unfold versionMatches
  simp only [trim_constraint, parseConstraint_text op (head?_written w), if_neg special]

/-! ### Consistency -/

theorem Op.exactly_one (cmp : ℤ) : ∃! op, op ∈ [Op.lt, .eq, .gt] ∧ op.holds cmp = true := by
  have some : ∃ op ∈ [Op.lt, .eq, .gt], op.holds cmp = true := by
    rcases lt_trichotomy cmp 0 with less | zero | greater
    · exact ⟨.lt, by simp, by simpa [Op.holds] using less⟩
    · exact ⟨.eq, by simp, by simpa [Op.holds] using zero⟩
    · exact ⟨.gt, by simp, by simpa [Op.holds] using greater⟩
  obtain ⟨op, mem, here⟩ := some
  refine ⟨op, ⟨mem, here⟩, fun op' found => ?_⟩
  cases op <;> cases op' <;> simp [Op.holds] at mem here found ⊢ <;> omega

theorem Op.holds_le (cmp : ℤ) : Op.le.holds cmp = (Op.lt.holds cmp || Op.eq.holds cmp) := by
  simp only [Op.holds, ← Bool.decide_or, le_iff_lt_or_eq]

theorem Op.holds_ge (cmp : ℤ) : Op.ge.holds cmp = (Op.gt.holds cmp || Op.eq.holds cmp) := by
  simp only [Op.holds, ← Bool.decide_or, le_iff_lt_or_eq, eq_comm]

theorem version_constraints_consistent : (∀ a, versionCompare a a = 0) ∧
    (∀ a b, versionCompare b a = -versionCompare a b) ∧
    (∀ a b c, versionCompare a b ≤ 0 → versionCompare b c ≤ 0 → versionCompare a c ≤ 0) ∧
    (∀ v w, (∃! op, op ∈ [Op.lt, .eq, .gt] ∧ versionMatches (op.constraint w) v = true) ∧
      (versionMatches (Op.le.constraint w) v =
        (versionMatches (Op.lt.constraint w) v || versionMatches (Op.eq.constraint w) v)) ∧
      (versionMatches (Op.ge.constraint w) v =
        (versionMatches (Op.gt.constraint w) v || versionMatches (Op.eq.constraint w) v))) ∧
    ∀ (constraints : List Text) (a b c : Text), versionCompare a b ≤ 0 → versionCompare b c ≤ 0 →
      (∀ r ∈ constraints, versionMatches r a = true) →
      (∀ r ∈ constraints, versionMatches r c = true) →
      ∀ r ∈ constraints, versionMatches r b = true := by
  refine ⟨versionCompare_self, versionCompare_swap, fun a b c => versionCompare_trans,
    fun v w => ?_, fun constraints a b c lower upper first last r mem =>
      versionMatches_between r lower upper (first r mem) (last r mem)⟩
  simp only [versionMatches_constraint]
  exact ⟨Op.exactly_one _, Op.holds_le _, Op.holds_ge _⟩

end ArtifactKeeper.Curation
