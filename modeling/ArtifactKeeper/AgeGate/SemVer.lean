import ArtifactKeeper.Library.Parts
import ArtifactKeeper.VersionOrder

/-!
# Versions of the age gate

A version is split at its first hyphen.  The two parts are compared segment by segment, a missing
segment being `0`, and a version without the second part is above one that has it.  This is a total
preorder on all texts.
-/

namespace ArtifactKeeper.AgeGate

open Comparisons VersionOrder Ordering
open Text hiding padded

def splitVersionPrerelease (version : Text) : Text × Option Text :=
  match version.splitOnce '-' with
  | some (main, pre) => (main, some pre)
  | none => (version, none)

def compareDotSegments (a b : Text) (compareSegment : Text → Text → Ordering) : ℤ :=
  sign (padded compareSegment "0" (a.splitOn '.') (b.splitOn '.'))

def versionCompare (a b : Text) : ℤ :=
  let (mainA, preA) := splitVersionPrerelease a
  let (mainB, preB) := splitVersionPrerelease b
  let mainCmp := compareDotSegments mainA mainB compareNaturalSegment
  if mainCmp ≠ 0 then mainCmp
  else
    match preA, preB with
    | none, none => 0
    | none, some _ => 1
    | some _, none => -1
    | some pa, some pb => compareDotSegments pa pb compareSemverPrereleaseIdentifier

def versionCompareDesc (a b : Text) : Ordering :=
  match compare (versionCompare a b) 0 with
  | .eq => .eq
  | .lt => .gt
  | .gt => .lt

/-! ### The order of versions -/

/-- A release is above all prereleases. -/
def prereleaseKey (version : Text) : Text ⊕ Unit :=
  match (splitVersionPrerelease version).2 with
  | some pre => .inl pre
  | none => .inr ()

def prereleaseOrder (pa pb : Text) : Ordering :=
  padded compareSemverPrereleaseIdentifier "0" (pa.splitOn '.') (pb.splitOn '.')

def coreOrder (a b : Text) : Ordering :=
  padded compareNaturalSegment "0" (a.splitOn '.') (b.splitOn '.')

instance transCmp_prereleaseOrder : Std.TransCmp prereleaseOrder :=
  transCmp_on (padded compareSemverPrereleaseIdentifier "0") (List.splitOn '.')

instance transCmp_coreOrder : Std.TransCmp coreOrder :=
  transCmp_on (padded compareNaturalSegment "0") (List.splitOn '.')

def versionOrder (a b : Text) : Ordering :=
  (coreOrder (splitVersionPrerelease a).1 (splitVersionPrerelease b).1).then
    (below prereleaseOrder (fun _ _ => .eq) (prereleaseKey a) (prereleaseKey b))

instance transCmp_versionOrder : Std.TransCmp versionOrder := by
  have unit : Std.TransCmp fun _ _ : Unit => eq :=
    { eq_swap := rfl, isLE_trans := fun _ _ => rfl }
  have byCore := transCmp_on coreOrder fun v => (splitVersionPrerelease v).1
  have byPrerelease := transCmp_on (below prereleaseOrder fun _ _ => .eq) prereleaseKey
  exact transCmp_then
    (fun a b => coreOrder (splitVersionPrerelease a).1 (splitVersionPrerelease b).1) fun a b =>
      below prereleaseOrder (fun _ _ => .eq) (prereleaseKey a) (prereleaseKey b)

theorem versionCompare_eq (a b : Text) : versionCompare a b = sign (versionOrder a b) := by
  unfold versionCompare versionOrder prereleaseKey
  rcases splitVersionPrerelease a with ⟨mainA, preA⟩
  rcases splitVersionPrerelease b with ⟨mainB, preB⟩
  simp only
  have core : compareDotSegments mainA mainB compareNaturalSegment = sign (coreOrder mainA mainB) := rfl
  rw [core]
  cases coreOrder mainA mainB
  · rfl
  · cases preA <;> cases preB <;> rfl
  · rfl

theorem versionCompareDesc_eq (a b : Text) : versionCompareDesc a b = versionOrder b a := by
  have swap : versionOrder b a = (versionOrder a b).swap := Std.OrientedCmp.eq_swap
  unfold versionCompareDesc
  rw [swap, versionCompare_eq]
  cases versionOrder a b <;> rfl

open List

/-! ### The standard -/

def identifierChar (c : Char) : Bool := c.isAlphanum || c = '-'

/-- An identifier that is not a number. -/
structure Word where
  text : Text
  allowed : ∀ c ∈ text, identifierChar c = true
  nonDigit : ∃ c ∈ text, c.isDigit = false

inductive Identifier
  | numeric (n : ℕ)
  | alphanumeric (word : Word)

structure BuildIdentifier where
  text : Text
  nonempty : text ≠ []
  allowed : ∀ c ∈ text, identifierChar c = true

structure SemVer where
  major : ℕ
  minor : ℕ
  patch : ℕ
  prerelease : List Identifier
  build : List BuildIdentifier

def Identifier.text : Identifier → Text
  | .numeric n => decimal n
  | .alphanumeric word => word.text

/-- Numeric identifiers are below the others. -/
def Identifier.precedence : Identifier → Identifier → Ordering
  | .numeric n, .numeric m => compare n m
  | .numeric _, .alphanumeric _ => .lt
  | .alphanumeric _, .numeric _ => .gt
  | .alphanumeric a, .alphanumeric b => compare a.text b.text

open Identifier (text precedence)

namespace SemVer

def core (v : SemVer) : Text :=
  join '.' [decimal v.major, decimal v.minor, decimal v.patch]

def metadata (v : SemVer) : Text :=
  if v.build.isEmpty then [] else '+' :: join '.' (v.build.map BuildIdentifier.text)

/-- What comes behind the core. -/
def suffix (v : SemVer) : Text :=
  if v.prerelease.isEmpty then v.metadata
  else '-' :: (join '.' (v.prerelease.map Identifier.text) ++ v.metadata)

def text (v : SemVer) : Text := v.core ++ v.suffix

/-- A release is above its prereleases; of two lists of identifiers the longer one wins if the shorter
is its beginning. -/
def prereleasePrecedence : List Identifier → List Identifier → Ordering
  | [], [] => .eq
  | [], _ :: _ => .gt
  | _ :: _, [] => .lt
  | a :: as, b :: bs => List.compareLex precedence (a :: as) (b :: bs)

/-- Build metadata does not count. -/
def precedence (v w : SemVer) : Ordering :=
  (compare v.major w.major).then ((compare v.minor w.minor).then ((compare v.patch w.patch).then
    (prereleasePrecedence v.prerelease w.prerelease)))

end SemVer

/-! ### Identifiers -/

theorem value_decimal (n : ℕ) : value (decimal n) = n := Nat.ofDigitChars_ten_toDigits

theorem digits_decimal (n : ℕ) : Digits (decimal n) := fun _ => isDigit_of_mem_decimal

theorem numeric_decimal (n : ℕ) : numeric (decimal n) = true := by
  simp only [numeric, Bool.and_eq_true, all_eq_true]
  exact ⟨by simp [decimal], digits_decimal n⟩

theorem numeric_word (word : Word) : numeric word.text = false := by
  obtain ⟨c, mem, other⟩ := word.nonDigit
  have some : word.text.all Char.isDigit = false := all_eq_false.2 ⟨c, mem, by simp [other]⟩
  rw [numeric, some, Bool.and_false]

theorem compareSemverPrereleaseIdentifier_text (a b : Identifier) :
    compareSemverPrereleaseIdentifier a.text b.text = a.precedence b := by
  unfold compareSemverPrereleaseIdentifier
  cases a <;> cases b <;>
    simp only [text, numeric_decimal, numeric_word, precedence]
  rw [compareDigitRuns_eq (digits_decimal _) (digits_decimal _), value_decimal, value_decimal]

/-- A text that does not begin with a digit. -/
abbrev Ends (s : Text) : Prop := ∀ c ∈ s.head?, c.isDigit = false

theorem compareNaturalSegment_decimal (n m : ℕ) {s t : Text} (left : Ends s) (right : Ends t) :
    compareNaturalSegment (decimal n ++ s) (decimal m ++ t) = (compare n m).then (compare s t) := by
  have split (n : ℕ) {s : Text} (ends : Ends s) :
      splitLeadingDigits (decimal n ++ s) = (some (decimal n), s) := by
    have nonempty : decimal n ≠ [] := by simp [decimal]
    have none : s.takeWhile Char.isDigit = [] ∧ s.dropWhile Char.isDigit = s := by
      cases s with
      | nil => simp
      | cons c _ => simp [ends c rfl]
    rw [splitLeadingDigits, takeWhile_append_of_pos (digits_decimal n),
      dropWhile_append_of_pos (digits_decimal n), none.1, none.2, append_nil]
    split
    · contradiction
    · rfl
  simp only [compareNaturalSegment, split n left, split m right]
  rw [compareDigitRuns_eq (digits_decimal _) (digits_decimal _), value_decimal, value_decimal]

variable {a b : Identifier}

theorem eq_of_precedence (same : a.precedence b = .eq) : a = b := by
  cases a <;> cases b <;> simp only [precedence] at same
  · rw [Nat.compare_eq_eq.1 same]
  · cases same
  · cases same
  · next a b =>
    cases a
    simp_all

/-! ### Lists of identifiers -/

/-- The identifier that stands for a missing one. -/
abbrev zero : Identifier := .numeric 0

def ZeroTail (as bs : List Identifier) : Prop := ∃ k, bs = as ++ replicate (k + 1) zero

theorem precedence_zero (other : a ≠ zero) : zero.precedence a = .lt := by
  cases a with
  | numeric => exact Nat.compare_eq_lt.2 (Nat.pos_of_ne_zero fun same => other (same ▸ rfl))
  | alphanumeric => rfl

theorem precedence_self (a : Identifier) : a.precedence a = .eq := by
  cases a <;> exact Std.ReflOrd.compare_self

theorem precedence_swap (a b : Identifier) : b.precedence a = (a.precedence b).swap := by
  cases a <;> cases b
  · exact Std.OrientedOrd.eq_swap
  · rfl
  · rfl
  · exact Std.OrientedOrd.eq_swap

instance orientedCmp_precedence : Std.OrientedCmp precedence := ⟨precedence_swap _ _⟩

theorem ended_zero (bs : List Identifier) :
    ended precedence zero bs = .lt ∨
      ended precedence zero bs = .eq ∧ bs = replicate bs.length zero := by
  induction bs with
  | nil => exact .inr ⟨rfl, rfl⟩
  | cons b _ ih =>
    by_cases same : b = zero
    · subst same
      simp only [length_cons, replicate_succ, cons.injEq, true_and]
      exact ih
    · simp only [ended, precedence_zero same]
      exact .inl rfl

theorem ended_replicate (n : ℕ) : ended precedence zero (replicate n zero) = .eq := by
  induction n with
  | zero => rfl
  | succ n ih =>
    rw [replicate_succ, ended, precedence_self, ih]
    rfl

theorem zeroTail_nil_iff (b : Identifier) (bs : List Identifier) :
    ZeroTail [] (b :: bs) ↔ ended precedence zero (b :: bs) ≠ .lt := by
  constructor
  · rintro ⟨k, zeros⟩
    rw [zeros, nil_append, ended_replicate]
    exact nofun
  · intro equal
    rcases ended_zero (b :: bs) with less | ⟨-, zeros⟩
    · exact absurd less equal
    · exact ⟨bs.length, zeros⟩

variable {as bs : List Identifier}

theorem zeroTail_cons : ZeroTail (a :: as) (b :: bs) ↔ a = b ∧ ZeroTail as bs := by
  simp only [ZeroTail, cons_append, cons.injEq]
  constructor
  · rintro ⟨k, rfl, rest⟩
    exact ⟨rfl, k, rest⟩
  · rintro ⟨rfl, k, rest⟩
    exact ⟨k, rfl, rest⟩

theorem not_zeroTail_nil (a : List Identifier) : ¬ZeroTail a [] := by
  rintro ⟨k, zeros⟩
  simp at zeros

theorem then_inj (o x y : Ordering) : o.then x = o.then y ↔ (o = .eq → x = y) := by
  cases o <;> simp

/-- Missing identifiers count as zeros, so that only lists that end in zeros are compared wrongly. -/
theorem padded_precedence (as bs : List Identifier) :
    padded precedence zero as bs = List.compareLex precedence as bs ↔
      ¬ZeroTail as bs ∧ ¬ZeroTail bs as := by
  induction as generalizing bs with
  | nil =>
    cases bs with
    | nil => simp [padded, ended, List.compareLex_nil_nil, not_zeroTail_nil]
    | cons b _ =>
      simp only [padded, List.compareLex_nil_cons, zeroTail_nil_iff, not_zeroTail_nil]
      simp
  | cons a as ih =>
    cases bs with
    | nil =>
      have swap : padded precedence zero (a :: as) [] =
          (ended precedence zero (a :: as)).swap := Std.OrientedCmp.eq_swap
      rw [swap, List.compareLex_cons_nil, zeroTail_nil_iff]
      simp [not_zeroTail_nil]
    | cons b _ =>
      simp only [padded, List.compareLex_cons_cons, zeroTail_cons]
      by_cases same : a = b
      · subst same
        simp [precedence_self, ih]
      · have differ : a.precedence b ≠ .eq := fun eq => same (eq_of_precedence eq)
        rw [then_inj]
        simp [differ, same, Ne.symm same]

/-! ### Behind the core -/

/-- The parts before a hyphen: the first as texts, the others as segments. -/
def partsOrder : List Text → List Text → Ordering
  | x :: xs, y :: ys => (compare x y).then (padded compareNaturalSegment "0" xs ys)
  | _, _ => .eq

def suffixOrder (s t : Text) : Ordering :=
  (partsOrder ((splitVersionPrerelease s).1.splitOn '.') ((splitVersionPrerelease t).1.splitOn '.')).then
    (below prereleaseOrder (fun _ _ => .eq) (prereleaseKey s) (prereleaseKey t))

theorem SemVer.hyphen_notMem_core (v : SemVer) : '-' ∉ v.core := by
  intro hyphen
  rcases mem_join hyphen with dot | ⟨part, mem, inside⟩
  · cases dot
  · have number : ∃ n, part = decimal n := by
      simp only [mem_cons, not_mem_nil, or_false] at mem
      rcases mem with rfl | rfl | rfl <;> exact ⟨_, rfl⟩
    obtain ⟨n, rfl⟩ := number
    exact notMem_decimal rfl n inside

theorem splitVersionPrerelease_append {front : Text} (free : '-' ∉ front) (s : Text) :
    splitVersionPrerelease (front ++ s) =
      (front ++ (splitVersionPrerelease s).1, (splitVersionPrerelease s).2) := by
  unfold splitVersionPrerelease
  cases split : splitOnce '-' s with
  | none =>
    rw [splitOnce_eq_none.2 (by simpa [free] using splitOnce_eq_none.1 split)]
  | some parts =>
    obtain ⟨rfl, first⟩ := splitOnce_eq_some.1 split
    rw [← append_assoc, splitOnce_eq_some.2 ⟨rfl, by simp [free, first]⟩]

theorem splitOn_append (front : Text) {s x : Text} {xs : List Text} (free : '.' ∉ front)
    (parts : s.splitOn '.' = x :: xs) : (front ++ s).splitOn '.' = (front ++ x) :: xs := by
  have dotFree : ∀ part ∈ x :: xs, '.' ∉ part := fun part mem dot =>
    (mem_of_mem_splitOn (parts ▸ mem) _ dot).2 rfl
  obtain ⟨first, rest⟩ := forall_mem_cons.1 dotFree
  have whole : front ++ s = join '.' ((front ++ x) :: xs) := by
    rw [← join_splitOn '.' s, parts]
    by_cases last : xs = []
    · simp [last]
    · rw [join_cons _ last, join_cons _ last, append_assoc]
  rw [whole, splitOn_join (cons_ne_nil _ _) (forall_mem_cons.2 ⟨by simp [free, first], rest⟩)]

theorem Ends.of_prefix {s t : Text} (ends : Ends s) (starts : t <+: s) : Ends t := by
  obtain ⟨rest, rfl⟩ := starts
  intro c first
  refine ends c ?_
  rw [head?_append, Option.mem_def.1 first]
  rfl

theorem coreOrder_append (v w : SemVer) {s t : Text} (left : Ends s) (right : Ends t) :
    coreOrder (v.core ++ s) (w.core ++ t) = (compare v.major w.major).then
      ((compare v.minor w.minor).then ((compare v.patch w.patch).then
        (partsOrder (s.splitOn '.') (t.splitOn '.')))) := by
  have split (v : SemVer) {s x : Text} {xs : List Text} (parts : s.splitOn '.' = x :: xs) :
      (v.core ++ s).splitOn '.' = decimal v.major :: decimal v.minor :: (decimal v.patch ++ x) :: xs := by
    have core : v.core ++ s = decimal v.major ++ '.' :: (decimal v.minor ++ '.' ::
        (decimal v.patch ++ s)) := by simp [SemVer.core, join]
    rw [core, splitOn_append_cons, splitOn_append_cons, splitOn_of_not_mem (notMem_decimal rfl _),
      splitOn_of_not_mem (notMem_decimal rfl _), splitOn_append _ (notMem_decimal rfl _) parts]
    rfl
  have first {s x : Text} {xs : List Text} (ends : Ends s) (parts : s.splitOn '.' = x :: xs) : Ends x := by
    refine ends.of_prefix ?_
    rw [← join_splitOn '.' s, parts]
    by_cases last : xs = []
    · simp [last]
    · rw [join_cons _ last]
      exact prefix_append _ _
  have number (n m : ℕ) : compareNaturalSegment (decimal n) (decimal m) = compare n m := by
    simpa using compareNaturalSegment_decimal n m (s := []) (t := []) nofun nofun
  obtain ⟨x, xs, partsX⟩ := exists_cons_of_ne_nil (splitOn_ne_nil '.' s)
  obtain ⟨y, ys, partsY⟩ := exists_cons_of_ne_nil (splitOn_ne_nil '.' t)
  rw [coreOrder, split v partsX, split w partsY, partsX, partsY]
  simp only [padded, partsOrder, number, then_assoc,
    compareNaturalSegment_decimal _ _ (first left partsX) (first right partsY)]

theorem versionOrder_text (v w : SemVer) : versionOrder v.text w.text =
    (compare v.major w.major).then ((compare v.minor w.minor).then ((compare v.patch w.patch).then
      (suffixOrder v.suffix w.suffix))) := by
  have ends (v : SemVer) : Ends (splitVersionPrerelease v.suffix).1 := by
    have suffix : Ends v.suffix := by
      unfold SemVer.suffix SemVer.metadata
      split_ifs <;> rintro _ ⟨⟩ <;> rfl
    refine suffix.of_prefix ?_
    unfold splitVersionPrerelease
    split
    · next split =>
      rw [(splitOnce_eq_some.1 split).1]
      exact prefix_append _ _
    · exact prefix_rfl
  have split (v : SemVer) := splitVersionPrerelease_append v.hyphen_notMem_core v.suffix
  have key (v : SemVer) : prereleaseKey v.text = prereleaseKey v.suffix := by
    rw [prereleaseKey, SemVer.text, split]
    rfl
  rw [versionOrder, key, key, SemVer.text, SemVer.text, split, split, coreOrder_append v w (ends v) (ends w)]
  simp only [then_assoc, suffixOrder]

/-! ### Precedence -/

theorem dot_notMem_text (id : Identifier) : '.' ∉ id.text := by
  intro dot
  cases id with
  | numeric n => exact notMem_decimal rfl n dot
  | alphanumeric word => exact absurd (word.allowed _ dot) (by decide)

/-- Identifiers with the metadata behind them. -/
def written (ids : List Identifier) (metadata : Text) : Text := join '.' (ids.map text) ++ metadata

/-- Two prereleases of one core are in order.  The metadata belongs to the last identifier, which does
not count if the identifiers before it differ. -/
def PrereleasesAgree (m m' : Text) : List Identifier → List Identifier → Prop
  | a :: a' :: as, b :: b' :: bs => a = b → PrereleasesAgree m m' (a' :: as) (b' :: bs)
  | as, bs =>
    if m = [] ∧ m' = [] then ¬ZeroTail as bs ∧ ¬ZeroTail bs as
    else prereleaseOrder (written as m) (written bs m') = List.compareLex precedence as bs

theorem prereleaseOrder_written (a b a' b' : Identifier) (as bs : List Identifier) (m m' : Text) :
    prereleaseOrder (written (a :: a' :: as) m) (written (b :: b' :: bs) m') =
      (a.precedence b).then (prereleaseOrder (written (a' :: as) m) (written (b' :: bs) m')) := by
  have split (a a' : Identifier) (as : List Identifier) (m : Text) :
      (written (a :: a' :: as) m).splitOn '.' = a.text :: (written (a' :: as) m).splitOn '.' := by
    rw [written, map_cons, join_cons _ (by simp), append_assoc, cons_append, splitOn_append_cons,
      splitOn_of_not_mem (dot_notMem_text a)]
    rfl
  rw [prereleaseOrder, split, split, padded, compareSemverPrereleaseIdentifier_text]
  rfl

theorem prereleaseOrder_join (left : as ≠ []) (right : bs ≠ []) :
    prereleaseOrder (written as []) (written bs []) = padded precedence zero as bs := by
  have split {ids : List Identifier} (some : ids ≠ []) :
      (written ids []).splitOn '.' = ids.map text := by
    rw [written, append_nil]
    exact splitOn_join (by simpa using some) (by simp [dot_notMem_text])
  rw [prereleaseOrder, split left, split right]
  refine (padded_map text zero as bs).trans ?_
  rw [funext₂ compareSemverPrereleaseIdentifier_text]

theorem prereleasesAgree_iff (m m' : Text) : ∀ {as bs : List Identifier}, as ≠ [] → bs ≠ [] →
    (prereleaseOrder (written as m) (written bs m') = List.compareLex precedence as bs ↔
      PrereleasesAgree m m' as bs)
  | a :: a' :: as, b :: b' :: bs, _, _ => by
    rw [prereleaseOrder_written, List.compareLex_cons_cons, then_inj, PrereleasesAgree,
      prereleasesAgree_iff m m' (cons_ne_nil a' as) (cons_ne_nil b' bs)]
    exact imp_congr ⟨eq_of_precedence, fun same => same ▸ precedence_self a⟩ Iff.rfl
  | [a], b :: bs, left, right | a :: a' :: as, [b], left, right => by
    unfold PrereleasesAgree
    split_ifs with plain
    · rw [plain.1, plain.2, prereleaseOrder_join left right, padded_precedence]
    · rfl

/-- Two versions of one core are in order. -/
def Agrees (v w : SemVer) : Prop :=
  match v.prerelease, w.prerelease with
  | [], [] => suffixOrder v.metadata w.metadata = .eq
  | a :: as, b :: bs => PrereleasesAgree v.metadata w.metadata (a :: as) (b :: bs)
  | _, _ => True

theorem metadata_parts (v : SemVer) : v.metadata = [] ∨
    ∃ x xs, (splitVersionPrerelease v.metadata).1.splitOn '.' = ('+' :: x) :: xs := by
  unfold SemVer.metadata
  split_ifs
  · exact .inl rfl
  · refine .inr ?_
    rw [← singleton_append, splitVersionPrerelease_append (by decide)]
    obtain ⟨x, xs, parts⟩ := exists_cons_of_ne_nil (splitOn_ne_nil '.'
      (splitVersionPrerelease (join '.' (v.build.map BuildIdentifier.text))).1)
    exact ⟨x, xs, splitOn_append ['+'] (by decide) parts⟩

theorem splitVersionPrerelease_hyphen (p : Text) :
    splitVersionPrerelease ('-' :: p) = ([], some p) := by
  simp [splitVersionPrerelease, splitOnce]

/-- A release is above the prereleases, with metadata or without. -/
theorem suffixOrder_release (v : SemVer) (p : Text) :
    suffixOrder v.metadata ('-' :: p) = .gt ∧ suffixOrder ('-' :: p) v.metadata = .lt := by
  rcases metadata_parts v with none | ⟨x, xs, parts⟩
  · rw [none]
    simp [suffixOrder, prereleaseKey, partsOrder, padded, ended, below, splitVersionPrerelease, splitOnce]
  · simp [suffixOrder, parts, splitVersionPrerelease_hyphen, partsOrder]

theorem suffixOrder_iff (v w : SemVer) :
    suffixOrder v.suffix w.suffix = SemVer.prereleasePrecedence v.prerelease w.prerelease ↔
      Agrees v w := by
  unfold SemVer.suffix Agrees
  cases left : v.prerelease with
  | nil =>
    cases w.prerelease with
    | nil => rfl
    | cons b bs => exact iff_of_true (suffixOrder_release v _).1 trivial
  | cons a as =>
    cases right : w.prerelease with
    | nil => exact iff_of_true (suffixOrder_release w _).2 trivial
    | cons b bs =>
      refine Iff.trans ?_ (prereleasesAgree_iff _ _ (cons_ne_nil a as) (cons_ne_nil b bs))
      simp [suffixOrder, splitVersionPrerelease_hyphen, prereleaseKey, partsOrder, padded, ended, below,
        written, SemVer.prereleasePrecedence]

def alpha : Identifier :=
  .alphanumeric ⟨"alpha", all_eq_true.1 (by decide), 'a', by simp, rfl⟩

def one (prerelease : List Identifier) (build : List BuildIdentifier) : SemVer :=
  ⟨1, 0, 0, prerelease, build⟩

end ArtifactKeeper.AgeGate
