import ArtifactKeeper.Library.Comparisons
import ArtifactKeeper.Library.Text

/-!
# Versions of advisories

Two segments are compared as numbers if both fit into 64 bits, and as texts otherwise.  The
comparison is reflexive and antisymmetric but not transitive: a number is compared to numbers by its
value and to a text by its digits.
-/

namespace ArtifactKeeper.Cpe

section Versions

open Comparisons List Option Text Bool Char

def segments (v : Text) : List Text :=
  v.splitOnP fun c => c = '.' ∨ c = '-' ∨ c = '_' ∨ c = '+'

variable (s : Text)

def parseU64 : Option ℕ := parseUnsigned (2 ^ 64) s

def compareSegment (x y : Text) : Ordering :=
  match parseU64 x, parseU64 y with
  | some nx, some ny => compare nx ny
  | _, _ => compare x y

def compareVersions (a b : Text) : Ordering :=
  padded compareSegment "0" (segments a) (segments b)

instance orientedCmp_compareSegment : Std.OrientedCmp compareSegment where
  eq_swap {x y} := by
    unfold compareSegment
    cases parseU64 x <;> cases parseU64 y <;> exact Std.OrientedOrd.eq_swap

instance orientedCmp_compareVersions : Std.OrientedCmp compareVersions :=
  orientedCmp_on (padded compareSegment "0") segments

/-! ### Three versions -/

open Orders

/-- A text is on one side of two numbers, or between them in the order that they compare. -/
def separated (x y z : Text) (xy : Ordering) : Bool := compare x z = compare y z || xy = compare x z

/-- The first position at which three versions are not equal does not have two numbers and a text
between them, unless the versions of the numbers compare in the order of the three texts. -/
def sortable : List Text → List Text → List Text → Bool
  | x :: xs, y :: ys, z :: zs =>
    match (parseU64 x).isSome, (parseU64 y).isSome, (parseU64 z).isSome with
    | true, true, false => separated x y z (List.compareLex compareSegment (x :: xs) (y :: ys))
    | true, false, true => separated x z y (List.compareLex compareSegment (x :: xs) (z :: zs))
    | false, true, true => separated y z x (List.compareLex compareSegment (y :: ys) (z :: zs))
    | _, _, _ => compareSegment x y ≠ .eq || compareSegment y z ≠ .eq || sortable xs ys zs
  | _, _, _ => true

theorem compareSegment_text {x y : Text} (text : (parseU64 x).isSome = false ∨ (parseU64 y).isSome = false) :
    compareSegment x y = compare x y := by
  unfold compareSegment
  cases left : parseU64 x <;> cases right : parseU64 y <;> simp_all

/-- A number and a text are not equal. -/
theorem compareLex_mixed {x y : Text} (mixed : (parseU64 x).isSome ≠ (parseU64 y).isSome)
    (xs ys : List Text) :
    List.compareLex compareSegment (x :: xs) (y :: ys) = compare x y ∧ compare x y ≠ .eq := by
  have text : (parseU64 x).isSome = false ∨ (parseU64 y).isSome = false := by
    cases left : (parseU64 x).isSome <;> cases right : (parseU64 y).isSome <;> simp_all
  have differ : compare x y ≠ .eq := fun same =>
    mixed (by rw [Std.LawfulEqOrd.eq_of_compare same])
  rw [List.compareLex_cons_cons, compareSegment_text text]
  exact ⟨then_of_ne differ _, differ⟩

/-- Three numbers are in order, and so are three segments with one number or none. -/
theorem lawful_compareSegment {x y z : Text}
    (first : (parseU64 x).isSome = true → (parseU64 y).isSome = true → (parseU64 z).isSome ≠ false)
    (second : (parseU64 x).isSome = true → (parseU64 y).isSome = false → (parseU64 z).isSome ≠ true)
    (third : (parseU64 x).isSome = false → (parseU64 y).isSome = true → (parseU64 z).isSome ≠ true) :
    Lawful (compareSegment x y) (compareSegment y z) (compareSegment x z) := by
  unfold compareSegment
  cases isX : parseU64 x <;> cases isY : parseU64 y <;> cases isZ : parseU64 z <;>
    simp only [isX, isY, isZ] at first second third ⊢ <;>
    first
    | exact lawful_compare _ _ _
    | exact absurd rfl (first rfl rfl)
    | exact absurd rfl (second rfl rfl)
    | exact absurd rfl (third rfl rfl)

theorem lawful_compareLex : ∀ {xs ys zs : List Text}, xs.length = ys.length → ys.length = zs.length →
    (Lawful (List.compareLex compareSegment xs ys) (List.compareLex compareSegment ys zs)
      (List.compareLex compareSegment xs zs) ↔ sortable xs ys zs = true)
  | [], [], [], _, _ => by simp [sortable]; decide
  | x :: xs, y :: ys, z :: zs, left, right => by
    have tails := lawful_compareLex (Nat.succ.inj left) (Nat.succ.inj right)
    unfold sortable
    split
    · next isX isY isZ =>
      obtain ⟨yz, -⟩ := compareLex_mixed (x := y) (y := z) (by simp [isY, isZ]) ys zs
      obtain ⟨xz, differ⟩ := compareLex_mixed (x := x) (y := z) (by simp [isX, isZ]) xs zs
      rw [yz, xz, lawful_last_iff, sided_iff_of_ne differ]
      simp [separated]
    · next isX isY isZ =>
      obtain ⟨xy, differ⟩ := compareLex_mixed (x := x) (y := y) (by simp [isX, isY]) xs ys
      obtain ⟨yz, -⟩ := compareLex_mixed (x := y) (y := z) (by simp [isY, isZ]) ys zs
      rw [xy, yz, Std.OrientedOrd.eq_swap (a := y), lawful_middle_iff, sided_iff_of_ne differ]
      simp [separated]
    · next isX isY isZ =>
      obtain ⟨xy, -⟩ := compareLex_mixed (x := x) (y := y) (by simp [isX, isY]) xs ys
      obtain ⟨xz, -⟩ := compareLex_mixed (x := x) (y := z) (by simp [isX, isZ]) xs zs
      obtain ⟨-, differ⟩ := compareLex_mixed (x := y) (y := x) (by simp [isX, isY]) ys xs
      rw [xy, xz, Std.OrientedOrd.eq_swap (a := x) (b := y), Std.OrientedOrd.eq_swap (a := x) (b := z),
        lawful_first_iff, sided_iff_of_ne differ]
      simp [separated]
    · next first second third =>
      have heads := lawful_compareSegment first second third
      rw [List.compareLex_cons_cons, List.compareLex_cons_cons, List.compareLex_cons_cons, heads.lex_iff,
        tails]
      cases compareSegment x y <;> cases compareSegment y z <;> simp

/-- The segments of three versions, filled up to one length. -/
def sorted (a b c : Text) : Bool :=
  let n := (segments a).length + (segments b).length + (segments c).length
  sortable (goOn "0" n (segments a)) (goOn "0" n (segments b)) (goOn "0" n (segments c))

theorem lawful_compareVersions (a b c : Text) :
    Lawful (compareVersions a b) (compareVersions b c) (compareVersions a c) ↔ sorted a b c = true := by
  unfold compareVersions sorted
  extract_lets n
  have length {v : Text} (short : (segments v).length ≤ n) :
      (goOn "0".toList n (segments v)).length = n := by
    simp only [goOn, length_append, length_replicate]
    omega
  have left : (segments a).length ≤ n := by omega
  have middle : (segments b).length ≤ n := by omega
  have right : (segments c).length ≤ n := by omega
  rw [padded_eq_compareLex n _ _ left middle, padded_eq_compareLex n _ _ middle right,
    padded_eq_compareLex n _ _ left right]
  exact lawful_compareLex (by rw [length left, length middle]) (by rw [length middle, length right])

end Versions

/-! ### Matching candidates with criteria -/

structure CpeCandidate where
  vendor : Text
  product : Text
  version : Option Text

structure NvdCpeMatch where
  criteria : Text
  (versionStartIncluding versionStartExcluding versionEndIncluding versionEndExcluding : Option
    Text)

/-! ### The code -/

structure Splitter where
  fields : List Text
  current : Text
  escaped : Bool

def Splitter.step (s : Splitter) (ch : Char) : Splitter :=
  if s.escaped then { s with current := s.current ++ [ch], escaped := false }
  else if ch = '\\' then { s with escaped := true }
  else if ch = ':' then { s with fields := s.fields ++ [s.current], current := [] }
  else { s with current := s.current ++ [ch] }

open Splitter (step)

def splitCpe (cpe : Text) : List Text :=
  let s := cpe.foldl step ⟨[], [], false⟩
  s.fields ++ [s.current]

def cpeAttrMatches (criterion value : Text) : Bool :=
  criterion = "*" || criterion.eqIgnoreAsciiCase value

def NvdCpeMatch.hasBounds (node : NvdCpeMatch) : Bool :=
  node.versionStartIncluding.isSome || node.versionStartExcluding.isSome ||
    node.versionEndIncluding.isSome || node.versionEndExcluding.isSome

def NvdCpeMatch.withinBounds (node : NvdCpeMatch) (version : Text) : Bool :=
  node.versionStartIncluding.all (fun start => compareVersions version start != .lt) &&
    node.versionStartExcluding.all (fun start => compareVersions version start == .gt) &&
    node.versionEndIncluding.all (fun last => compareVersions version last != .gt) &&
    node.versionEndExcluding.all (fun last => compareVersions version last == .lt)

/-- The check of the version, after those of part, vendor and product. -/
def versionMatchesNode (version : Option Text) (criterionVersion : Text) (node : NvdCpeMatch) : Bool :=
  match version with
  | none => criterionVersion = "*" && !node.hasBounds
  | some version =>
    if criterionVersion = "-" then false
    else if criterionVersion ≠ "*" ∧ compareVersions version criterionVersion ≠ .eq then false
    else node.withinBounds version

def candidateMatchesNode (candidate : CpeCandidate) (node : NvdCpeMatch) : Bool :=
  match splitCpe node.criteria with
  | cpe :: format :: part :: vendor :: product :: rest =>
    if cpe ≠ "cpe" ∨ format ≠ "2.3" then false
    else if !cpeAttrMatches part "a" then false
    else if !cpeAttrMatches vendor candidate.vendor || !cpeAttrMatches product candidate.product then
      false
    else versionMatchesNode candidate.version (rest.head?.getD "*") node
  | _ => false

variable {node : NvdCpeMatch}

theorem candidateMatchesNode_iff {candidate : CpeCandidate} :
    candidateMatchesNode candidate node = true ↔
      ∃ part vendor product rest,
        splitCpe node.criteria = "cpe".toList :: "2.3".toList :: part :: vendor :: product :: rest ∧
        cpeAttrMatches part "a" = true ∧ cpeAttrMatches vendor candidate.vendor = true ∧
        cpeAttrMatches product candidate.product = true ∧
        versionMatchesNode candidate.version (rest.head?.getD "*") node = true := by
  unfold candidateMatchesNode
  constructor
  · intro matched
    split at matched
    case h_2 => cases matched
    case h_1 cpe format part vendor product rest fields =>
      split_ifs at matched with shape isPart names
      push Not at shape
      obtain ⟨rfl, rfl⟩ := shape
      simp only [Bool.not_eq_true', Bool.not_eq_false, Bool.or_eq_true, not_or] at isPart names
      exact ⟨part, vendor, product, rest, fields, isPart, names.1, names.2, matched⟩
  · rintro ⟨_, _, _, _, fields, isPart, isVendor, isProduct, isVersion⟩
    simpa [fields, isVendor, isProduct] using And.intro isPart isVersion

/-! ### Ranges -/

/-- The bounds of a node do not disturb the order of the versions. -/
def NvdCpeMatch.Sorted (node : NvdCpeMatch) (a b c : Text) : Prop :=
  (∀ s, s ∈ node.versionStartIncluding ∨ s ∈ node.versionStartExcluding → sorted a b s = true) ∧
    ∀ s, s ∈ node.versionEndIncluding ∨ s ∈ node.versionEndExcluding → sorted b c s = true

/-- The version field of the criteria is a wildcard, or is missing. -/
def NvdCpeMatch.anyVersion (node : NvdCpeMatch) : Bool :=
  (splitCpe node.criteria)[5]?.all (· = "*".toList)

variable {c a b : Text}

theorem NvdCpeMatch.withinBounds_between (bounds : node.Sorted a b c)
    (lower : compareVersions a b ≠ .gt) (upper : compareVersions b c ≠ .gt)
    (first : node.withinBounds a = true) (last : node.withinBounds c = true) :
    node.withinBounds b = true := by
  simp only [NvdCpeMatch.withinBounds, Bool.and_eq_true, Option.all_eq_true, bne_iff_ne, ne_eq,
    beq_iff_eq] at first last ⊢
  refine ⟨⟨⟨fun s mem => ?_, fun s mem => ?_⟩, fun s mem => ?_⟩, fun s mem => ?_⟩
  · have law := (lawful_compareVersions a b s).2 (bounds.1 s (.inl mem))
    exact (law.bounds lower).1 (first.1.1.1 s mem)
  · have law := (lawful_compareVersions a b s).2 (bounds.1 s (.inr mem))
    exact (law.bounds lower).2.1 (first.1.1.2 s mem)
  · have law := (lawful_compareVersions b c s).2 (bounds.2 s (.inl mem))
    exact (law.bounds upper).2.2.1 (last.1.2 s mem)
  · have law := (lawful_compareVersions b c s).2 (bounds.2 s (.inr mem))
    exact (law.bounds upper).2.2.2 (last.2 s mem)

theorem candidateMatchesNode_anyVersion (any : node.anyVersion = true) {vendor product : Text}
    (matched : candidateMatchesNode ⟨vendor, product, some a⟩ node = true) (b : Text) :
    node.withinBounds a = true ∧
      (node.withinBounds b = true → candidateMatchesNode ⟨vendor, product, some b⟩ node = true) := by
  rw [candidateMatchesNode_iff] at matched ⊢
  obtain ⟨part, vendor', product', rest, fields, isPart, isVendor, isProduct, isVersion⟩ := matched
  have wildcard : rest.head?.getD "*" = "*".toList := by
    rw [NvdCpeMatch.anyVersion, fields] at any
    cases rest with
    | nil => rfl
    | cons _ _ => simpa using any
  have version (v : Text) :
      versionMatchesNode (some v) (rest.head?.getD "*") node = node.withinBounds v := by
    rw [wildcard]
    simp [versionMatchesNode]
  refine ⟨version a ▸ isVersion, fun within => ?_⟩
  exact ⟨part, vendor', product', rest, fields, isPart, isVendor, isProduct, (version b).trans within⟩

def beforeLetter : NvdCpeMatch where
  criteria := "cpe:2.3:a:openssl:openssl:*:*:*:*:*:*:*:*"
  versionStartIncluding := none
  versionStartExcluding := none
  versionEndIncluding := none
  versionEndExcluding := some "1.0.2k"

inductive Attribute
  | any
  | notApplicable
  | value (text : Text)
  deriving DecidableEq

def special (c : Char) : Bool := c = '\\' || c = ':' || c = '*' || c = '-'

/-- A backslash before every special character. -/
def escape (text : Text) : Text := text.flatMap fun c => if special c then ['\\', c] else [c]

namespace Attribute

def written : Attribute → Text
  | .any => "*"
  | .notApplicable => "-"
  | .value text => escape text

def text : Attribute → Text
  | .any => "*"
  | .notApplicable => "-"
  | .value text => text

/-- The vendors or products that an attribute stands for. -/
def admits : Attribute → Text → Bool
  | .any, _ => true
  | .notApplicable, v => v = "-"
  | .value text, v => text.eqIgnoreAsciiCase v

/-- The versions that an attribute stands for, with the bounds of its node. -/
def admitsVersion (node : NvdCpeMatch) : Attribute → Option Text → Bool
  | .any, none => !node.hasBounds
  | .any, some version => node.withinBounds version
  | .notApplicable, _ => false
  | .value _, none => false
  | .value text, some version => compareVersions version text == .eq && node.withinBounds version

end Attribute

variable (attributes : List Attribute)

def formatted : Text :=
  Text.join ':' ("cpe" :: "2.3" :: attributes.map Attribute.written)

/-! ### Splitting -/

def Reads (written text : Text) : Prop :=
  ∀ (fields : List Text) (current : Text),
    written.foldl step ⟨fields, current, false⟩ = ⟨fields, current ++ text, false⟩

theorem reads_escape (text : Text) : Reads (escape text) text := by
  intro fields current
  induction text generalizing current with
  | nil => simp [escape]
  | cons c _ ih =>
    have first : (if special c then ['\\', c] else [c]).foldl step ⟨fields, current, false⟩ =
        ⟨fields, current ++ [c], false⟩ := by
      split_ifs with escaped
      · simp [step]
      · simp only [special, Bool.or_eq_true, decide_eq_true_eq, not_or] at escaped
        simp [step, escaped]
    rw [escape, List.flatMap_cons, List.foldl_append, first, ← escape, ih]
    simp

theorem Attribute.reads (a : Attribute) : Reads a.written a.text := by
  cases a with
  | any | notApplicable => exact fun _ _ => rfl
  | value text => exact reads_escape text

theorem splitCpe_join (pieces : List (Text × Text)) (some : pieces ≠ [])
    (reads : ∀ piece ∈ pieces, Reads piece.1 piece.2) :
    splitCpe (Text.join ':' (pieces.map Prod.fst)) = pieces.map Prod.snd := by
  suffices general : ∀ fields,
      let s := (Text.join ':' (pieces.map Prod.fst)).foldl step ⟨fields, [], false⟩
      s.fields ++ [s.current] = fields ++ pieces.map Prod.snd from general []
  induction pieces with
  | nil => exact absurd rfl some
  | cons first rest ih =>
    intro fields
    obtain ⟨here, later⟩ := List.forall_mem_cons.1 reads
    cases rest with
    | nil => simp [here fields []]
    | cons next rest =>
      have tail := ih (by simp) later (fields ++ [first.2])
      have split : Text.join ':' ((first :: next :: rest).map Prod.fst) =
          first.1 ++ ':' :: Text.join ':' ((next :: rest).map Prod.fst) := by
        simpa using Text.join_append ':' (List.cons_ne_nil first.1 [])
          (List.cons_ne_nil next.1 (rest.map Prod.fst))
      rw [split, List.foldl_append, here fields [], List.foldl_cons]
      simpa [step] using tail

theorem splitCpe_formatted :
    splitCpe (formatted attributes) =
      "cpe".toList :: "2.3".toList :: attributes.map Attribute.text := by
  have fields := splitCpe_join
    (("cpe", "cpe") :: ("2.3", "2.3") :: attributes.map fun a => (a.written, a.text)) (by simp) ?_
  · simpa [formatted, Function.comp_def] using fields
  · intro _ mem
    rcases List.mem_cons.1 mem with rfl | mem
    · exact reads_escape "cpe"
    · rcases List.mem_cons.1 mem with rfl | mem
      · exact reads_escape "2.3"
      · obtain ⟨a, -, rfl⟩ := List.mem_map.1 mem
        exact a.reads

/-! ### Meaning -/

theorem eqIgnoreAsciiCase_mark {c : Char} (fixed : c.toLower = c)
    (other : ¬(97 ≤ c.toNat ∧ c.toNat ≤ 122)) (v : Text) :
    Text.eqIgnoreAsciiCase [c] v = decide (v = [c]) := by
  rw [Bool.eq_iff_iff, Text.eqIgnoreAsciiCase_iff, decide_eq_true_eq]
  constructor
  · intro same
    obtain ⟨d, rfl⟩ := List.length_eq_one_iff.1 (by simpa [Text.toAsciiLowercase] using
      (congrArg List.length same).symm)
    have lower : d.toLower = c := by simpa [Text.toAsciiLowercase, fixed] using same.symm
    rw [Text.eq_of_toLower_eq lower other]
  · rintro rfl
    rfl

namespace Attribute

/-- How an attribute is read: the backslash before a literal asterisk or hyphen is lost. -/
def read : Attribute → Attribute
  | .value text => if text = "*" then .any else if text = "-" then .notApplicable else .value text
  | a => a

theorem read_cases (a : Attribute) : (a = .value "*" ∧ a.read = .any) ∨
    (a = .value "-" ∧ a.read = .notApplicable) ∨
    (a.read = a ∧ a ≠ .value "*" ∧ a ≠ .value "-") := by
  cases a with
  | any | notApplicable => exact .inr (.inr ⟨rfl, nofun, nofun⟩)
  | value text =>
    by_cases star : text = "*"
    · exact .inl ⟨by rw [star], if_pos star⟩
    by_cases hyphen : text = "-"
    · exact .inr (.inl ⟨by rw [hyphen], (if_neg star).trans (if_pos hyphen)⟩)
    · exact .inr (.inr ⟨(if_neg star).trans (if_neg hyphen), by simpa using star, by simpa using hyphen⟩)

/-- A literal asterisk stands for a name or a version that is another one. -/
def widens (a : Attribute) (v : Text) : Bool := a = .value "*" && v ≠ "*"

def widensVersion (a : Attribute) (version : Option Text) : Bool :=
  a = .value "*" && version.all fun v => compareVersions v "*" != .eq

/-- A literal hyphen does not stand for a version equal to it. -/
def loses (node : NvdCpeMatch) (a : Attribute) (version : Option Text) : Bool :=
  a = .value "-" && version.any fun v => compareVersions v "-" == .eq && node.withinBounds v

theorem admits_eq (a : Attribute) (v : Text) : a.admits v = (a.read.admits v && !a.widens v) := by
  rcases a.read_cases with ⟨rfl, read⟩ | ⟨rfl, read⟩ | ⟨read, named, -⟩ <;> rw [read]
  · simpa [widens, admits] using eqIgnoreAsciiCase_mark (c := '*') rfl (by decide) v
  · simpa [widens, admits] using eqIgnoreAsciiCase_mark (c := '-') rfl (by decide) v
  · rw [widens, decide_eq_false named, Bool.false_and, Bool.not_false, Bool.and_true]

theorem admitsVersion_eq (node : NvdCpeMatch) (a : Attribute) (version : Option Text) :
    a.admitsVersion node version =
      (a.read.admitsVersion node version && !a.widensVersion version || a.loses node version) := by
  rcases a.read_cases with ⟨rfl, read⟩ | ⟨rfl, read⟩ | ⟨read, named, numbered⟩ <;> rw [read]
  · cases version <;> simp [widensVersion, loses, admitsVersion, Bool.and_comm, bne]
  · cases version <;> simp [widensVersion, loses, admitsVersion]
  · rw [widensVersion, loses, decide_eq_false named, decide_eq_false numbered]
    simp

theorem read_of_loses {node : NvdCpeMatch} {a : Attribute} {version : Option Text}
    (lost : a.loses node version = true) : a.read.admitsVersion node version = false := by
  simp only [loses, Bool.and_eq_true, decide_eq_true_eq] at lost
  rw [lost.1]
  cases version <;> rfl

end Attribute

theorem cpeAttrMatches_text (a : Attribute) (v : Text) :
    cpeAttrMatches a.text v = a.read.admits v := by
  rcases a.read_cases with ⟨rfl, read⟩ | ⟨rfl, read⟩ | ⟨read, named, -⟩ <;> rw [read]
  · rfl
  · exact eqIgnoreAsciiCase_mark rfl (by decide) v
  · cases a with
    | any => rfl
    | notApplicable => exact eqIgnoreAsciiCase_mark rfl (by decide) v
    | value text =>
      have other : text ≠ "*" := fun same => named (same ▸ rfl)
      rw [cpeAttrMatches, Attribute.text, decide_eq_false other, Bool.false_or]
      rfl

theorem versionMatchesNode_text (a : Attribute) (node : NvdCpeMatch) (version : Option Text) :
    versionMatchesNode version a.text node = a.read.admitsVersion node version := by
  rcases a.read_cases with ⟨rfl, read⟩ | ⟨rfl, read⟩ | ⟨read, named, numbered⟩ <;> rw [read]
  · cases version <;> rfl
  · cases version <;> rfl
  · cases a with
    | any | notApplicable => cases version <;> rfl
    | value text =>
      have wild : text ≠ "*" := fun same => named (same ▸ rfl)
      have absent : text ≠ "-" := fun same => numbered (same ▸ rfl)
      cases version with
      | none =>
        rw [versionMatchesNode, Attribute.text, decide_eq_false wild, Bool.false_and]
        rfl
      | some version =>
        rw [versionMatchesNode, Attribute.text, if_neg absent, Attribute.admitsVersion]
        by_cases same : compareVersions version text = .eq
        · rw [if_neg fun different => different.2 same, same]
          rfl
        · rw [if_pos ⟨wild, same⟩, beq_eq_false_iff_ne.2 same, Bool.false_and]

/-- The candidate is accepted by a literal asterisk, or lost by a literal hyphen. -/
def misread (candidate : CpeCandidate) (node : NvdCpeMatch) (vendor product version : Attribute) :
    Bool :=
  vendor.read.admits candidate.vendor && product.read.admits candidate.product &&
      version.read.admitsVersion node candidate.version &&
      (vendor.widens candidate.vendor || product.widens candidate.product ||
        version.widensVersion candidate.version) ||
    vendor.admits candidate.vendor && product.admits candidate.product &&
      version.loses node candidate.version

/-- The attributes are split as they are written.  A candidate is matched by what they mean just if
the part does not match or none of the others is misread. -/
theorem criteria_mean_attributes (candidate : CpeCandidate) (node : NvdCpeMatch) :
    (∀ attributes,
      splitCpe (formatted attributes) =
        "cpe".toList :: "2.3".toList :: attributes.map Attribute.text) ∧
    ∀ (part vendor product version : Attribute) (rest : List Attribute),
      node.criteria = formatted (part :: vendor :: product :: version :: rest) →
      (candidateMatchesNode candidate node =
          (cpeAttrMatches part.text "a" && vendor.admits candidate.vendor &&
            product.admits candidate.product && version.admitsVersion node candidate.version) ↔
        (cpeAttrMatches part.text "a" && misread candidate node vendor product version) =
          false) := by
  refine ⟨splitCpe_formatted, ?_⟩
  intro part vendor product version rest criteria
  have read : candidateMatchesNode candidate node =
      (cpeAttrMatches part.text "a" && vendor.read.admits candidate.vendor &&
        product.read.admits candidate.product &&
        version.read.admitsVersion node candidate.version) := by
    rw [← cpeAttrMatches_text, ← cpeAttrMatches_text, ← versionMatchesNode_text, Bool.eq_iff_iff,
      candidateMatchesNode_iff, criteria, splitCpe_formatted]
    simp only [Bool.and_eq_true]
    constructor
    · rintro ⟨_, _, _, _, fields, isPart, isVendor, isProduct, isVersion⟩
      cases fields
      exact ⟨⟨⟨isPart, isVendor⟩, isProduct⟩, isVersion⟩
    · rintro ⟨⟨⟨isPart, isVendor⟩, isProduct⟩, isVersion⟩
      exact ⟨_, _, _, _, rfl, isPart, isVendor, isProduct, isVersion⟩
  have lost := @Attribute.read_of_loses node version candidate.version
  rw [read, misread, vendor.admits_eq, product.admits_eq, version.admitsVersion_eq]
  generalize cpeAttrMatches part.text "a" = isPart
  generalize vendor.read.admits candidate.vendor = isVendor, vendor.widens candidate.vendor = wide
  generalize product.read.admits candidate.product = isProduct,
    product.widens candidate.product = wide'
  generalize version.read.admitsVersion node candidate.version = isVersion,
    version.widensVersion candidate.version = wide'', version.loses node candidate.version = loses at lost ⊢
  decide +revert

def unbounded : NvdCpeMatch :=
  ⟨formatted attributes, none, none, none, none⟩

theorem criteria_mean_attributes_plain :
    candidateMatchesNode ⟨"v", "p", none⟩ (unbounded [.value "a", .value "v", .value "p", .any]) = true := by
  refine ((criteria_mean_attributes _ _).2 (.value "a") (.value "v") (.value "p") .any [] rfl).2 ?_
  decide +kernel

/-- A literal asterisk is read as a wildcard for the vendor, the product and the version, and a literal
hyphen as no version. -/
theorem criteria_not_attributes :
    candidateMatchesNode ⟨"x", "p", some "1"⟩
      (unbounded [.value "a", .value "*", .value "p", .any]) = true ∧
    (Attribute.value "*").admits "x" = false ∧
    candidateMatchesNode ⟨"v", "x", some "1"⟩
      (unbounded [.value "a", .value "v", .value "*", .any]) = true ∧
    candidateMatchesNode ⟨"v", "p", some "1"⟩
      (unbounded [.value "a", .value "v", .value "p", .value "*"]) = true ∧
    compareVersions "1" "*" ≠ .eq ∧
    candidateMatchesNode ⟨"v", "p", some "-"⟩
      (unbounded [.value "a", .value "v", .value "p", .value "-"]) = false := by
  decide +kernel

end ArtifactKeeper.Cpe
