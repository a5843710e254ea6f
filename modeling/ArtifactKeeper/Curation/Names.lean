import ArtifactKeeper.Curation.Constraints
import ArtifactKeeper.Glob

/-!
# Names in curation rules

The pattern of a rule is compared to the name of a package as both are written, or after folding
both.  Folding puts a hyphen for each run of separators and lower case for the other characters.
-/

namespace ArtifactKeeper.Curation

open Glob List Option Bool Text

/-! ### Folding -/

def isSeparator (c : Char) : Bool := c == '-' || c == '_' || c == '.'

/-- The body of the loop: the text put out, and whether the last character was a separator. -/
def foldStep (s : Text × Bool) (c : Char) : Text × Bool :=
  if isSeparator c then if s.2 then s else (s.1 ++ ['-'], true)
  else (s.1 ++ [c.toLower], false)

def foldPep503 (value : Text) : Text :=
  let out := (value.foldl foldStep ([], true)).1
  if out.getLast? = some '-' then out.dropLast else out

/-! ### Rules -/

structure CurationRule where
  id : ℕ
  (packagePattern versionConstraint architecture action reason ruleType : Text)

structure RuleEvaluation where
  action : Text
  reason : Text
  ruleId : Option ℕ

section Rules

-- The constraints of conda, which have a syntax of their own.
variable (condaMatches : Text → Text → Option Bool)

def nameMatches (foldNames : Bool) (rule : CurationRule) (packageName : Text) : Bool :=
  if foldNames then globMatch (foldPep503 rule.packagePattern) (foldPep503 packageName)
  else globMatch rule.packagePattern packageName

def versionAllowed (condaSemantics : Bool) (rule : CurationRule) : Option Text → Bool
  | some v =>
    if condaSemantics then (condaMatches rule.versionConstraint.trim v).getD false
    else versionMatches rule.versionConstraint.trim v
  | none => rule.versionConstraint.trim == "*"

def architectureAllowed (rule : CurationRule) (architecture : Option Text) : Bool :=
  rule.architecture == "*" || architecture == some rule.architecture

/-- The loop reaches its end for this rule. -/
def applies (packageName : Text) (version architecture : Option Text)
    (foldNames condaSemantics : Bool) (rule : CurationRule) : Bool :=
  rule.ruleType == "pattern" && nameMatches foldNames rule packageName &&
    versionAllowed condaMatches condaSemantics rule version && architectureAllowed rule architecture

def evaluateRules (rules : List CurationRule) (defaultAction packageName : Text)
    (version architecture : Option Text) (foldNames condaSemantics : Bool) : RuleEvaluation :=
  match rules.find? (applies condaMatches packageName version architecture foldNames condaSemantics) with
  | some rule => ⟨rule.action, rule.reason, some rule.id⟩
  | none => ⟨defaultAction, "No matching rule; default action: " ++ defaultAction, none⟩

end Rules

/-! ### Folding from a state on -/

def folded (last : Bool) : Text → Text
  | [] => []
  | c :: s =>
    if isSeparator c then if last then folded true s else '-' :: folded true s
    else c.toLower :: folded false s

variable {c : Char} {s p n : Text}

theorem foldl_foldStep (out : Text) (last : Bool) (s : Text) :
    (s.foldl foldStep (out, last)).1 = out ++ folded last s := by
  induction s generalizing out last with
  | nil => simp [folded]
  | cons c s ih =>
    by_cases separator : isSeparator c = true
    · cases last <;> simp [foldStep, folded, separator, ih]
    · simp [foldStep, folded, separator, ih]

theorem folded_separator (separator : isSeparator c = true) (last : Bool) (s : Text) :
    folded last (c :: s) = if last then folded true s else '-' :: folded true s := if_pos separator

theorem folded_other (other : isSeparator c = false) (last : Bool) (s : Text) :
    folded last (c :: s) = c.toLower :: folded false s := if_neg (by simp [other])

theorem folded_concat (other : isSeparator c = false) (last : Bool) (s : Text) :
    ∃ front, folded last (s ++ [c]) = front ++ [c.toLower] := by
  induction s generalizing last with
  | nil => exact ⟨[], folded_other other last []⟩
  | cons d _ ih =>
    obtain ⟨front, run⟩ := ih true
    obtain ⟨front', plain⟩ := ih false
    rw [cons_append, folded]
    split_ifs
    · exact ⟨front, run⟩
    · exact ⟨'-' :: front, by rw [run]; rfl⟩
    · exact ⟨d.toLower :: front', by rw [plain]; rfl⟩

theorem folded_of_head (other : ∀ c ∈ s.head?, isSeparator c = false) (last last' : Bool) :
    folded last s = folded last' s := by
  cases s with
  | nil => rfl
  | cons c s => rw [folded_other (other c rfl), folded_other (other c rfl)]

/-! ### Units -/

/-- A run of separators or another character. -/
inductive Unit
  | run
  | other (c : Char) (plain : isSeparator c = false)

/-- A separator joins the run behind it. -/
def units : Text → List Unit
  | [] => []
  | c :: s =>
    match plain : isSeparator c with
    | true => if s.head?.any isSeparator then units s else .run :: units s
    | false => .other c plain :: units s

def Unit.char : Unit → Char
  | .run => '-'
  | .other c _ => c.toLower

theorem folded_eq_units (s : Text) : folded false s = (units s).map Unit.char := by
  induction s with
  | nil => rfl
  | cons c s ih =>
    unfold units
    split
    · next separator =>
      have first : folded false (c :: s) = '-' :: folded true s := folded_separator separator _ _
      rw [first]
      split_ifs with more
      · cases s with
        | nil => cases more
        | cons d s =>
          have again : folded true (d :: s) = folded true s := folded_separator more _ _
          rw [← ih, again]
          exact (folded_separator more false s).symm
      · have other : ∀ d ∈ s.head?, isSeparator d = false := by
          intro d first
          simpa [mem_def.1 first] using more
        rw [folded_of_head other true false, ih]
        rfl
    · next plain => rw [folded_other plain, ih]; rfl

/-- The units of a name that a unit of the pattern may stand for. -/
def Unit.Fits : Unit → List Unit → Prop
  | .run, part => part = [.run]
  | .other c _, part => c = '*' ∨ ∃ u, part = [u] ∧ (c = '?' ∨ ∃ d plain, u = .other d plain ∧
      c.toLower = d.toLower)

/-- The pattern matches the name without cutting a run of separators in two. -/
def Uncut (p n : Text) : Prop := ∃ parts, Forall₂ Unit.Fits (units p) parts ∧ units n = parts.flatten

theorem toLower_ne_hyphen {c : Char} (plain : isSeparator c = false) : c.toLower ≠ '-' := by
  intro hyphen
  rw [eq_of_toLower_eq hyphen (by decide)] at plain
  cases plain

theorem Unit.fits_iff (u : Unit) (part : List Unit) :
    Glob.Fits u.char (part.map Unit.char) ↔ u.Fits part := by
  have single (P : Char → Prop) : (∃ d, part.map Unit.char = [d] ∧ P d) ↔
      ∃ v : Unit, part = [v] ∧ P v.char := by
    constructor
    · rintro ⟨_, one, holds⟩
      obtain ⟨v, rfl, rfl⟩ := map_eq_singleton_iff.1 one
      exact ⟨v, rfl, holds⟩
    · rintro ⟨v, rfl, holds⟩
      exact ⟨_, rfl, holds⟩
  rw [Glob.Fits, single]
  cases u with
  | run =>
    constructor
    · rintro (star | ⟨v, rfl, any | same⟩)
      · cases star
      · cases any
      · cases v with
        | run => rfl
        | other d plain => exact absurd same.symm (toLower_ne_hyphen plain)
    · rintro rfl
      exact .inr ⟨.run, rfl, .inr rfl⟩
  | other c plain =>
    have star : c.toLower = '*' ↔ c = '*' :=
      ⟨fun same => eq_of_toLower_eq same (by decide), fun same => by rw [same]; rfl⟩
    have any : c.toLower = '?' ↔ c = '?' :=
      ⟨fun same => eq_of_toLower_eq same (by decide), fun same => by rw [same]; rfl⟩
    simp only [Unit.char, Unit.Fits, star, any]
    refine or_congr_right (exists_congr fun v => and_congr_right fun _ => or_congr_right ?_)
    cases v with
    | run => simpa using toLower_ne_hyphen plain
    | other d plain => simp [plain]

theorem splits_map_iff (p n : List Unit) : Splits (p.map Unit.char) (n.map Unit.char) ↔
    ∃ parts, Forall₂ Unit.Fits p parts ∧ n = parts.flatten := by
  induction p generalizing n with
  | nil => simp [Splits]
  | cons u p ih =>
    rw [map_cons, splits_cons]
    constructor
    · rintro ⟨_, _, split, fits, more⟩
      obtain ⟨part, rest, rfl, rfl, rfl⟩ := map_eq_append_iff.1 split
      obtain ⟨parts, all, rfl⟩ := (ih rest).1 more
      exact ⟨part :: parts, .cons ((u.fits_iff part).1 fits) all, rfl⟩
    · rintro ⟨_, _ | @⟨_, part, _, parts, fits, all⟩, rfl⟩
      exact ⟨_, _, map_append, (u.fits_iff part).2 fits, (ih _).2 ⟨parts, all, rfl⟩⟩

/-! ### Names of projects -/

/-- A valid name of a project: letters, digits and separators, with no separator at either end. -/
structure ValidName (n : Text) : Prop where
  chars : ∀ c ∈ n, c.isAlphanum = true ∨ isSeparator c = true
  first : n.head?.any Char.isAlphanum = true
  last : n.getLast?.any Char.isAlphanum = true

theorem isSeparator_of_isAlphanum (h : c.isAlphanum = true) : isSeparator c = false := by
  by_contra separator
  simp only [isSeparator, not_eq_false, or_eq_true, beq_iff_eq] at separator
  rcases separator with (rfl | rfl) | rfl <;> revert h <;> decide

/-- No separator is at either end. -/
structure Solid (s : Text) : Prop where
  first : ∀ c ∈ s.head?, isSeparator c = false
  last : ∀ c ∈ s.getLast?, isSeparator c = false

theorem ValidName.solid (valid : ValidName n) : Solid n where
  first c mem := by
    have first := valid.first
    rw [mem_def.1 mem] at first
    exact isSeparator_of_isAlphanum first
  last c mem := by
    have last := valid.last
    rw [mem_def.1 mem] at last
    exact isSeparator_of_isAlphanum last

/-- Nothing is cut off at the ends. -/
theorem Solid.fold_eq (solid : Solid s) : foldPep503 s = folded false s := by
  have out : (s.foldl foldStep ([], true)).1 = folded false s := by
    rw [foldl_foldStep, nil_append]
    exact folded_of_head solid.first true false
  have last : (folded false s).getLast? ≠ some '-' := by
    rcases eq_nil_or_concat s with rfl | ⟨init, c, rfl⟩
    · simp [folded]
    · have other : isSeparator c = false := solid.last c (by simp)
      obtain ⟨front, ends⟩ := folded_concat other false init
      rw [concat_eq_append, ends]
      simpa using toLower_ne_hyphen other
  simp only [foldPep503, out, if_neg last]

/-- The rest of the name behind the first character of a pattern; a separator matches itself only. -/
theorem rest_of_match (matched : globMatch (c :: p) n = true) :
    ∃ front rest, n = front ++ rest ∧ globMatch p rest = true ∧
      (isSeparator c = true → front = [c]) := by
  by_cases star : c = '*'
  · subst star
    obtain ⟨skipped, rest, rfl, next⟩ := globMatch_star.1 matched
    exact ⟨skipped, rest, rfl, next, fun separator => by cases separator⟩
  · obtain ⟨d, rest, rfl, fits, next⟩ := (globMatch_cons star).1 matched
    refine ⟨[d], rest, rfl, next, fun separator => ?_⟩
    rcases fits with rfl | rfl
    · cases separator
    · rfl

theorem last_of_match (last : ∀ c ∈ n.getLast?, isSeparator c = false)
    (matched : globMatch p n = true) : ∀ c ∈ p.getLast?, isSeparator c = false := by
  induction p generalizing n with
  | nil => simp
  | cons c p ih =>
    obtain ⟨_, _, rfl, next, single⟩ := rest_of_match matched
    rcases p with _ | ⟨d, p⟩
    · -- The pattern ends here, and so does the name.
      rw [globMatch_nil.1 next, append_nil] at last
      intro e mem
      obtain rfl : c = e := by simpa using mem
      by_contra separator
      have separator : isSeparator c = true := by simpa using separator
      rw [single separator] at last
      simpa [separator] using last c (by simp)
    · refine ih (fun e mem => last e ?_) next
      rw [getLast?_append, mem_def.1 mem]
      rfl

theorem Solid.of_match (solid : Solid n) (matched : globMatch p n = true) : Solid p := by
  refine ⟨?_, last_of_match solid.last matched⟩
  cases p with
  | nil => simp
  | cons c p =>
    obtain ⟨_, _, rfl, -, single⟩ := rest_of_match matched
    intro e mem
    obtain rfl : c = e := by simpa using mem
    by_contra separator
    have separator : isSeparator c = true := by simpa using separator
    have first := solid.first
    rw [single separator] at first
    simpa [separator] using first c rfl

theorem validName_example : ValidName "a-_b" := by
  refine ⟨fun c mem => ?_, by decide, by decide⟩
  have chars : ("a-_b".toList.all fun c => c.isAlphanum || isSeparator c) = true := by decide
  exact or_eq_true_iff.1 (all_eq_true.1 chars c mem)

end ArtifactKeeper.Curation
