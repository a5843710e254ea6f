import ArtifactKeeper.Library.Descent
import ArtifactKeeper.Library.Text

/-!
# License expressions

`is_compound_spdx_expression` splits a license field into tokens and runs a recursive-descent parser
on them.
-/

namespace ArtifactKeeper.Spdx

open Descent Text List Option Bool

/-! ### Tokens -/

def spdxExpressionMaxDepth : ℕ := 32

inductive SpdxToken
  | opening
  | closing
  | and
  | or
  | with
  | term (word : Text)
  deriving DecidableEq

def endsWord (c : Char) : Bool := isWhitespace c || c == '(' || c == ')'

def inWord (c : Char) : Bool := c.isAlphanum || c == '-' || c == '.' || c == '+' || c == ':'

def wordToken (word : Text) : SpdxToken :=
  if word = "AND" then .and
  else if word = "OR" then .or
  else if word = "WITH" then .with
  else .term word

def tokenizeSpdxExpression (input : Text) : Option (List SpdxToken) :=
  match _rest : input.dropWhile isWhitespace with
  | [] => some []
  | first :: others =>
    if first = '(' then (tokenizeSpdxExpression others).map (SpdxToken.opening :: ·)
    else if first = ')' then (tokenizeSpdxExpression others).map (SpdxToken.closing :: ·)
    else
      let word := (first :: others).takeWhile (!endsWord ·)
      if word.all inWord then
        (tokenizeSpdxExpression (others.dropWhile (!endsWord ·))).map (wordToken word :: ·)
      else none
termination_by input.length
decreasing_by
  all_goals
    have shorter := length_dropWhile_le isWhitespace input
    have shortest := length_dropWhile_le (!endsWord ·) others
    rw [_rest, length_cons] at shorter
    omega

/-! ### The parser -/

def isSpdxIdstring (s : Text) : Bool :=
  !s.isEmpty && s.all fun c => c.isAlphanum || c == '-' || c == '.'

def isSpdxSimpleExpression (term : Text) : Bool :=
  match splitOnce ':' term with
  | some (doc, lic) =>
    (stripPrefix doc "DocumentRef-").any isSpdxIdstring &&
      (stripPrefix lic "LicenseRef-").any isSpdxIdstring
  | none => isSpdxIdstring ((stripSuffix term ['+']).getD term)

def eat (want : SpdxToken) : Recognizer SpdxToken
  | t :: ts => if t = want then some ts else none
  | [] => none

/-- A parser of this kind returns the tokens it has not read; there are none if it fails.  The
parentheses that may still be opened are `budget`. -/
def withExpr : ℕ → Recognizer SpdxToken
  | budget, .opening :: ts =>
    match budget with
    | 0 => none
    | budget + 1 => (sepBy (sepBy (withExpr budget) .and) .or ts).bind (eat .closing)
  | _, .term term :: ts =>
    if isSpdxSimpleExpression term then
      match ts with
      | .with :: .term exception :: ts => if isSpdxIdstring exception then some ts else none
      | .with :: _ => none
      | ts => some ts
    else none
  | _, _ => none

def andExpr (budget : ℕ) : Recognizer SpdxToken := sepBy (withExpr budget) .and

def orExpr (budget : ℕ) : Recognizer SpdxToken := sepBy (andExpr budget) .or

def SpdxToken.isOperator : SpdxToken → Bool
  | .and | .or | .with => true
  | _ => false

def isCompoundSpdxExpression (input : Text) : Bool :=
  match tokenizeSpdxExpression input with
  | none => false
  | some tokens =>
    tokens.any SpdxToken.isOperator && orExpr spdxExpressionMaxDepth tokens = some []

/-! ### The grammar -/

inductive Lexes : Text → List SpdxToken → Prop
  | done {space : Text} (blank : ∀ c ∈ space, isWhitespace c = true) : Lexes space []
  | opening {space rest : Text} {tokens : List SpdxToken} (blank : ∀ c ∈ space, isWhitespace c = true)
      (more : Lexes rest tokens) : Lexes (space ++ '(' :: rest) (.opening :: tokens)
  | closing {space rest : Text} {tokens : List SpdxToken} (blank : ∀ c ∈ space, isWhitespace c = true)
      (more : Lexes rest tokens) : Lexes (space ++ ')' :: rest) (.closing :: tokens)
  | word {space word rest : Text} {tokens : List SpdxToken}
      (blank : ∀ c ∈ space, isWhitespace c = true) (nonempty : word ≠ [])
      (letters : ∀ c ∈ word, inWord c = true) (ends : ∀ c ∈ rest.head?, endsWord c = true)
      (more : Lexes rest tokens) : Lexes (space ++ (word ++ rest)) (wordToken word :: tokens)

/-- The operators, from the loosest one. -/
inductive Level
  | or
  | and
  | with

/-- Expressions of a level with parentheses nested at most `depth` times. -/
inductive Derives : ℕ → Level → List SpdxToken → Prop
  | conjunction {depth : ℕ} {ts : List SpdxToken} (one : Derives depth .and ts) : Derives depth .or ts
  | either {depth : ℕ} {ts us : List SpdxToken} (left : Derives depth .and ts)
      (right : Derives depth .or us) : Derives depth .or (ts ++ .or :: us)
  | operand {depth : ℕ} {ts : List SpdxToken} (one : Derives depth .with ts) : Derives depth .and ts
  | both {depth : ℕ} {ts us : List SpdxToken} (left : Derives depth .with ts)
      (right : Derives depth .and us) : Derives depth .and (ts ++ .and :: us)
  | simple {depth : ℕ} {term : Text} (valid : isSpdxSimpleExpression term = true) :
      Derives depth .with [.term term]
  | exception {depth : ℕ} {term exception : Text} (valid : isSpdxSimpleExpression term = true)
      (named : isSpdxIdstring exception = true) :
      Derives depth .with [.term term, .with, .term exception]
  | parentheses {depth : ℕ} {ts : List SpdxToken} (inner : Derives depth .or ts) :
      Derives (depth + 1) .with (.opening :: ts ++ [.closing])

variable {depth : ℕ} {ts : List SpdxToken}

/-! ### Tokens of a text -/

theorem span_append {p : Char → Bool} {front back : Text} (all : ∀ c ∈ front, p c = true)
    (stop : ∀ c ∈ back.head?, p c = false) :
    (front ++ back).takeWhile p = front ∧ (front ++ back).dropWhile p = back := by
  rw [takeWhile_append_of_pos all, dropWhile_append_of_pos all]
  cases back with
  | nil => simp
  | cons c _ => simp [stop c rfl]

theorem endsWord_of_inWord {c : Char} (letter : inWord c = true) : endsWord c = false := by
  delta inWord Char.isAlphanum Char.isAlpha Char.isUpper Char.isLower Char.isDigit at letter
  simp only [or_eq_true, and_eq_true, decide_eq_true_eq, beq_iff_eq] at letter
  change ((((((65 ≤ c.toNat ∧ c.toNat ≤ 90) ∨ 97 ≤ c.toNat ∧ c.toNat ≤ 122) ∨
    48 ≤ c.toNat ∧ c.toNat ≤ 57) ∨ c = '-') ∨ c = '.') ∨ c = '+') ∨ c = ':' at letter
  rcases letter with ((((range | rfl) | rfl) | rfl) | rfl)
  · have apart : c ≠ '(' ∧ c ≠ ')' := by
      constructor <;>
      · rintro rfl
        simp at range
    simp [endsWord, isWhitespace, apart]
    omega
  all_goals rfl

theorem blank_takeWhile (input : Text) : ∀ c ∈ input.takeWhile isWhitespace, isWhitespace c = true :=
  fun _ mem => mem_takeWhile_imp mem

theorem lexes_of_tokenize {input : Text} (read : tokenizeSpdxExpression input = some ts) :
    Lexes input ts := by
  fun_induction tokenizeSpdxExpression input generalizing ts with
  | case1 _ blank =>
    cases read
    exact .done (dropWhile_eq_nil_iff.1 blank)
  | case2 input _ rest ih =>
    obtain ⟨_, later, rfl⟩ := map_eq_some_iff.1 read
    rw [← takeWhile_append_dropWhile (p := isWhitespace) (l := input), rest]
    exact .opening (blank_takeWhile input) (ih later)
  | case3 input _ rest _ ih =>
    obtain ⟨_, later, rfl⟩ := map_eq_some_iff.1 read
    rw [← takeWhile_append_dropWhile (p := isWhitespace) (l := input), rest]
    exact .closing (blank_takeWhile input) (ih later)
  | case4 input first others rest not_open not_close word letters =>
    rename_i ih
    obtain ⟨_, later, rfl⟩ := map_eq_some_iff.1 read
    have solid : isWhitespace first = false := by
      simpa [rest] using head?_dropWhile_not isWhitespace input
    have inside : endsWord first = false := by simp [endsWord, solid, not_open, not_close]
    have whole : first :: others = word ++ others.dropWhile (!endsWord ·) := by
      conv_lhs => rw [← takeWhile_append_dropWhile (p := (!endsWord ·)) (l := first :: others)]
      simp [word, inside]
    rw [← takeWhile_append_dropWhile (p := isWhitespace) (l := input), rest, whole]
    refine .word (blank_takeWhile input) (by simp [word, inside]) (all_eq_true.1 letters) ?_
      (ih later)
    have stop := head?_dropWhile_not (!endsWord ·) others
    cases shape : others.dropWhile (!endsWord ·) with
    | nil => simp
    | cons c _ => simpa [shape] using stop
  | case5 => cases read

theorem tokenize_cons {space rest : Text} {first : Char} (blank : ∀ c ∈ space, isWhitespace c = true)
    (solid : isWhitespace first = false) :
    tokenizeSpdxExpression (space ++ first :: rest) =
      if first = '(' then (tokenizeSpdxExpression rest).map (SpdxToken.opening :: ·)
      else if first = ')' then (tokenizeSpdxExpression rest).map (SpdxToken.closing :: ·)
      else
        let word := (first :: rest).takeWhile (!endsWord ·)
        if word.all inWord then
          (tokenizeSpdxExpression (rest.dropWhile (!endsWord ·))).map (wordToken word :: ·)
        else none := by
  rw [tokenizeSpdxExpression, dropWhile_append_of_pos blank,
    dropWhile_cons_of_neg (by simp [solid])]

theorem tokenize_of_lexes {input : Text} (lexed : Lexes input ts) :
    tokenizeSpdxExpression input = some ts := by
  induction lexed with
  | done blank => rw [tokenizeSpdxExpression, dropWhile_eq_nil_iff.2 blank]
  | opening blank more ih | closing blank more ih =>
    rw [tokenize_cons blank rfl]
    simp [ih]
  | @word _ word rest _ blank nonempty letters ends _ ih =>
    have inside : ∀ c ∈ word, (!endsWord c) = true := fun c mem => by
      simp [endsWord_of_inWord (letters c mem)]
    obtain ⟨first, _, rfl⟩ := exists_cons_of_ne_nil nonempty
    have solid := inside first mem_cons_self
    have stop : ∀ c ∈ rest.head?, (!endsWord c) = false := fun c mem => by simp [ends c mem]
    have whole := (span_append inside stop).1
    have later := (span_append (fun c mem => inside c (mem_cons_of_mem _ mem)) stop).2
    simp only [endsWord, not_eq_true', or_eq_false_iff, beq_eq_false_iff_ne] at solid
    rw [cons_append] at whole ⊢
    rw [tokenize_cons blank solid.1.1, if_neg solid.1.2, if_neg solid.2, whole, later, ih]
    simp [all_eq_true.2 letters]

/-! ### Expressions -/

theorem derives_and : Derives depth .and = SepBy (Derives depth .with) .and := by
  funext ts
  refine propext ⟨fun derived => ?_, fun sentences => ?_⟩
  · generalize level : Level.and = l at derived
    induction derived with
    | operand one => exact .one one
    | both left _ _ ih => exact .more left (ih level)
    | _ => cases level
  · induction sentences with
    | one sentence => exact .operand sentence
    | more sentence _ ih => exact .both sentence ih

theorem derives_or : Derives depth .or = SepBy (Derives depth .and) .or := by
  funext ts
  refine propext ⟨fun derived => ?_, fun sentences => ?_⟩
  · generalize level : Level.or = l at derived
    induction derived with
    | conjunction one => exact .one one
    | either left _ _ ih => exact .more left (ih level)
    | _ => cases level
  · induction sentences with
    | one sentence => exact .conjunction sentence
    | more sentence _ ih => exact .either sentence ih

theorem recognizes_or
    (operands : Recognizes (withExpr depth) (Derives depth .with) (· ≠ .with)) :
    Recognizes (orExpr depth) (Derives depth .or) fun t => (t ≠ .with ∧ t ≠ .and) ∧ t ≠ .or := by
  have conjunctions : Recognizes (andExpr depth) _ _ := operands.sepBy SpdxToken.noConfusion
  rw [← derives_and] at conjunctions
  rw [derives_or]
  exact conjunctions.sepBy ⟨SpdxToken.noConfusion, SpdxToken.noConfusion⟩

section

variable (inner : ∀ n < depth, Recognizes (withExpr n) (Derives n .with) (· ≠ .with))
include inner

theorem with_sound {rest : List SpdxToken} (read : withExpr depth ts = some rest) :
    ∃ used, ts = used ++ rest ∧ Derives depth .with used := by
  unfold withExpr at read
  split at read
  · next _ =>
    split at read
    · cases read
    · next _ =>
      obtain ⟨_, expression, closed⟩ := bind_eq_some_iff.1 read
      obtain ⟨_, rfl, derived⟩ := (recognizes_or (inner _ (Nat.lt_succ_self _))).sound expression
      unfold eat at closed
      split at closed
      · split_ifs at closed with close
        cases closed
        exact ⟨_, by simp [close], .parentheses derived⟩
      · cases closed
  · next _ _ =>
    split_ifs at read with valid
    split at read
    · split_ifs at read with named
      cases read
      exact ⟨_, rfl, .exception valid named⟩
    · cases read
    · cases read
      exact ⟨_, rfl, .simple valid⟩
  · cases read

theorem with_complete {rest : List SpdxToken} (derived : Derives depth .with ts)
    (follow : ∀ t ∈ rest.head?, t ≠ .with) : withExpr depth (ts ++ rest) = some rest := by
  cases derived with
  | @simple _ _ valid =>
    cases rest with
    | nil => simp [withExpr, valid]
    | cons t _ => cases t <;> simp_all [withExpr]
  | exception valid named => simp [withExpr, valid, named]
  | @parentheses _ ts derived =>
    have read := @Recognizes.complete _ _ _ _ (recognizes_or (inner _ (Nat.lt_succ_self _))) ts
      (.closing :: rest) derived (by simp)
    unfold orExpr andExpr at read
    simp [withExpr, read, eat]

end

theorem recognizes_with (depth : ℕ) :
    Recognizes (withExpr depth) (Derives depth .with) (· ≠ .with) := by
  induction depth using Nat.strong_induction_on with
  | _ _ ih => exact ⟨with_sound ih, with_complete ih⟩

theorem compound_of_tokenize {input : Text} (read : tokenizeSpdxExpression input = some ts)
    (derived : Derives spdxExpressionMaxDepth .or ts) (operator : ∃ t ∈ ts, t.isOperator = true) :
    isCompoundSpdxExpression input = true := by
  have parses := (recognizes_or (recognizes_with spdxExpressionMaxDepth)).eq_nil.2 derived
  simpa [isCompoundSpdxExpression, read, parses] using operator

/-- A text is accepted exactly if its tokens derive from the grammar, with an operator among them. -/
theorem compound_expression_iff (input : Text) :
    isCompoundSpdxExpression input = true ↔
      ∃ tokens, Lexes input tokens ∧ Derives spdxExpressionMaxDepth .or tokens ∧
        ∃ t ∈ tokens, t.isOperator = true := by
  have parses tokens := @Recognizes.eq_nil _ _ _ _ (recognizes_or (recognizes_with spdxExpressionMaxDepth)) tokens
  unfold isCompoundSpdxExpression
  constructor
  · intro accepted
    split at accepted
    · cases accepted
    · next tokens read =>
      simp only [and_eq_true, decide_eq_true_eq, List.any_eq_true] at accepted
      exact ⟨tokens, lexes_of_tokenize read, (parses tokens).1 accepted.2, accepted.1⟩
  · rintro ⟨_, lexed, derived, operator⟩
    exact compound_of_tokenize (tokenize_of_lexes lexed) derived operator

/-! ### The sanitizer -/

def isIdChar (c : Char) : Bool := c.isAlphanum || c == '-' || c == '.'

def IsLicenseId (id : Text) : Prop :=
  ∃ rest, rest ≠ [] ∧ (∀ c ∈ rest, isIdChar c = true) ∧ (id = rest ∨ id = rest ++ ['+'])

/-- The table of identifiers and the lower case of Unicode. -/
structure Licenses where
  identifiers : List Text
  valid : ∀ id ∈ identifiers, IsLicenseId id
  toLowercase : Text → Text
  operators : ∀ s, ∀ word ∈ (["OR", "AND", "WITH"] : List Text), toLowercase s = toLowercase word →
    toAsciiLowercase s = toAsciiLowercase word

def licenseTermInputCap : ℕ := 256

/-- `LICENSEREF_FILTER` replaces a run of other characters. -/
def filterRuns (inside : Bool) : Text → Text
  | [] => []
  | c :: s =>
    if isIdChar c then c :: filterRuns false s
    else if inside then filterRuns true s
    else '-' :: filterRuns true s

def hasEmbeddedOperator (term : Text) : Bool :=
  (term.splitOnP isWhitespace).any fun word => toAsciiLowercase word ∈ (["or", "and", "with"] : List Text)

variable (lic : Licenses)

def canonical (term : Text) : Option Text :=
  if hasEmbeddedOperator term then none
  else lic.identifiers.reverse.find? (lic.toLowercase · = lic.toLowercase term)

def licenseRef (term : Text) : Text :=
  let stripped := ((filterRuns false term).dropWhile (· = '-')).rdropWhile (· = '-')
  if stripped.isEmpty then "LicenseRef-NOASSERTION" else "LicenseRef-" ++ stripped.take 64

def sanitizeLicenseTerm (term : Text) : Option Text :=
  let trimmed := trim term
  if trimmed.isEmpty then none
  else
    let bounded := trimmed.take licenseTermInputCap
    some ((canonical lic bounded).getD (licenseRef bounded))

variable {lic} {word : Text}

theorem inWord_of_isIdChar {c : Char} (letter : isIdChar c = true) : inWord c = true := by
  simp [inWord, isIdChar] at letter ⊢
  tauto

theorem mem_filterRuns {inside : Bool} {s : Text} : ∀ c ∈ filterRuns inside s, isIdChar c = true := by
  induction s generalizing inside with
  | nil => nofun
  | cons d s ih =>
    unfold filterRuns
    split_ifs with letter
    · exact forall_mem_cons.2 ⟨letter, ih⟩
    · exact ih
    · exact forall_mem_cons.2 ⟨rfl, ih⟩

/-- An operand of an expression that has no other tokens in it. -/
structure Operand (word : Text) : Prop where
  nonempty : word ≠ []
  letters : ∀ c ∈ word, inWord c = true
  simple : isSpdxSimpleExpression word = true
  token : wordToken word = .term word

theorem IsLicenseId.operand (id : IsLicenseId word) (token : wordToken word = .term word) :
    Operand word := by
  obtain ⟨rest, some, all, shape⟩ := id
  have letters : ∀ c ∈ word, isIdChar c = true ∨ c = '+' := by
    rcases shape with rfl | rfl
    · exact fun c mem => .inl (all c mem)
    · exact fun c mem => (mem_append.1 mem).imp (all c) mem_singleton.1
  have stripped : (stripSuffix word ['+']).getD word = rest := by
    rcases shape with rfl | rfl
    · refine congrArg (getD · word) (eq_none_iff_forall_ne_some.2 fun front ends => ?_)
      rw [stripSuffix_eq_some.1 ends] at all
      exact absurd (all '+' (by simp)) (by decide)
    · rw [stripSuffix_eq_some.2 rfl, getD_some]
  refine ⟨?_, fun c mem => ?_, ?_, token⟩
  · rcases shape with rfl | rfl <;> simp [some]
  · rcases letters c mem with letter | rfl
    · exact inWord_of_isIdChar letter
    · rfl
  · have colon : ':' ∉ word := fun mem => absurd (letters ':' mem) (by decide)
    rw [isSpdxSimpleExpression, splitOnce_eq_none.2 colon]
    simpa [stripped, isSpdxIdstring, isIdChar, some] using all

theorem operand_licenseRef (term : Text) : Operand (licenseRef term) := by
  unfold licenseRef
  extract_lets stripped
  split_ifs with blank
  · exact IsLicenseId.operand ⟨_, by decide, all_eq_true.1 (by decide), .inl rfl⟩ rfl
  · refine IsLicenseId.operand ⟨_, by simp, fun c mem => ?_, .inl rfl⟩ rfl
    rcases mem_append.1 mem with mem | mem
    · exact all_eq_true.1 (by decide : "LicenseRef-".toList.all isIdChar = true) c mem
    · exact mem_filterRuns c
        ((dropWhile_sublist _).subset (( rdropWhile_prefix _ _).subset (mem_of_mem_take mem)))

theorem hasEmbeddedOperator_of_lower {term : Text}
    (lower : toAsciiLowercase term ∈ (["or", "and", "with"] : List Text)) :
    hasEmbeddedOperator term = true := by
  have solid : ∀ c ∈ term, isWhitespace c = false := by
    refine fun c mem => eq_false_of_ne_true fun blank => ?_
    have same : c.toLower = c := toLower_of_not_upper fun upper => by
      simp [isWhitespace] at blank
      omega
    have letter : c ∈ toAsciiLowercase term := mem_map.2 ⟨c, mem, same⟩
    have letters : ∀ word ∈ (["or", "and", "with"] : List Text), word.all (!isWhitespace ·) := by
      decide
    simpa [blank] using all_eq_true.1 (letters _ lower) c letter
  rw [hasEmbeddedOperator, splitOnP_eq_singleton solid]
  simp only [any_cons, lower, Bool.decide_true, Bool.true_or]

theorem operand_canonical {term : Text} (found : canonical lic term = some word) : Operand word := by
  unfold canonical at found
  split_ifs at found with embedded
  have listed := mem_reverse.1 (mem_of_find?_eq_some found)
  have same : lic.toLowercase term = lic.toLowercase word := by
    simpa [eq_comm] using find?_some found
  have apart : word ∉ (["OR", "AND", "WITH"] : List Text) := fun operator => by
    refine embedded (hasEmbeddedOperator_of_lower ?_)
    rw [lic.operators term word operator same]
    exact (by decide : ∀ word ∈ (["OR", "AND", "WITH"] : List Text),
      toAsciiLowercase word ∈ (["or", "and", "with"] : List Text)) word operator
  simp at apart
  exact (lic.valid word listed).operand (by simp [wordToken, apart])

theorem operand_sanitized {term : Text} (kept : sanitizeLicenseTerm lic term = some word) :
    Operand word := by
  unfold sanitizeLicenseTerm at kept
  extract_lets trimmed bounded at kept
  split_ifs at kept
  obtain rfl := some.inj kept
  cases found : canonical lic bounded with
  | none => exact operand_licenseRef bounded
  | some _ => exact operand_canonical found

theorem lexes_joined {words : List Text} (operands : ∀ word ∈ words, Operand word) (space : Text)
    (blank : ∀ c ∈ space, isWhitespace c = true) :
    Lexes (space ++ " OR ".toList.intercalate words) ((words.map .term).intersperse .or) := by
  induction words generalizing space with
  | nil => simpa using Lexes.done blank
  | cons word words ih =>
    obtain ⟨⟨nonempty, letters, -, token⟩, later⟩ := forall_mem_cons.1 operands
    cases words with
    | nil =>
      have last := @Lexes.word space word [] _ blank nonempty letters (by simp) (.done (by simp))
      simpa [token] using last
    | cons _ _ =>
      have gap : ∀ c ∈ (" " : Text), isWhitespace c = true := all_eq_true.1 (by decide)
      have more := ih later " " gap
      have operator := @Lexes.word " " "OR" _ _ gap (by decide) (all_eq_true.1 (by decide))
        (by simp [endsWord, isWhitespace]) more
      have all := Lexes.word blank nonempty letters (by simp [endsWord, isWhitespace]) operator
      rw [token] at all
      simpa [wordToken] using all

theorem derives_joined {words : List Text} (operands : ∀ word ∈ words, Operand word) (some : words ≠ []) :
    Derives depth .or ((words.map .term).intersperse .or) := by
  induction words with
  | nil => exact absurd rfl some
  | cons word words ih =>
    obtain ⟨first, later⟩ := forall_mem_cons.1 operands
    have one : Derives depth .and [.term word] := .operand (.simple first.simple)
    cases words with
    | nil => exact .conjunction one
    | cons _ _ => exact .either one (ih later (by simp))

/-- Every term that is not blank becomes one operand of the joined expression. -/
theorem sanitized_terms_joined (lic : Licenses) (terms : List Text) :
    let words := terms.filterMap (sanitizeLicenseTerm lic)
    let joined := " OR ".toList.intercalate words
    words.length = terms.countP (trim · ≠ []) ∧
      tokenizeSpdxExpression joined = some ((words.map .term).intersperse .or) ∧
      (2 ≤ words.length → isCompoundSpdxExpression joined = true) := by
  intro words _
  have operands : ∀ word ∈ words, Operand word := fun word mem => by
    obtain ⟨_, -, kept⟩ := mem_filterMap.1 mem
    exact operand_sanitized kept
  have tokens := tokenize_of_lexes (lexes_joined operands [] nofun)
  refine ⟨?_, tokens, fun several => ?_⟩
  · rw [length_filterMap_eq_countP]
    refine countP_congr fun term _ => ?_
    simp [sanitizeLicenseTerm]
  · refine compound_of_tokenize tokens (derives_joined operands ?_) ⟨.or, ?_, rfl⟩
    · rintro none
      simp [none] at several
    · obtain ⟨a, b, rest, shape⟩ : ∃ a b rest, words = a :: b :: rest := by
        match words, several with
        | a :: b :: rest, _ => exact ⟨a, b, rest, rfl⟩
      simp [shape]

def someLicenses : Licenses where
  identifiers := ["MIT", "GPL-2.0+"]
  valid := by
    refine forall_mem_cons.2 ⟨?_, forall_mem_singleton.2 ?_⟩
    · exact ⟨"MIT", by decide, all_eq_true.1 (by decide), .inl rfl⟩
    · exact ⟨"GPL-2.0", by decide, all_eq_true.1 (by decide), .inr rfl⟩
  toLowercase := toAsciiLowercase
  operators _ _ _ same := same

/-- A term with an operator inside, a blank one and an identifier in other case. -/
theorem sanitized_terms_joined_some :
    let words := ["mit OR evil", " ", " gpl-2.0+ "].filterMap (sanitizeLicenseTerm someLicenses)
    words = ["LicenseRef-mit-OR-evil", "GPL-2.0+"] ∧
    isCompoundSpdxExpression (" OR ".toList.intercalate words) = true := by
  have words : ["mit OR evil", " ", " gpl-2.0+ "].filterMap (sanitizeLicenseTerm someLicenses) =
      ["LicenseRef-mit-OR-evil", "GPL-2.0+"] := by
    decide +kernel
  exact ⟨words, (sanitized_terms_joined someLicenses _).2.2 (by rw [words]; decide)⟩

end ArtifactKeeper.Spdx
