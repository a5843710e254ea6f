import ArtifactKeeper.Glob
import ArtifactKeeper.Library.Fallible

/-!
# The allowlist of a virtual conda channel

Exact names are found in an index and patterns are tried one by one, by a loop that remembers the
last star only.  What a list admits is stated entry by entry.
-/

namespace ArtifactKeeper.CondaAllowlist

open Glob Text List Except Fallible

/-! ### Patterns -/

/-- The star that was passed last is kept as the pattern behind it and the text read since. -/
def globLoop (pattern text : Text) (star : Option (Text × Text)) : Bool :=
  match text with
  | [] => (pattern.dropWhile (· = '*')).isEmpty
  | d :: rest =>
    if pattern.head?.any fun c => c = '?' || c = d then
      globLoop pattern.tail rest (star.map fun s => (s.1, s.2 ++ [d]))
    else if pattern.head? = some '*' then
      globLoop pattern.tail (d :: rest) (some (pattern.tail, []))
    else
      match star with
      | some (behind, since) => globLoop behind (since ++ d :: rest).tail (some (behind, []))
      | none => false
termination_by (star.elim (text.length + 1) fun s => s.2.length + text.length,
  pattern.length + text.length)
decreasing_by
  · rw [Prod.lex_def]
    cases star <;> simp
    omega
  · have shorter : pattern.tail.length < pattern.length := by
      cases pattern <;> simp_all
    rw [Prod.lex_def]
    cases star <;> simp only [Option.elim, length_nil]
    all_goals omega
  · rw [Prod.lex_def]
    exact .inl (by simp)

/-- `glob_match`. -/
def matchesGlob (pattern text : Text) : Bool := globLoop pattern text none

variable {rest text : Text}

theorem suffix_iff_tail : rest <:+ text ↔ rest = text ∨ rest <:+ text.tail := by
  cases text with
  | nil => simp
  | cons c _ => exact suffix_cons_iff

variable {pattern : Text} {star : Option (Text × Text)}

theorem globMatch_star_suffix :
    globMatch ('*' :: pattern) text = true ↔ ∃ rest, rest <:+ text ∧ globMatch pattern rest = true := by
  rw [globMatch_star]
  constructor
  · rintro ⟨_, rest, rfl, matched⟩
    exact ⟨rest, suffix_append _ _, matched⟩
  · rintro ⟨rest, ⟨skipped, rfl⟩, matched⟩
    exact ⟨skipped, rest, rfl, matched⟩

theorem globMatch_nil_right : globMatch pattern [] = true ↔ pattern.dropWhile (· = '*') = [] := by
  induction pattern with
  | nil => simp [globMatch]
  | cons c _ ih =>
    by_cases star : c = '*'
    · simp [globMatch, ih]
    · simp [globMatch, star]

/-- A pattern without stars takes as many characters as it has. -/
theorem globMatch_append {piece : Text} (plain : '*' ∉ piece)
    (matched : globMatch (piece ++ pattern) text = true) :
    ∃ rest, rest <:+ text ∧ piece.length + rest.length = text.length ∧ globMatch pattern rest = true := by
  induction piece generalizing text with
  | nil => exact ⟨text, suffix_rfl, by simp, matched⟩
  | cons c _ ih =>
    rw [mem_cons, not_or] at plain
    obtain ⟨d, rest, rfl, -, later⟩ := (globMatch_cons (Ne.symm plain.1)).1 matched
    obtain ⟨rest, last, _, matched⟩ := ih plain.2 later
    exact ⟨rest, last.trans (suffix_cons _ _), by simp; omega, matched⟩

/-- The loop may still go back to its star and let it take more of the text. -/
def Retries (text : Text) (star : Option (Text × Text)) : Prop :=
  ∃ s ∈ star, ∃ rest, rest <:+ (s.2 ++ text).tail ∧ globMatch s.1 rest = true

/-- What was read since the star has matched a piece of the pattern without stars. -/
def Passed (pattern : Text) (star : Option (Text × Text)) : Prop :=
  ∀ s ∈ star, ∃ piece, s.1 = piece ++ pattern ∧ '*' ∉ piece ∧ piece.length = s.2.length

/-- Going back to an earlier star gains nothing at the end of the text or at the next star. -/
theorem Passed.rest_of_retries (passed : Passed pattern star) (again : Retries text star) :
    ∃ rest, rest <:+ text ∧ globMatch pattern rest = true := by
  obtain ⟨s, mem, _, ends, matched⟩ := again
  obtain ⟨_, split, plain, _⟩ := passed s mem
  obtain ⟨rest', last, _, matched⟩ := globMatch_append plain (split ▸ matched)
  refine ⟨rest', suffix_of_suffix_length_le (last.trans (ends.trans (tail_suffix _)))
    (suffix_append s.2 text) ?_, matched⟩
  have shorter := ends.length_le
  simp only [length_tail, length_append] at shorter
  omega

theorem passed_star (pattern : Text) : Passed pattern (some (pattern, [])) := by
  rintro _ ⟨⟩
  exact ⟨[], rfl, not_mem_nil, rfl⟩

/-- The star takes nothing, or it takes more. -/
theorem match_or_retries :
    (globMatch pattern text = true ∨ Retries text (some (pattern, []))) ↔
      ∃ rest, rest <:+ text ∧ globMatch pattern rest = true := by
  simp [Retries, @suffix_iff_tail _ text]

theorem not_globMatch_of_misfit {d : Char}
    (misfits : ¬pattern.head?.any (fun c => c = '?' || c = d) = true)
    (first : pattern.head? ≠ some '*') : ¬globMatch pattern (d :: rest) = true := by
  cases pattern with
  | nil => simp [globMatch]
  | cons c _ =>
    simp only [head?_cons, Option.any_some, Bool.or_eq_true, decide_eq_true_eq] at misfits
    rw [globMatch_cons fun star => first (star ▸ rfl)]
    rintro ⟨_, _, ⟨⟩, fits, -⟩
    exact misfits fits

/-- The loop comes to a star of the pattern at a star of the text, and takes the one for the other. -/
inductive Confuses : Text → Text → Option (Text × Text) → Prop
  | here (pattern text : Text) (star : Option (Text × Text)) :
    Confuses ('*' :: pattern) ('*' :: text) star
  | both {c d : Char} {pattern text : Text} {star : Option (Text × Text)} (fits : c = '?' ∨ c = d)
    (later : Confuses pattern text (star.map fun s => (s.1, s.2 ++ [d]))) :
    Confuses (c :: pattern) (d :: text) star
  | star {d : Char} {pattern text : Text} (star : Option (Text × Text)) (other : d ≠ '*')
    (later : Confuses pattern (d :: text) (some (pattern, []))) :
    Confuses ('*' :: pattern) (d :: text) star
  | again {d : Char} {pattern text behind since : Text}
    (misfits : ¬pattern.head?.any (fun c => c = '?' || c = d) = true)
    (first : pattern.head? ≠ some '*')
    (later : Confuses behind (since ++ d :: text).tail (some (behind, []))) :
    Confuses pattern (d :: text) (some (behind, since))

theorem Confuses.star_mem (confuses : Confuses pattern text star) :
    '*' ∈ text ∨ ∃ s ∈ star, '*' ∈ s.2 := by
  induction confuses with
  | here => exact .inl (.head _)
  | both _ _ ih =>
    rcases ih with mem | ⟨_, mem, inside⟩
    · exact .inl (.tail _ mem)
    · obtain ⟨s, held, rfl⟩ := Option.map_eq_some_iff.1 mem
      rcases mem_append.1 inside with before | now
      · exact .inr ⟨s, held, before⟩
      · exact .inl (mem_singleton.1 now ▸ .head _)
  | star _ _ _ ih => exact .inl (by simpa using ih)
  | @again d _ text _ since _ _ _ ih =>
    have mem : '*' ∈ since ++ d :: text := mem_of_mem_tail (by simpa using ih)
    exact (mem_append.1 mem).symm.imp_right fun before => ⟨_, rfl, before⟩

/-- What the loop accepts is a match. -/
theorem globLoop_sound (done : globLoop pattern text star = true) :
    globMatch pattern text = true ∨ Retries text star := by
  fun_induction globLoop pattern text star with
  | case1 => exact .inl (globMatch_nil_right.2 (List.isEmpty_iff.1 done))
  | case2 pattern star d _ fits ih =>
    cases pattern with
    | nil => cases fits
    | cons c pattern =>
      refine (ih done).imp (fun matched => ?_) fun again => by simpa [Retries] using again
      by_cases letter : c = '*'
      · subst letter
        exact globMatch_star.2 ⟨[d], _, rfl, matched⟩
      · exact (globMatch_cons letter).2 ⟨d, _, rfl, by simpa using fits, matched⟩
  | case3 pattern _ d _ _ first ih =>
    obtain ⟨behind, rfl⟩ : ∃ behind, pattern = '*' :: behind :=
      ⟨pattern.tail, (cons_head?_tail first).symm⟩
    exact .inl (globMatch_star_suffix.2 (match_or_retries.1 (ih done)))
  | case4 _ d rest _ _ _ since ih => exact .inr ⟨_, rfl, match_or_retries.1 (ih done)⟩
  | case5 => cases done

theorem globLoop_complete (clear : ¬Confuses pattern text star) (passed : Passed pattern star)
    (matched : globMatch pattern text = true ∨ Retries text star) :
    globLoop pattern text star = true := by
  fun_induction globLoop pattern text star with
  | case1 _ _ =>
    rw [List.isEmpty_iff, ← globMatch_nil_right]
    refine matched.elim id fun again => ?_
    obtain ⟨_, ends, matched⟩ := passed.rest_of_retries again
    rwa [suffix_nil.1 ends] at matched
  | case2 pattern star d _ fits ih =>
    cases pattern with
    | nil => cases fits
    | cons c pattern =>
      have fits : c = '?' ∨ c = d := by simpa using fits
      have letter : c ≠ '*' := by
        rintro rfl
        rcases fits with any | rfl
        · cases any
        · exact clear (.here _ _ _)
      have longer : Passed pattern (star.map fun s => (s.1, s.2 ++ [d])) := by
        intro _ mem
        obtain ⟨s, held, rfl⟩ := Option.map_eq_some_iff.1 mem
        obtain ⟨piece, split, letters, length⟩ := passed s held
        exact ⟨piece ++ [c], by simp [split], by simp [letters, Ne.symm letter], by simp [length]⟩
      refine ih (fun later => clear (.both fits later)) longer ?_
      rw [globMatch_cons letter] at matched
      simpa [Retries, fits] using matched
  | case3 pattern _ d _ misfits first ih =>
    obtain ⟨behind, rfl⟩ : ∃ behind, pattern = '*' :: behind :=
      ⟨pattern.tail, (cons_head?_tail first).symm⟩
    have other : d ≠ '*' := by
      rintro rfl
      exact clear (.here _ _ _)
    refine ih (fun later => clear (.star _ other later)) (passed_star _) (match_or_retries.2 ?_)
    rcases matched with matched | again
    · exact globMatch_star_suffix.1 matched
    · obtain ⟨_, ends, matched⟩ := passed.rest_of_retries again
      obtain ⟨rest, ends', matched⟩ := globMatch_star_suffix.1 matched
      exact ⟨rest, ends'.trans ends, matched⟩
  | case4 _ d rest misfits first _ since ih =>
    refine ih (fun later => clear (.again misfits first later)) (passed_star _)
      (match_or_retries.2 ?_)
    obtain ⟨_, ⟨⟩, found⟩ := matched.resolve_left (not_globMatch_of_misfit misfits first)
    exact found
  | case5 _ d _ misfits first =>
    rcases matched with matched | ⟨_, ⟨⟩, _⟩
    exact absurd matched (not_globMatch_of_misfit misfits first)

/-- The loop finds a match if there is one, unless it takes a star for a star. -/
theorem matchesGlob_iff (clear : ¬Confuses pattern text none) :
    matchesGlob pattern text = true ↔ globMatch pattern text = true := by
  constructor
  · exact fun done => (globLoop_sound done).elim id nofun
  · exact fun matched => globLoop_complete clear (by simp [Passed]) (.inl matched)

/-- The recursion finds the splits of the text.  What the loop accepts is one, and it finds one unless
it takes a star for a star. -/
theorem glob_matchers_agree (pattern text : Text) :
    (globMatch pattern text = true ↔ Splits pattern text) ∧
      (matchesGlob pattern text = true → Splits pattern text) ∧
      (¬Confuses pattern text none → (matchesGlob pattern text = true ↔ Splits pattern text)) := by
  refine ⟨globMatch_iff, fun done => ?_, fun clear => (matchesGlob_iff clear).trans globMatch_iff⟩
  exact globMatch_iff.1 ((globLoop_sound done).elim id nofun)

/-- The star of the pattern is taken for the one of the text. -/
theorem star_taken_literally : Splits "*" "*a" ∧ matchesGlob "*" "*a" = false := by
  refine ⟨globMatch_iff.1 (by decide), ?_⟩
  simp [matchesGlob, globLoop]

theorem globMatch_plain (plain : '*' ∉ pattern ∧ '?' ∉ pattern) :
    globMatch pattern text = true ↔ pattern = text := by
  induction pattern generalizing text with
  | nil => rw [globMatch_nil, eq_comm]
  | cons c pattern ih =>
    simp only [mem_cons, not_or] at plain
    rw [globMatch_cons (Ne.symm plain.1.1)]
    constructor
    · rintro ⟨d, _, rfl, fits, matched⟩
      rw [fits.resolve_left (Ne.symm plain.2.1), (ih ⟨plain.1.2, plain.2.2⟩).1 matched]
    · rintro rfl
      exact ⟨c, pattern, rfl, .inr rfl, (ih ⟨plain.1.2, plain.2.2⟩).2 rfl⟩

/-! ### The compiled list -/

def maxEntries : ℕ := 10000

def maxNameLen : ℕ := 128

def maxVersionLen : ℕ := 256

def maxSubdirsPerEntry : ℕ := 32

def maxSubdirLen : ℕ := 32

/-- The version library, and the formats of texts in messages. -/
structure Library where
  Version : Type
  VersionSpec : Type
  parseVersion : Text → Option Version
  parseSpec : Text → Except Text VersionSpec
  admits : VersionSpec → Version → Bool
  isAny : VersionSpec → Bool
  admits_of_isAny : ∀ spec v, isAny spec = true → admits spec v = true
  debug : Text → Text
  debugChar : Char → Text

structure AllowlistEntry where
  name : Text
  version : Option Text
  subdirs : List Text

structure CompiledEntry (lib : Library) where
  name : Text
  version : Option lib.VersionSpec
  subdirs : List Text

variable {lib : Library}

def isNameChar (c : Char) : Bool := c.isLower || c.isDigit || c ∈ ['_', '.', '-', '*', '?']

def compileVersion (version : Option Text) : Except Text (Option lib.VersionSpec) :=
  match version.map trim with
  | none | some [] | some ['*'] => .ok none
  | some v =>
    if maxVersionLen < byteLength v then
      .error ("version exceeds " ++ decimal maxVersionLen ++ " bytes")
    else
      match lib.parseSpec v with
      | .ok spec => .ok (some spec)
      | .error e =>
        .error ("version " ++ lib.debug v ++ " is not a conda version spec: " ++ e)

def isSubdir (s : Text) : Bool :=
  !s.isEmpty && byteLength s ≤ maxSubdirLen &&
    s.all fun c => c.isLower || c.isDigit || c = '-' || c = '_'

def compileSubdirs (subdirs : List Text) : Except Text (List Text) :=
  if maxSubdirsPerEntry < subdirs.length then
    .error ("at most " ++ decimal maxSubdirsPerEntry ++ " subdirs are allowed, got " ++
      decimal subdirs.length)
  else
    match (subdirs.map trim).find? (!isSubdir ·) with
    | some s =>
      .error ("subdir " ++ lib.debug s ++ " is not a conda subdir (e.g. noarch, linux-64)")
    | none => .ok (subdirs.map trim)

def compileEntry (entry : AllowlistEntry) : Except Text (CompiledEntry lib) :=
  let name := toAsciiLowercase (trim entry.name)
  if name.isEmpty then .error "name must not be empty"
  else if maxNameLen < byteLength name then
    .error ("name exceeds " ++ decimal maxNameLen ++ " bytes")
  else
    match name.find? (!isNameChar ·) with
    | some bad =>
      .error ("name " ++ lib.debug entry.name ++ " contains " ++ lib.debugChar bad ++
        "; conda names are [a-z0-9_.-], plus * and ? as globs")
    | none => do
      let version ← compileVersion entry.version
      let subdirs ← @compileSubdirs lib entry.subdirs
      return ⟨name, version, subdirs⟩

structure CompiledAllowlist (lib : Library) where
  exact : Text → List ℕ
  globs : List ℕ
  rules : List (CompiledEntry lib)
  denyAll : Bool

def isGlob (name : Text) : Bool := name.any fun c => c = '*' || c = '?'

/-- Every entry before this one has its rule. -/
def compileNext (c : CompiledAllowlist lib) (entry : AllowlistEntry) :
    Except Text (CompiledAllowlist lib) := do
  let index := c.rules.length
  let rule ← (compileEntry entry).mapError fun e =>
    "entries[" ++ decimal index ++ "]: " ++ e
  if isGlob rule.name then return { c with globs := c.globs ++ [index], rules := c.rules ++ [rule] }
  else
    let exact := Function.update c.exact rule.name (c.exact rule.name ++ [index])
    return { c with exact, rules := c.rules ++ [rule] }

def compile (entries : List AllowlistEntry) : Except Text (CompiledAllowlist lib) :=
  if maxEntries < entries.length then
    .error ("entries: at most " ++ decimal maxEntries ++ " entries are allowed, got " ++
      decimal entries.length)
  else entries.foldlM compileNext ⟨fun _ => [], [], [], false⟩

namespace CompiledEntry

variable (r : CompiledEntry lib)

/-- A version that does not parse is admitted by no spec. -/
def admitsVersion (version : Text) : Bool :=
  r.version.all fun spec => (lib.parseVersion (trim version)).any (lib.admits spec)

def admitsSubdir (subdir : Text) : Bool := r.subdirs.isEmpty || r.subdirs.any (· = subdir)

end CompiledEntry

namespace CompiledAllowlist

variable (c : CompiledAllowlist lib)

def rulesFor (name : Text) : List (CompiledEntry lib) :=
  (c.exact name ++ c.globs.filter fun i => c.rules[i]?.any (matchesGlob ·.name name)).filterMap
    (c.rules[·]?)

def admits (name version subdir : Text) : Bool :=
  !c.denyAll && (c.rulesFor (toAsciiLowercase name)).any fun r =>
    r.admitsSubdir subdir && r.admitsVersion version

def admitsName (name : Text) : Bool := !c.denyAll && !(c.rulesFor (toAsciiLowercase name)).isEmpty

def admitsAllVersions (name subdir : Text) : Bool :=
  !c.denyAll && (c.rulesFor (toAsciiLowercase name)).any fun r =>
    r.admitsSubdir subdir && r.version.all lib.isAny

end CompiledAllowlist

/-! ### What a list means -/

/-- No spec is the same as the spec `*`. -/
def AllowlistEntry.AdmitsVersion (lib : Library) (e : AllowlistEntry) (version : Text) : Prop :=
  e.version.map trim ∈ [none, some [], some ['*']] ∨ ∃ text spec v, e.version = some text ∧
    lib.parseSpec (trim text) = .ok spec ∧ lib.parseVersion (trim version) = some v ∧
    lib.admits spec v = true

def AllowlistEntry.Admits (lib : Library) (e : AllowlistEntry) (name version subdir : Text) : Prop :=
  globMatch (toAsciiLowercase (trim e.name)) (toAsciiLowercase name) = true ∧
    e.AdmitsVersion lib version ∧ (e.subdirs = [] ∨ subdir ∈ e.subdirs.map trim)

variable {entries : List AllowlistEntry} {e : AllowlistEntry} {r : CompiledEntry lib}
  {c c' : CompiledAllowlist lib} {name : Text}

theorem compileEntry_eq_ok (done : compileEntry e = .ok r) :
    r.name = toAsciiLowercase (trim e.name) ∧ compileVersion e.version = .ok r.version ∧
      r.subdirs = e.subdirs.map trim := by
  simp only [compileEntry] at done
  split_ifs at done
  split at done
  · cases done
  · obtain ⟨_, read, done⟩ := bind_eq_ok.1 done
    obtain ⟨_, listed, done⟩ := bind_eq_ok.1 done
    cases done
    refine ⟨rfl, read, ?_⟩
    unfold compileSubdirs at listed
    split_ifs at listed
    split at listed
    · cases listed
    · exact (ok.inj listed).symm

theorem admitsVersion_iff (read : compileVersion e.version = .ok r.version) (version : Text) :
    r.admitsVersion version = true ↔ e.AdmitsVersion lib version := by
  unfold CompiledEntry.admitsVersion AllowlistEntry.AdmitsVersion
  unfold compileVersion at read
  split at read
  · next absent => simp [← ok.inj read, absent]
  · next absent => simp [← ok.inj read, absent]
  · next absent => simp [← ok.inj read, absent]
  · next v nonempty nostar present =>
    obtain ⟨text, held, rfl⟩ := Option.map_eq_some_iff.1 present
    split_ifs at read
    split at read
    · next _ parsed =>
      have given : trim text ≠ [] ∧ trim text ≠ ['*'] := ⟨nonempty, nostar⟩
      simp [← ok.inj read, held, given, parsed, Option.any_eq_true]
    · cases read

theorem compileEntry_admits (done : compileEntry e = .ok r) (version subdir : Text) :
    globMatch r.name (toAsciiLowercase name) = true ∧ r.admitsSubdir subdir = true ∧
      r.admitsVersion version = true ↔ e.Admits lib name version subdir := by
  obtain ⟨names, read, subdirs⟩ := compileEntry_eq_ok done
  rw [names, admitsVersion_iff read, AllowlistEntry.Admits]
  simp only [CompiledEntry.admitsSubdir, subdirs]
  simp [and_comm]

/-- A rule is in the index or among the patterns, by its name. -/
structure Compiled (entries : List AllowlistEntry) (c : CompiledAllowlist lib) : Prop where
  enforced : c.denyAll = false
  rules : ∀ r, r ∈ c.rules ↔ ∃ e ∈ entries, compileEntry e = .ok r
  total : ∀ e ∈ entries, ∃ r ∈ c.rules, compileEntry e = .ok r
  exact : ∀ name i, i ∈ c.exact name ↔
    ∃ r, c.rules[i]? = some r ∧ isGlob r.name = false ∧ r.name = name
  globs : ∀ i, i ∈ c.globs ↔ ∃ r, c.rules[i]? = some r ∧ isGlob r.name = true

theorem Compiled.next (h : Compiled entries c) (done : compileNext c e = .ok c') :
    Compiled (entries ++ [e]) c' := by
  obtain ⟨rule, compiled, done⟩ := bind_eq_ok.1 done
  rw [mapError_eq_ok] at compiled
  have rules (r) : r ∈ c.rules ++ [rule] ↔ ∃ e' ∈ entries ++ [e], compileEntry e' = .ok r := by
    simp [h.rules, compiled, eq_comm]
  have total : ∀ e' ∈ entries ++ [e], ∃ r ∈ c.rules ++ [rule], compileEntry e' = .ok r := by
    intro e' mem
    rcases mem_append.1 mem with old | new
    · obtain ⟨r, held, done⟩ := h.total e' old
      exact ⟨r, mem_append_left _ held, done⟩
    · obtain rfl := mem_singleton.1 new
      exact ⟨rule, by simp, compiled⟩
  have found {i r} : (c.rules ++ [rule])[i]? = some r ↔
      c.rules[i]? = some r ∨ i = c.rules.length ∧ rule = r := by
    grind
  split_ifs at done with glob
  · cases done
    refine ⟨h.enforced, rules, total, fun name i => ?_, fun i => ?_⟩
    · simp [h.exact, found, or_and_right, exists_or, glob]
    · simp [h.globs, found, or_and_right, exists_or, glob]
  · cases done
    have plain : isGlob rule.name = false := by simpa using glob
    refine ⟨h.enforced, rules, total, fun name i => ?_, fun i => ?_⟩
    · by_cases same : name = rule.name
      · subst same
        simp [h.exact, found, or_and_right, exists_or, plain]
      · simp [h.exact, found, or_and_right, exists_or, same, Ne.symm same]
    · simp [h.globs, found, or_and_right, exists_or, plain]

theorem compiled_of_compile (done : compile entries = .ok c) : Compiled entries c := by
  unfold compile at done
  split_ifs at done
  change Compiled ([] ++ entries) c
  refine invariant Compiled (fun _ _ _ _ h next => h.next next) ?_ done
  constructor <;> simp

theorem Compiled.mem_rulesFor (h : Compiled entries c) (plain : '*' ∉ name) :
    r ∈ c.rulesFor name ↔ r ∈ c.rules ∧ globMatch r.name name = true := by
  have clear {pattern : Text} : ¬Confuses pattern name none := fun confuses =>
    confuses.star_mem.elim plain nofun
  have literal (r : CompiledEntry lib) (here : isGlob r.name = false) :
      globMatch r.name name = true ↔ r.name = name := by
    refine globMatch_plain ?_
    simp only [isGlob, any_eq_false, Bool.or_eq_true, not_or] at here
    exact ⟨fun mem => (here _ mem).1 rfl, fun mem => (here _ mem).2 rfl⟩
  simp only [CompiledAllowlist.rulesFor, mem_filterMap, mem_append, mem_filter, h.exact, h.globs]
  constructor
  · rintro ⟨i, ⟨r', found, here, name⟩ | ⟨-, matched⟩, at_⟩
    · obtain rfl := Option.some.inj (found.symm.trans at_)
      exact ⟨mem_of_getElem? at_, (literal r' here).2 name⟩
    · rw [at_, Option.any_some, matchesGlob_iff clear] at matched
      exact ⟨mem_of_getElem? at_, matched⟩
  · rintro ⟨mem, matched⟩
    obtain ⟨i, at_⟩ := mem_iff_getElem?.1 mem
    refine ⟨i, ?_, at_⟩
    cases here : isGlob r.name with
    | false => exact .inl ⟨r, at_, here, (literal r here).1 matched⟩
    | true => exact .inr ⟨⟨r, at_, here⟩, by simpa [at_, matchesGlob_iff clear] using matched⟩

/-- A package name of letters, digits, `_`, `.` and `-`. -/
def isPackageName (name : Text) : Bool := name.all fun ch => ch.isAlphanum || ch ∈ ['_', '.', '-']

theorem star_not_mem_of_isPackageName (named : isPackageName name = true) :
    '*' ∉ toAsciiLowercase name := by
  intro mem
  obtain ⟨_, held, lower⟩ := mem_map.1 mem
  obtain rfl := eq_of_toLower_eq lower (by decide)
  exact absurd (all_eq_true.1 named _ held) (by decide)

theorem Compiled.admits_iff (h : Compiled entries c) (named : isPackageName name = true)
    (version subdir : Text) :
    c.admits name version subdir = true ↔ ∃ e ∈ entries, e.Admits lib name version subdir := by
  simp only [CompiledAllowlist.admits, h.enforced, Bool.not_false, Bool.true_and, any_eq_true,
    h.mem_rulesFor (star_not_mem_of_isPackageName named), h.rules, Bool.and_eq_true]
  constructor
  · rintro ⟨r, ⟨⟨e, mem, done⟩, matched⟩, admitted⟩
    exact ⟨e, mem, (compileEntry_admits done _ _).1 ⟨matched, admitted⟩⟩
  · rintro ⟨e, mem, admitted⟩
    obtain ⟨r, -, done⟩ := h.total e mem
    obtain ⟨matched, admitted⟩ := (compileEntry_admits done _ _).2 admitted
    exact ⟨r, ⟨⟨e, mem, done⟩, matched⟩, admitted⟩

/-- A list admits what one of its entries admits, whatever their order. -/
theorem allowlist_admits_entries (compiled : compile entries = .ok c) (named : isPackageName name = true)
    (version subdir : Text) :
    (c.admits name version subdir = true ↔ ∃ e ∈ entries, e.Admits lib name version subdir) ∧
      (∀ entries' (c' : CompiledAllowlist lib), compile entries' = .ok c' →
        ((∀ e, e ∈ entries ↔ e ∈ entries') →
          c'.admits name version subdir = c.admits name version subdir) ∧
        (entries ⊆ entries' → c.admits name version subdir = true →
          c'.admits name version subdir = true)) ∧
      (c.admitsAllVersions name subdir = true →
        ∀ v, (lib.parseVersion (trim v)).isSome = true → c.admits name v subdir = true) ∧
      (c.admits name version subdir = true → c.admitsName name = true) := by
  have h := compiled_of_compile compiled
  refine ⟨h.admits_iff named _ _, fun entries' c' compiled' => ?_, ?_, ?_⟩
  · have h' := compiled_of_compile compiled'
    constructor
    · intro same
      rw [Bool.eq_iff_iff, h'.admits_iff named, h.admits_iff named]
      simp [same]
    · intro more admitted
      obtain ⟨e, mem, admitted⟩ := (h.admits_iff named _ _).1 admitted
      exact (h'.admits_iff named _ _).2 ⟨e, more mem, admitted⟩
  · intro all v parses
    obtain ⟨parsed, read⟩ := Option.isSome_iff_exists.1 parses
    simp only [CompiledAllowlist.admitsAllVersions, CompiledAllowlist.admits, Bool.and_eq_true,
      any_eq_true] at all ⊢
    obtain ⟨enforced, r, mem, subdirs, any⟩ := all
    refine ⟨enforced, r, mem, subdirs, ?_⟩
    unfold CompiledEntry.admitsVersion
    cases spec : r.version with
    | none => rfl
    | some spec' =>
      rw [spec] at any
      simpa [read] using lib.admits_of_isAny spec' parsed any
  · intro admitted
    simp only [CompiledAllowlist.admitsName, CompiledAllowlist.admits, Bool.and_eq_true,
      any_eq_true] at admitted ⊢
    obtain ⟨enforced, r, mem, -⟩ := admitted
    exact ⟨enforced, by simpa using ne_nil_of_mem mem⟩

/-- Versions without an order. -/
def equalVersions : Library :=
  ⟨Text, Text, some, .ok, (· = ·), fun _ => false, by simp, id, fun ch => [ch]⟩

theorem allowlist_admits_entries_glob : ∃ c : CompiledAllowlist equalVersions,
    compile [⟨" Lib*", none, []⟩, ⟨"zlib", some ['1'], ["noarch"]⟩] = .ok c ∧
      c.admits "LibPng" ['7'] "noarch" = true := by
  obtain ⟨c, compiled⟩ : ∃ c : CompiledAllowlist equalVersions,
    compile [⟨" Lib*", none, []⟩, ⟨"zlib", some ['1'], ["noarch"]⟩] = .ok c :=
    ⟨_, rfl⟩
  exact ⟨c, compiled, (allowlist_admits_entries compiled (by decide) _ _).1.2
    ⟨⟨" Lib*", none, []⟩, mem_cons_self, by decide, .inl mem_cons_self, .inl rfl⟩⟩

end ArtifactKeeper.CondaAllowlist
