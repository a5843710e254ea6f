import ArtifactKeeper.Library.Parts
import ArtifactKeeper.RpmDepth.Invariant

/-!
# The path check of the service

The service checks a path before its row is written, and the artifact trigger checks it again.
-/

namespace ArtifactKeeper.RpmDepth

open Text List

inductive UploadError
  | invalidChunk (message : Text)
  | pathTooLong (len max : ℕ)

def maxArtifactPathLen : ℕ := 2048

def escapes : List Text := ["%2e".toList, "%2f".toList, "%5c".toList]

variable (lower : Text → Text)

def validateArtifactPath (path : Text) : Except UploadError Unit :=
  if path.isEmpty then .error (.invalidChunk "artifact_path cannot be empty")
  else if maxArtifactPathLen < byteLength path then
    .error (.pathTooLong (byteLength path) maxArtifactPathLen)
  else if path.contains '\x00' then .error (.invalidChunk "artifact_path contains null bytes")
  else if path.head? = some '/' || path.head? = some '\\' then
    .error (.invalidChunk "artifact_path must be relative")
  else if (path.splitOn '/').any fun component =>
      trim component = ".." || trim component = "." ||
        (trim component).isEmpty && containsText path "//" then
    .error (.invalidChunk "artifact_path contains path traversal")
  else if escapes.any (containsText (lower path)) then
    .error (.invalidChunk "artifact_path contains encoded traversal characters")
  else if path.contains '\\' then
    .error (.invalidChunk "artifact_path must use forward slashes")
  else .ok ()

/-- The category Cc. -/
def isControl (c : Char) : Bool := c.toNat < 32 || (127 ≤ c.toNat && c.toNat < 160)

def invalidPath : Text :=
  "Artifact path must be canonical, outside reserved repodata/@N paths, and have at least repodata_depth parent directories"

def validatePath (path : Text) (depth : ℕ) : Except Text Unit :=
  if depth = 0 then .ok ()
  else do
    (validateArtifactPath lower path).mapError fun _ => invalidPath
    let parts := path.splitOn '/'
    if parts.length ≤ depth ||
        parts.any (fun part =>
          part.isEmpty || part = "repodata" || trim part ≠ part || part.any isControl) ||
        parts.head?.any isVersionRoot then
      .error invalidPath
    else .ok ()

/-! ### Agreement -/

/-- In any locale an escape is found where the text has it in either case: no other character becomes
one of `%`, `2`, `5`, `c`, `e` and `f`. -/
def FindsEscapes : Prop :=
  ∀ s, ∀ code ∈ escapes, containsText (lower s) code = containsText (toAsciiLowercase s) code

variable {lower} {path : Text} {depth : ℕ} {collation : Collation}

theorem guard_eq_ok {ε : Type} {p : Prop} [Decidable p] {e : ε} {x : Except ε Unit} :
    (if p then .error e else x) = .ok () ↔ ¬p ∧ x = .ok () := by
  split_ifs with fails <;> simp [fails]

theorem validateArtifactPath_eq_ok : validateArtifactPath lower path = .ok () ↔
    path ≠ [] ∧ octetLength path ≤ 2048 ∧ '\x00' ∉ path ∧
      (path.head? ≠ some '/' ∧ path.head? ≠ some '\\') ∧
      (∀ c ∈ path.splitOn '/', (trim c ≠ ".." ∧ trim c ≠ ".") ∧
        (trim c = [] → containsText path "//" = false)) ∧
      (∀ code ∈ escapes, containsText (lower path) code = false) ∧ '\\' ∉ path := by
  simp only [validateArtifactPath, guard_eq_ok, List.isEmpty_iff, Nat.not_lt,
    List.contains_iff_mem, Bool.or_eq_true, Bool.and_eq_true, decide_eq_true_eq, not_or,
    List.any_eq_true, not_exists, not_and, Bool.not_eq_true, and_true]
  rfl

theorem validatePath_eq_ok (positive : 1 ≤ depth) : validatePath lower path depth = .ok () ↔
    validateArtifactPath lower path = .ok () ∧ depth < (path.splitOn '/').length ∧
      (∀ part ∈ path.splitOn '/', part ≠ [] ∧ part ≠ "repodata" ∧ trim part = part ∧
        ∀ c ∈ part, isControl c = false) ∧
      ∀ part ∈ (path.splitOn '/').head?, isVersionRoot part = false := by
  rw [validatePath, if_neg (Nat.ne_of_gt positive)]
  cases validateArtifactPath lower path with
  | error e => exact ⟨nofun, nofun⟩
  | ok _ =>
    refine guard_eq_ok.trans ?_
    simp only [Bool.not_eq_true, Bool.or_eq_false_iff, decide_eq_false_iff_not, Nat.not_le, not_not,
      any_eq_false, Option.any_eq_false, isEmpty_eq_false_iff, and_assoc, true_and,
      and_true, Option.mem_def]

theorem validPath_of_accepted (lowers : FindsEscapes lower) (lowers' : FindsEscapes collation.lower)
    (control : collation.isControl = isControl) (positive : 1 ≤ depth)
    (accepted : validatePath lower path depth = .ok ()) : ValidPath collation depth path := by
  obtain ⟨artifact, deep, parts, root⟩ := (validatePath_eq_ok positive).1 accepted
  obtain ⟨-, short, -, -, components, escaped, backslash⟩ := validateArtifactPath_eq_ok.1 artifact
  refine ⟨short, deep, fun part mem => ?_, root, fun c mem => ⟨?_, ?_⟩, fun code mem inside => ?_⟩
  · obtain ⟨nonempty, repodata, trimmed, -⟩ := parts part mem
    have dots := (components part mem).1
    rw [trimmed] at dots
    simp only [isReserved, Bool.or_eq_false_iff, decide_eq_false_iff_not, not_not]
    exact ⟨⟨⟨⟨nonempty, dots.2⟩, dots.1⟩, repodata⟩, trimmed⟩
  · rw [control]
    rw [← join_splitOn '/' path] at mem
    rcases mem_join mem with rfl | ⟨part, inPath, inPart⟩
    · rfl
    · exact (parts part inPath).2.2.2 c inPart
  · rintro rfl
    exact backslash mem
  · rw [← containsText_iff, lowers' path code mem, ← lowers path code mem, escaped code mem] at inside
    cases inside

theorem accepted_of_validPath (lowers : FindsEscapes lower) (lowers' : FindsEscapes collation.lower)
    (control : collation.isControl = isControl) (positive : 1 ≤ depth)
    (valid : ValidPath collation depth path) : validatePath lower path depth = .ok () := by
  obtain ⟨short, deep, parts, root, printable, unescaped⟩ := valid
  rw [control] at printable
  simp only [isReserved, Bool.or_eq_false_iff, decide_eq_false_iff_not, not_not] at parts
  refine (validatePath_eq_ok positive).2 ⟨validateArtifactPath_eq_ok.2
    ⟨?_, short, fun nul => ?_, ⟨fun slash => ?_, fun back => ?_⟩, fun c mem => ?_, fun code mem => ?_,
      fun mem => (printable _ mem).2 rfl⟩, deep, fun part mem => ?_, root⟩
  · rintro rfl
    exact (parts [] (by simp)).1.1.1.1 rfl
  · cases (printable _ nul).1
  · obtain ⟨rest, rfl⟩ := head?_eq_some_iff.1 slash
    refine (parts [] ?_).1.1.1.1 rfl
    rw [← nil_append ('/' :: rest), splitOn_append_cons]
    exact .head _
  · exact (printable _ (mem_of_head? back)).2 rfl
  · obtain ⟨⟨⟨⟨nonempty, dot⟩, dots⟩, -⟩, trimmed⟩ := parts c mem
    rw [trimmed]
    exact ⟨⟨dots, dot⟩, fun empty => absurd empty nonempty⟩
  · rw [lowers path code mem, ← lowers' path code mem]
    exact Bool.eq_false_of_not_eq_true fun inside => unescaped code mem (containsText_iff.1 inside)
  · obtain ⟨⟨⟨⟨nonempty, -⟩, -⟩, repodata⟩, trimmed⟩ := parts part mem
    exact ⟨nonempty, repodata, trimmed, fun c inside =>
      (printable c (mem_of_mem_splitOn mem c inside).1).1⟩

/-- The service accepts a path exactly if the trigger does. -/
theorem rpm_path_checks_agree (lower : Text → Text) (collation : Collation)
    (lowers : FindsEscapes lower) (lowers' : FindsEscapes collation.lower)
    (control : collation.isControl = isControl) {depth : ℕ} (positive : 1 ≤ depth) (path : Text) :
    validatePath lower path depth = .ok () ↔ pathRejected collation depth path = false :=
  ⟨fun accepted => validPath_iff.2 (validPath_of_accepted lowers lowers' control positive accepted),
    fun kept => accepted_of_validPath lowers lowers' control positive (validPath_iff.1 kept)⟩

theorem rpm_path_checks_agree_package :
    (validatePath toAsciiLowercase "el9/tool.rpm" 1 = .ok () ↔
      pathRejected ⟨isControl, toAsciiLowercase⟩ 1 "el9/tool.rpm" = false) ∧
    pathRejected ⟨isControl, toAsciiLowercase⟩ 1 "el9/tool.rpm" = false :=
  ⟨rpm_path_checks_agree toAsciiLowercase ⟨isControl, toAsciiLowercase⟩ (fun _ _ _ => rfl)
    (fun _ _ _ => rfl) rfl le_rfl _, by decide⟩

end ArtifactKeeper.RpmDepth
