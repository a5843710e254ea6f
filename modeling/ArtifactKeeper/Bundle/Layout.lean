import ArtifactKeeper.Library.Parts
import ArtifactKeeper.Library.Fallible

/-!
# Paths inside a bundle

Every path of a tar header or a manifest goes through `checkBundlePath`, which refuses what the guards
of the migration subsystem refuse or would rewrite.  A path that passes has no empty component, none
that is `.` or `..`, and only ASCII characters.
-/

namespace ArtifactKeeper.Bundle

open Text List Fallible
open Option hiding all_eq_true

inductive BundleError
  | unsupportedVersion (found min max : ℕ)
  | wrongFormat (detail : Text)
  | malformed (detail : Text)
  | unsafePath (path reason : Text)
  | disallowedEntryType (path kind : Text)
  | duplicateEntry (path : Text)
  | compressed (wrapper : Text)
  | limitExceeded (detail : Text)
  | invalidArchive (detail : Text)
  | invalid (detail : Text)
deriving DecidableEq

/-- The text of an error, where `debug` is the format `{:?}`. -/
def BundleError.display (debug : Text → Text) : BundleError → Text
  | .unsupportedVersion found min max =>
    "unsupported bundle schema_version " ++ decimal found ++
      "; this server reads versions " ++ decimal min ++ " through " ++ decimal max
  | .wrongFormat detail => "not an Artifact Keeper bundle manifest: " ++ detail
  | .malformed detail => "malformed bundle manifest: " ++ detail
  | .unsafePath path reason =>
    "unsafe or unexpected bundle path " ++ debug path ++ ": " ++ reason
  | .disallowedEntryType path kind =>
    "bundle entry " ++ debug path ++ " has disallowed type " ++ kind
  | .duplicateEntry path => "bundle entry " ++ debug path ++ " appears more than once"
  | .compressed wrapper =>
    "bundle is " ++ wrapper ++
      "-compressed; the bundle format is an uncompressed tar so transfer guards can inspect it"
  | .limitExceeded detail => "bundle exceeds a limit: " ++ detail
  | .invalidArchive detail => "invalid bundle archive: " ++ detail
  | .invalid detail => "invalid bundle manifest: " ++ detail

/-! ### The guards of the migration subsystem -/

def isPathSafe (path : Text) : Bool :=
  if containsText path ".." then false
  else if path.head? = some '/' || path.head? = some '\\' then false
  else if 2 ≤ byteLength path && path[1]? = some ':' then false
  else if "\\\\".toList.isPrefixOf path then false
  else true

def sanitizeChar (c : Char) : Char :=
  if c.toNat < 32 then '_'
  else if c ∈ ['<', '>', ':', '\x22', '|', '?', '*'] then '_'
  else if c = '\\' then '/'
  else c

/-- The body of the loop that collapses slashes: the result so far, and whether the character before
was a slash. -/
def collapseSlash (s : Text × Bool) (c : Char) : Text × Bool :=
  if c = '/' then (if !s.2 && !s.1.isEmpty then s.1 ++ [c] else s.1, true)
  else (s.1 ++ [c], false)

def sanitizePath (path : Text) : Text :=
  ((path.map sanitizeChar).foldl collapseSlash ([], false)).1.rdropWhile (· == '/')

/-- What the loop keeps true of its state. -/
structure Collapsed (s : Text × Bool) : Prop where
  first : s.1.head? ≠ some '/'
  apart : s.1.IsChain fun c d => ¬(c = '/' ∧ d = '/')
  last : s.2 = false → s.1.getLast? ≠ some '/'

variable {s : Text × Bool} {c : Char}

theorem Collapsed.push (collapsed : Collapsed s) {slash : Bool} (first : s.1 = [] → c ≠ '/')
    (apart : s.1.getLast? = some '/' → c ≠ '/') (last : slash = false → c ≠ '/') :
    Collapsed (s.1 ++ [c], slash) where
  first := by
    cases front : s.1 with
    | nil => simpa using first front
    | cons d _ => simpa [front] using collapsed.first
  apart := by
    rw [isChain_append]
    refine ⟨collapsed.apart, isChain_singleton c, ?_⟩
    intro d _ e after both
    obtain rfl : c = e := by simpa using after
    exact apart (by rwa [← both.1]) both.2
  last single := by simpa using last single

theorem Collapsed.step (collapsed : Collapsed s) (c : Char) : Collapsed (collapseSlash s c) := by
  unfold collapseSlash
  by_cases slash : c = '/'
  · rw [if_pos slash]
    by_cases kept : (!s.2 && !s.1.isEmpty) = true
    · obtain ⟨single, nonempty⟩ : s.2 = false ∧ s.1 ≠ [] := by simpa using kept
      rw [if_pos kept]
      exact collapsed.push (fun empty => absurd empty nonempty)
        (fun ends => absurd ends (collapsed.last single)) nofun
    · rw [if_neg kept]
      exact ⟨collapsed.first, collapsed.apart, nofun⟩
  · rw [if_neg slash]
    exact collapsed.push (fun _ => slash) (fun _ => slash) (fun _ => slash)

theorem collapsed_run (path : Text) : Collapsed (path.foldl collapseSlash ([], false)) :=
  foldlRecOn path collapseSlash ⟨by simp, isChain_nil, by simp⟩
    fun _ collapsed c _ => collapsed.step c

theorem sanitizePath_last (path : Text) : (sanitizePath path).getLast? ≠ some '/' := by
  intro ends
  have nonempty : sanitizePath path ≠ [] := by
    intro empty
    simp [empty] at ends
  rw [getLast?_eq_some_getLast nonempty, some.injEq] at ends
  exact rdropWhile_last_not _ _ nonempty (by simpa [sanitizePath] using ends)

variable {path : Text}

/-- A path that is left as it is has no slash at an end and none next to another one. -/
theorem tight_of_sanitizePath (nonempty : path ≠ []) (same : sanitizePath path = path) :
    Tight '/' path := by
  have collapsed := collapsed_run (path.map sanitizeChar)
  have front : path <+: ((path.map sanitizeChar).foldl collapseSlash ([], false)).1 := by
    nth_rewrite 1 [← same]
    exact rdropWhile_prefix _ _
  refine ⟨nonempty, ?_, same ▸ sanitizePath_last path, collapsed.apart.prefix front⟩
  obtain ⟨_, whole⟩ := front
  have first := collapsed.first
  rwa [← whole, head?_append_of_ne_nil _ nonempty] at first

/-! ### The check -/

def maxBundlePathBytes : ℕ := 1023

def maxComponentBytes : ℕ := 255

def maxLogicalPathBytes : ℕ := 4096

/-- A character of the layout's alphabet. -/
def isPathChar (c : Char) : Bool := c.isAlphanum || c ∈ ['.', '_', '-', '/']

def checkComponents (path : Text) : List Text → Except BundleError Unit
  | [] => .ok ()
  | component :: rest =>
    if component = ['.'] then .error (.unsafePath path "'.' path component")
    else if maxComponentBytes < byteLength component then
      .error (.unsafePath path
        ("path component longer than " ++ decimal maxComponentBytes ++ " bytes"))
    else checkComponents path rest

def traversal : Text := "path traversal, absolute, drive-letter or UNC path"

def checkBundlePath (path : Text) : Except BundleError Unit :=
  if path.isEmpty then .error (.unsafePath path "empty path")
  else if maxBundlePathBytes < byteLength path then
    .error (.unsafePath path ("longer than " ++ decimal maxBundlePathBytes ++ " bytes"))
  else if !isPathSafe path then .error (.unsafePath path traversal)
  else if sanitizePath path ≠ path then
    .error (.unsafePath path
      "contains control, reserved or backslash characters, or empty components")
  else if !path.all isPathChar then
    .error (.unsafePath path
      "only ASCII letters, digits, '.', '_', '-' and '/' are allowed")
  else checkComponents path (path.splitOn '/')

def isControl (c : Char) : Bool := c.toNat < 32 || (127 ≤ c.toNat && c.toNat < 160)

def checkLogicalPath (path : Text) : Except BundleError Unit :=
  if path.isEmpty then .error (.unsafePath path "empty logical path")
  else if maxLogicalPathBytes < byteLength path then
    .error (.unsafePath path
      ("logical path longer than " ++ decimal maxLogicalPathBytes ++ " bytes"))
  else if !isPathSafe path then .error (.unsafePath path traversal)
  else if path.any fun c => isControl c || c == '\\' then
    .error (.unsafePath path "control character or backslash")
  else if (path.splitOn '/').any fun c => c.isEmpty || c == ['.'] then
    .error (.unsafePath path "empty or '.' path component")
  else .ok ()

/-- No component is empty, `.` or `..`: joined to a root, the path stays below it. -/
def Contained (path : Text) : Prop :=
  ∀ component ∈ path.splitOn '/', component ≠ [] ∧ component ≠ ['.'] ∧ component ≠ ['.', '.']

theorem ne_dot_of_checkComponents {components : List Text}
    (checked : checkComponents path components = .ok ()) : ['.'] ∉ components := by
  induction components with
  | nil => simp
  | cons component _ ih =>
    unfold checkComponents at checked
    by_cases dot : component = ['.']
    · simp [dot] at checked
    · rw [if_neg dot] at checked
      split at checked
      · cases checked
      · exact not_mem_cons_of_ne_of_not_mem (Ne.symm dot) (ih checked)

structure Checked (path : Text) : Prop where
  safe : isPathSafe path = true
  tight : Tight '/' path
  alphabet : ∀ c ∈ path, isPathChar c = true
  dot : ['.'] ∉ path.splitOn '/'

theorem checked_of_checkBundlePath (ok : checkBundlePath path = .ok ()) : Checked path := by
  unfold checkBundlePath at ok
  split at ok; · cases ok
  rename_i nonempty
  split at ok; · cases ok
  split at ok; · cases ok
  rename_i safe
  split at ok; · cases ok
  rename_i same
  split at ok; · cases ok
  rename_i alphabet
  exact ⟨by simpa using safe, tight_of_sanitizePath (by simpa using nonempty) (not_not.1 same),
    by simpa using alphabet, ne_dot_of_checkComponents ok⟩

theorem Checked.contained (checked : Checked path) : Contained path := by
  intro _ mem
  refine ⟨checked.tight.splitOn_ne_nil mem, ?_, ?_⟩
  · rintro rfl
    exact checked.dot mem
  · rintro rfl
    have dots : containsText path ".." = true := containsText_iff.2 (infix_of_mem_splitOn mem)
    have safe := checked.safe
    rw [isPathSafe, if_pos dots] at safe
    cases safe

/-! ### Names -/

def manifestPath : Text := "manifest.json"

def blobsDir : Text := "blobs"

def reposDir : Text := "repos"

def evidenceDir : Text := "evidence"

def signingDir : Text := "signing"

def jsonSuffix : Text := ".json"

def maxRepoKeyBytes : ℕ := 128

def maxExtensionBytes : ℕ := 16

inductive RepoFile
  | repo
  | artifacts
  | oci
deriving DecidableEq

def RepoFile.fileName : RepoFile → Text
  | .repo => "repo.json"
  | .artifacts => "artifacts.json"
  | .oci => "oci.json"

def RepoFile.fromFileName (name : Text) : Option RepoFile :=
  [RepoFile.repo, .artifacts, .oci].find? (·.fileName == name)

inductive BundleEntry
  | manifest
  | repoFile (repositoryKey : Text) (file : RepoFile)
  | blob (sha256 : Text)
  | evidence (sha256 : Text)
  | signing (name : Text)
deriving DecidableEq

def isLowerHex (c : Char) : Bool :=
  (48 ≤ c.toNat && c.toNat ≤ 57) || (97 ≤ c.toNat && c.toNat ≤ 102)

def isSha256Hex (s : Text) : Bool := byteLength s = 64 && s.all isLowerHex

def isKeyChar (c : Char) : Bool := c.isAlphanum || c = '-' || c = '_' || c = '.'

def validateRepositoryKey (key : Text) : Except Text Unit :=
  if key.isEmpty || 128 < byteLength key then
    .error "Repository key must be between 1 and 128 characters"
  else if !key.all isKeyChar then
    .error
      "Repository key must contain only alphanumeric characters, hyphens, underscores, and dots"
  else if key.head? = some '.' || key.head? = some '-' then
    .error "Repository key must not start with a dot or hyphen"
  else if containsText key ".." then
    .error "Repository key must not contain consecutive dots"
  else .ok ()

def isValidRepoKey (key : Text) : Bool :=
  byteLength key ≤ maxRepoKeyBytes && (validateRepositoryKey key).isOk

/-! ### Canonical paths -/

def compoundExtensions : List Text :=
  [".tar.gz", ".tar.bz2", ".tar.xz", ".tar.zst"]

def plainExtension (name : Text) : Text :=
  match rsplitOnce '.' name with
  | some (front, body) =>
    if !front.isEmpty && !body.isEmpty && byteLength ('.' :: body) ≤ maxExtensionBytes &&
        body.all Char.isAlphanum then
      '.' :: body
    else []
  | none => []

def logicalName (logicalPath : Text) : Text :=
  toAsciiLowercase ((logicalPath.splitOn '/').getLast?.getD [])

def blobExtension (logicalPath : Text) : Text :=
  let name := logicalName logicalPath
  match compoundExtensions.find? (·.isSuffixOf name) with
  | some ext => if ext.length < name.length then ext else plainExtension name
  | none => plainExtension name

/-- The digest is one that `isSha256Hex` accepts wherever this is called. -/
def blobPath (sha256 logicalPath : Text) : Text :=
  join '/' [blobsDir, sha256.take 2, sha256 ++ blobExtension logicalPath]

def repoFilePath (repositoryKey : Text) (file : RepoFile) : Text :=
  join '/' [reposDir, repositoryKey, file.fileName]

def evidencePath (sha256 : Text) : Text :=
  join '/' [evidenceDir, sha256.take 2, sha256 ++ jsonSuffix]

/-! ### Classification -/

def parseBlobName (path fanout name : Text) : Except BundleError Text :=
  let sha := name.take 64
  let ext := name.drop 64
  if !isSha256Hex sha then .error (.unsafePath path "blob name is not a SHA-256 digest")
  else if fanout ≠ sha.take 2 then
    .error (.unsafePath path "blob fan-out directory does not match digest")
  else if !ext.isEmpty && blobExtension ('x' :: ext) != ext then
    .error (.unsafePath path "blob extension is not canonical")
  else .ok sha

def outsideLayout (path : Text) : BundleError :=
  .unsafePath path "not part of the bundle layout"

def classifyParts (path : Text) : List Text → Except BundleError BundleEntry
  | [name] => if name = manifestPath then .ok .manifest else .error (outsideLayout path)
  | [dir, name] =>
    if dir = signingDir ∧ jsonSuffix <:+ name then .ok (.signing name)
    else .error (outsideLayout path)
  | [dir, inner, name] =>
    if dir = reposDir ∧ isValidRepoKey inner then
      match RepoFile.fromFileName name with
      | some file => .ok (.repoFile inner file)
      | none => .error (.unsafePath path "unknown repository metadata document")
    else if dir = blobsDir then
      match parseBlobName path inner name with
      | .ok sha => .ok (.blob sha)
      | .error e => .error e
    else if dir = evidenceDir then
      match (stripSuffix name jsonSuffix).filter fun s => isSha256Hex s && s.take 2 == inner with
      | some sha => .ok (.evidence sha)
      | none => .error (.unsafePath path "evidence name is not <sha256>.json")
    else .error (outsideLayout path)
  | _ => .error (outsideLayout path)

def classifyFile (path : Text) : Except BundleError BundleEntry := do
  checkBundlePath path
  classifyParts path (path.splitOn '/')

def isLayoutDirectory : List Text → Bool
  | [dir] => dir = blobsDir || dir = reposDir || dir = evidenceDir || dir = signingDir
  | [dir, inner] =>
    ((dir = blobsDir || dir = evidenceDir) && byteLength inner = 2 && inner.all isLowerHex) ||
      (dir = reposDir && isValidRepoKey inner)
  | _ => false

def checkDirectory (path : Text) : Except BundleError Unit := do
  checkBundlePath path
  if isLayoutDirectory (path.splitOn '/') then .ok ()
  else .error (.unsafePath path "directory is not part of the bundle layout")

/-! ### Digests and keys -/

variable {sha ext key name : Text} {entry : BundleEntry} {parts : List Text}

theorem isLowerHex_of_isSha256Hex (hex : isSha256Hex sha = true) : ∀ c ∈ sha, isLowerHex c = true := by
  simp only [isSha256Hex, Bool.and_eq_true, all_eq_true] at hex
  exact hex.2

theorem toNat_of_isLowerHex (hex : isLowerHex c = true) :
    48 ≤ c.toNat ∧ c.toNat ≤ 57 ∨ 97 ≤ c.toNat ∧ c.toNat ≤ 102 := by
  simpa [isLowerHex] using hex

theorem length_of_isSha256Hex (hex : isSha256Hex sha = true) : sha.length = 64 := by
  have bytes : byteLength sha = 64 := by
    simp only [isSha256Hex, Bool.and_eq_true, decide_eq_true_eq] at hex
    exact hex.1
  rw [← byteLength_of_ascii, bytes]
  intro c mem
  have := toNat_of_isLowerHex (isLowerHex_of_isSha256Hex hex c mem)
  omega

theorem toLower_of_isLowerHex (hex : isLowerHex c = true) : c.toLower = c := by
  have := toNat_of_isLowerHex hex
  exact toLower_of_not_upper (by omega)

theorem slash_of_isSha256Hex (hex : isSha256Hex sha = true) : '/' ∉ sha := fun mem => by
  have := isLowerHex_of_isSha256Hex hex '/' mem
  revert this
  decide

theorem slash_of_isValidRepoKey (valid : isValidRepoKey key = true) : '/' ∉ key := by
  simp only [isValidRepoKey, Bool.and_eq_true] at valid
  obtain ⟨-, valid⟩ := valid
  unfold validateRepositoryKey at valid
  split at valid; · cases valid
  split at valid; · cases valid
  rename_i chars
  intro mem
  have := all_eq_true.1 (by simpa using chars) '/' mem
  revert this
  decide

/-! ### Extensions -/

inductive IsExtension : Text → Prop
  | none : IsExtension []
  | compound {ext : Text} (known : ext ∈ compoundExtensions) : IsExtension ext
  | plain {body : Text} (nonempty : body ≠ [])
      (short : byteLength ('.' :: body) ≤ maxExtensionBytes)
      (letters : ∀ c ∈ body, c.isAlphanum = true ∧ c.toLower = c) : IsExtension ('.' :: body)

theorem isExtension_plainExtension (lower : ∀ c ∈ name, c.toLower = c) :
    IsExtension (plainExtension name) := by
  unfold plainExtension
  cases found : rsplitOnce '.' name with
  | none => exact .none
  | some split =>
    dsimp only
    split
    · rename_i accepted
      simp only [Bool.and_eq_true, Bool.not_eq_true', isEmpty_eq_false_iff, decide_eq_true_eq,
        all_eq_true] at accepted
      obtain ⟨⟨⟨-, nonempty⟩, short⟩, letters⟩ := accepted
      refine .plain nonempty short fun c mem => ⟨letters c mem, lower c ?_⟩
      rw [(rsplitOnce_eq_some.1 found).1]
      exact mem_append_right _ (mem_cons_of_mem _ mem)
    · exact .none

theorem isExtension_blobExtension (logicalPath : Text) : IsExtension (blobExtension logicalPath) := by
  have lower : ∀ c ∈ logicalName logicalPath, c.toLower = c := by
    intro c mem
    obtain ⟨d, -, rfl⟩ := mem_map.1 mem
    exact toLower_toLower d
  unfold blobExtension
  dsimp only
  split
  · rename_i ext found
    split
    · exact .compound (mem_of_find?_eq_some found)
    · exact isExtension_plainExtension lower
  · exact isExtension_plainExtension lower

theorem IsExtension.lower (extension : IsExtension ext) : ∀ c ∈ ext, c.toLower = c := by
  cases extension with
  | none => simp
  | compound known =>
    have lowered : compoundExtensions.all (all · fun c => c.toLower == c) = true := by decide
    intro c mem
    exact beq_iff_eq.1 (all_eq_true.1 (all_eq_true.1 lowered ext known) c mem)
  | plain _ _ letters =>
    intro c mem
    rcases mem_cons.1 mem with rfl | inside
    · rfl
    · exact (letters c inside).2

theorem IsExtension.slash (extension : IsExtension ext) : '/' ∉ ext := by
  cases extension with
  | none => simp
  | compound known => revert known ext; decide
  | plain _ _ letters =>
    intro mem
    rcases mem_cons.1 mem with same | inside
    · revert same
      decide
    · have := (letters _ inside).1
      revert this
      decide

theorem find?_compound_eq_none (single : name.count '.' ≤ 1) :
    compoundExtensions.find? (·.isSuffixOf name) = none := by
  have twice : ∀ ext ∈ compoundExtensions, ext.count '.' = 2 := by decide
  rw [find?_eq_none]
  intro ext known suffix
  have more := (isSuffixOf_iff_suffix.1 suffix).sublist.count_le '.'
  have := twice ext known
  omega

theorem compound_canonical : ∀ ext ∈ compoundExtensions, blobExtension ('x' :: ext) = ext := by
  decide +kernel

theorem IsExtension.canonical (extension : IsExtension ext) (nonempty : ext ≠ []) :
    blobExtension ('x' :: ext) = ext := by
  have name_eq : logicalName ('x' :: ext) = 'x' :: ext := by
    rw [logicalName, splitOn_of_not_mem (not_mem_cons_of_ne_of_not_mem (by decide) extension.slash),
      getLast?_singleton, getD_some]
    apply toAsciiLowercase_of_lower
    intro c mem
    rcases mem_cons.1 mem with rfl | inside
    · rfl
    · exact extension.lower c inside
  cases extension with
  | none => exact absurd rfl nonempty
  | compound known => exact compound_canonical ext known
  | @plain body filled short letters =>
    have dot : '.' ∉ body := by
      intro mem
      have := (letters _ mem).1
      revert this
      decide
    have split : rsplitOnce '.' ('x' :: '.' :: body) = some (['x'], body) :=
      rsplitOnce_eq_some.2 ⟨rfl, dot⟩
    have single : count '.' ('x' :: '.' :: body) ≤ 1 := by
      rw [count_cons_of_ne (by decide), count_cons_self, count_eq_zero.2 dot]
    simp only [blobExtension, name_eq, find?_compound_eq_none single, plainExtension, split]
    rw [if_pos]
    simp only [Bool.and_eq_true, Bool.not_eq_true', isEmpty_eq_false_iff, decide_eq_true_eq,
      all_eq_true]
    exact ⟨⟨⟨cons_ne_nil _ _, filled⟩, short⟩, fun c mem => (letters c mem).1⟩

/-! ### The layout as a relation -/

/-- The components of a file. -/
inductive Layout : BundleEntry → List Text → Prop
  | manifest : Layout .manifest [manifestPath]
  | repoFile {key : Text} {file : RepoFile} (valid : isValidRepoKey key = true) :
      Layout (.repoFile key file) [reposDir, key, file.fileName]
  | blob {sha ext : Text} (hex : isSha256Hex sha = true) (extension : IsExtension ext) :
      Layout (.blob sha) [blobsDir, sha.take 2, sha ++ ext]
  | evidence {sha : Text} (hex : isSha256Hex sha = true) :
      Layout (.evidence sha) [evidenceDir, sha.take 2, sha ++ jsonSuffix]
  | signing {name : Text} (json : jsonSuffix <:+ name) : Layout (.signing name) [signingDir, name]

theorem fromFileName_eq_some {file : RepoFile} :
    RepoFile.fromFileName name = some file ↔ name = file.fileName := by
  constructor
  · intro found
    have same := find?_some found
    exact (beq_iff_eq.1 same).symm
  · rintro rfl
    cases file <;> decide

theorem parseBlobName_ok {fanout : Text} :
    parseBlobName path fanout name = .ok sha ↔
      isSha256Hex sha = true ∧ fanout = sha.take 2 ∧ ∃ ext, IsExtension ext ∧ name = sha ++ ext := by
  constructor
  · intro parsed
    unfold parseBlobName at parsed
    dsimp only at parsed
    split at parsed; · cases parsed
    rename_i hex
    split at parsed; · cases parsed
    rename_i fan
    split at parsed; · cases parsed
    rename_i canonical
    cases parsed
    refine ⟨by simpa using hex, not_not.1 fan, name.drop 64, ?_, (take_append_drop 64 name).symm⟩
    by_cases empty : name.drop 64 = []
    · rw [empty]
      exact .none
    · have same : blobExtension ('x' :: name.drop 64) = name.drop 64 := by simpa [empty] using canonical
      exact same ▸ isExtension_blobExtension _
  · rintro ⟨hex, rfl, ext, extension, rfl⟩
    have length := length_of_isSha256Hex hex
    have front : (sha ++ ext).take 64 = sha := by rw [← length, take_left]
    have back : (sha ++ ext).drop 64 = ext := by rw [← length, drop_left]
    have canonical : ¬(!ext.isEmpty && blobExtension ('x' :: ext) != ext) = true := by
      by_cases empty : ext = []
      · simp [empty]
      · simp [extension.canonical empty]
    simp only [parseBlobName, front, back, hex, Bool.not_true, ne_eq, not_true_eq_false]
    rw [if_neg Bool.false_ne_true, if_neg not_false, if_neg canonical]

theorem classifyParts_ok : classifyParts path parts = .ok entry ↔ Layout entry parts := by
  constructor
  · intro classified
    unfold classifyParts at classified
    split at classified
    · split_ifs at classified with same
      cases classified
      exact same ▸ .manifest
    · split_ifs at classified with same
      cases classified
      exact same.1 ▸ .signing same.2
    · split_ifs at classified with repos blobs evidence
      · obtain ⟨rfl, valid⟩ := repos
        split at classified
        · rename_i found
          cases classified
          rw [fromFileName_eq_some.1 found]
          exact .repoFile valid
        · cases classified
      · subst blobs
        split at classified
        · rename_i sha parsed
          cases classified
          obtain ⟨hex, rfl, _, extension, rfl⟩ := parseBlobName_ok.1 parsed
          exact .blob hex extension
        · cases classified
      · subst evidence
        split at classified
        · rename_i sha found
          cases classified
          obtain ⟨stripped, accepted⟩ := filter_eq_some_iff.1 found
          obtain ⟨hex, fan⟩ := Bool.and_eq_true_iff.1 accepted
          rw [stripSuffix_eq_some.1 stripped, ← beq_iff_eq.1 fan]
          exact .evidence hex
        · cases classified
    · cases classified
  · intro layout
    cases layout with
    | manifest => rfl
    | @repoFile _ file valid =>
      have found : RepoFile.fromFileName file.fileName = some file := fromFileName_eq_some.2 rfl
      rw [classifyParts, if_pos ⟨rfl, valid⟩, found]
    | @blob sha ext hex extension =>
      have parsed : parseBlobName path (sha.take 2) (sha ++ ext) = .ok sha :=
        parseBlobName_ok.2 ⟨hex, rfl, ext, extension, rfl⟩
      rw [classifyParts, if_neg (fun same => absurd same.1 (by decide)), if_pos rfl, parsed]
    | @evidence sha hex =>
      have stripped : stripSuffix (sha ++ jsonSuffix) jsonSuffix = some sha := stripSuffix_eq_some.2 rfl
      rw [classifyParts, if_neg (fun same => absurd same.1 (by decide)), if_neg (by decide), if_pos rfl,
        stripped, filter_some, if_pos (by simp [hex])]
    | signing json => exact if_pos ⟨rfl, json⟩

theorem classifyFile_ok :
    classifyFile path = .ok entry ↔ checkBundlePath path = .ok () ∧ Layout entry (path.splitOn '/') := by
  rw [classifyFile, bind_eq_ok]
  constructor
  · rintro ⟨_, checked, classified⟩
    exact ⟨checked, classifyParts_ok.1 classified⟩
  · rintro ⟨checked, layout⟩
    exact ⟨(), checked, classifyParts_ok.2 layout⟩

theorem contained_of_checkDirectory (checked : checkDirectory path = .ok ()) : Contained path := by
  obtain ⟨_, first, -⟩ := bind_eq_ok.1 checked
  exact (checked_of_checkBundlePath first).contained

theorem contained_of_classifyFile (classified : classifyFile path = .ok entry) : Contained path :=
  (checked_of_checkBundlePath (classifyFile_ok.1 classified).1).contained

/-! ### Canonical paths are laid out -/

theorem layout_repoFilePath (valid : isValidRepoKey key = true) (file : RepoFile) :
    Layout (.repoFile key file) ((repoFilePath key file).splitOn '/') := by
  rw [repoFilePath, splitOn_join (by simp)]
  · exact .repoFile valid
  · have first : '/' ∉ reposDir := by decide
    have last : '/' ∉ file.fileName := by cases file <;> decide
    simpa [first, last] using slash_of_isValidRepoKey valid

theorem layout_blobPath (hex : isSha256Hex sha = true) (logicalPath : Text) :
    Layout (.blob sha) ((blobPath sha logicalPath).splitOn '/') := by
  have extension := isExtension_blobExtension logicalPath
  have digest := slash_of_isSha256Hex hex
  rw [blobPath, splitOn_join (by simp)]
  · exact .blob hex extension
  · have first : '/' ∉ blobsDir := by decide
    have fan : '/' ∉ sha.take 2 := fun mem => digest (mem_of_mem_take mem)
    simp [first, fan, digest, extension.slash]

theorem layout_evidencePath (hex : isSha256Hex sha = true) :
    Layout (.evidence sha) ((evidencePath sha).splitOn '/') := by
  have digest := slash_of_isSha256Hex hex
  rw [evidencePath, splitOn_join (by simp)]
  · exact .evidence hex
  · have first : '/' ∉ evidenceDir := by decide
    have last : '/' ∉ jsonSuffix := by decide
    have fan : '/' ∉ sha.take 2 := fun mem => digest (mem_of_mem_take mem)
    simp [first, last, fan, digest]

/-! ### Paths that differ only in case -/

/-- The first components of files, and how many components there are below each. -/
def tops : List (Text × ℕ) :=
  [(manifestPath, 1), (reposDir, 3), (blobsDir, 3), (evidenceDir, 3), (signingDir, 2)]

theorem Layout.top (layout : Layout entry parts) :
    ∃ top ∈ tops, parts.head? = some top.1 ∧ parts.length = top.2 := by
  cases layout with
  | manifest => exact ⟨(manifestPath, 1), by decide, rfl, rfl⟩
  | repoFile => exact ⟨(reposDir, 3), by decide, rfl, rfl⟩
  | blob => exact ⟨(blobsDir, 3), by decide, rfl, rfl⟩
  | evidence => exact ⟨(evidenceDir, 3), by decide, rfl, rfl⟩
  | signing => exact ⟨(signingDir, 2), by decide, rfl, rfl⟩

theorem toAsciiLowercase_top : ∀ top ∈ tops, toAsciiLowercase top.1 = top.1 := by decide

theorem tops_functional : ∀ top ∈ tops, ∀ other ∈ tops, top.1 = other.1 → top.2 = other.2 := by decide

variable {other : Text} {entry' : BundleEntry} {parts' : List Text}

theorem Layout.eq_of_prefix (first : Layout entry parts) (second : Layout entry' parts')
    (below : parts.map toAsciiLowercase <+: parts'.map toAsciiLowercase) :
    parts.map toAsciiLowercase = parts'.map toAsciiLowercase := by
  obtain ⟨top, mem, head, length⟩ := first.top
  obtain ⟨top', mem', head', length'⟩ := second.top
  have same : top.1 = top'.1 := by
    obtain ⟨_, whole⟩ := below
    have heads := congrArg head? whole
    rw [head?_append, head?_map, head?_map, head, head', map_some,
      some_or, map_some, some.injEq, toAsciiLowercase_top top mem,
      toAsciiLowercase_top top' mem'] at heads
    exact heads
  apply below.eq_of_length
  rw [length_map, length_map, length, length', tops_functional top mem top' mem' same]

/-- Neither path is the other one or a directory it is in, up to ASCII case. -/
def Apart (path other : Text) : Prop :=
  toAsciiLowercase path ≠ toAsciiLowercase other ∧
    ¬toAsciiLowercase path ++ ['/'] <+: toAsciiLowercase other ∧
    ¬toAsciiLowercase other ++ ['/'] <+: toAsciiLowercase path

theorem Layout.not_below (first : Layout entry (path.splitOn '/'))
    (second : Layout entry' (other.splitOn '/')) :
    ¬toAsciiLowercase path ++ ['/'] <+: toAsciiLowercase other := by
  rintro ⟨rest, whole⟩
  have parts : (path.splitOn '/').map toAsciiLowercase ++ rest.splitOn '/' =
      (other.splitOn '/').map toAsciiLowercase := by
    rw [← splitOn_toAsciiLowercase, ← splitOn_toAsciiLowercase, ← whole, append_assoc,
      singleton_append, splitOn_append_cons]
  have same := first.eq_of_prefix second ⟨_, parts⟩
  rw [← parts, self_eq_append_right] at same
  exact splitOn_ne_nil _ _ same

theorem Layout.apart (first : Layout entry (path.splitOn '/'))
    (second : Layout entry' (other.splitOn '/'))
    (different : toAsciiLowercase path ≠ toAsciiLowercase other) : Apart path other :=
  ⟨different, first.not_below second, second.not_below first⟩

theorem toAsciiLowercase_fileName (file : RepoFile) :
    toAsciiLowercase file.fileName = file.fileName := by cases file <;> decide

theorem fileName_injective {file file' : RepoFile} (same : file.fileName = file'.fileName) :
    file = file' := by
  have found := fromFileName_eq_some.2 same
  rw [fromFileName_eq_some.2 rfl] at found
  exact some.inj found

theorem toAsciiLowercase_of_isSha256Hex (hex : isSha256Hex sha = true) : toAsciiLowercase sha = sha :=
  toAsciiLowercase_of_lower fun c mem => toLower_of_isLowerHex (isLowerHex_of_isSha256Hex hex c mem)

/-- What two files have in common whose paths are equal up to case. -/
inductive SameFolded : BundleEntry → BundleEntry → Prop
  | repoFile {key key' : Text} (file : RepoFile)
      (same : toAsciiLowercase key = toAsciiLowercase key') :
      SameFolded (.repoFile key file) (.repoFile key' file)
  | signing (name name' : Text) : SameFolded (.signing name) (.signing name')

theorem Layout.folded (first : Layout entry parts) (second : Layout entry' parts')
    (same : parts.map toAsciiLowercase = parts'.map toAsciiLowercase) :
    parts = parts' ∨ SameFolded entry entry' := by
  -- The first components differ if the kinds do.
  cases first with
  | manifest =>
    cases second with
    | manifest => exact .inl rfl
    | _ => exact absurd (cons.inj same).1 (by decide)
  | @repoFile _ _ _ =>
    cases second with
    | @repoFile _ file' _ =>
      simp only [map_cons, cons.injEq, true_and, and_true] at same
      rw [toAsciiLowercase_fileName, toAsciiLowercase_fileName] at same
      rw [fileName_injective same.2]
      exact .inr (.repoFile file' same.1)
    | _ => exact absurd (cons.inj same).1 (by decide)
  | @blob _ _ hex extension =>
    cases second with
    | @blob _ _ hex' extension' =>
      simp only [map_cons, cons.injEq, true_and, and_true,
        toAsciiLowercase_take, toAsciiLowercase_append, toAsciiLowercase_of_isSha256Hex hex,
        toAsciiLowercase_of_isSha256Hex hex', toAsciiLowercase_of_lower extension.lower,
        toAsciiLowercase_of_lower extension'.lower] at same
      rw [same.1, same.2]
      exact .inl rfl
    | _ => exact absurd (cons.inj same).1 (by decide)
  | @evidence _ hex =>
    cases second with
    | @evidence _ hex' =>
      simp only [map_cons, cons.injEq, true_and, and_true,
        toAsciiLowercase_append, toAsciiLowercase_of_isSha256Hex hex,
        toAsciiLowercase_of_isSha256Hex hex', append_cancel_right_eq] at same
      rw [same.2]
      exact .inl rfl
    | _ => exact absurd (cons.inj same).1 (by decide)
  | signing =>
    cases second with
    | signing => exact .inr (.signing _ _)
    | _ => exact absurd (cons.inj same).1 (by decide)

theorem Layout.eq_or_sameFolded (first : Layout entry (path.splitOn '/'))
    (second : Layout entry' (other.splitOn '/'))
    (same : toAsciiLowercase path = toAsciiLowercase other) :
    path = other ∨ SameFolded entry entry' := by
  have parts : (path.splitOn '/').map toAsciiLowercase = (other.splitOn '/').map toAsciiLowercase := by
    rw [← splitOn_toAsciiLowercase, ← splitOn_toAsciiLowercase, same]
  exact (first.folded second parts).imp_left splitOn_inj

end ArtifactKeeper.Bundle
