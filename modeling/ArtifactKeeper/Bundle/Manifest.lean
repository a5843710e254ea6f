import Mathlib.Data.List.Nodup
import ArtifactKeeper.Bundle.Layout

/-!
# The manifest of a bundle

`validateManifest` collects the problems of a manifest, up to a limit.  If there are none, every path
the manifest names is checked and canonical, and no two repository keys differ only in case (`Valid`).
-/

namespace ArtifactKeeper.Bundle

open Text List

/-! ### The document -/

structure Producer where
  product : Text
  version : Text
deriving DecidableEq

inductive BundleKind
  | full
  | baseline
  | cumulative
deriving DecidableEq

def BundleKind.debug : BundleKind → Text
  | .full => "Full"
  | .baseline => "Baseline"
  | .cumulative => "Cumulative"

structure SequenceInfo where
  sequenceNumber : ℕ
  baselineSequenceNumber : ℕ
deriving DecidableEq

structure VolumeSet where
  volumeCount : ℕ
  mediaControlNumber : Option Text
deriving DecidableEq

structure RepositoryEntry where
  key : Text
  format : Text
  repoType : Text
  metadataPath : Text
  artifactsPath : Text
  ociPath : Option Text
deriving DecidableEq

structure RecordSignature where
  keyId : Text
  algorithm : Text
  value : Text
deriving DecidableEq

structure ItemEntry where
  repositoryKey : Text
  logicalPath : Text
  sha256 : Text
  sizeBytes : ℕ
  blobPath : Text
  volume : ℕ
  signature : Option RecordSignature
deriving DecidableEq

structure ScanEvidenceEntry where
  artifactSha256 : Text
  scanner : Text
  evidencePath : Option Text
deriving DecidableEq

structure SigningInfo where
  signerKeyId : Text
  signerFingerprint : Text
  algorithm : Text
  keyStatusListPath : Option Text
deriving DecidableEq

structure BundleManifest where
  format : Text
  schemaVersion : ℕ
  producer : Producer
  kind : BundleKind
  sequence : Option SequenceInfo
  volumeSet : VolumeSet
  repositories : List RepositoryEntry
  items : List ItemEntry
  scanEvidence : List ScanEvidenceEntry
  signing : Option SigningInfo
deriving DecidableEq

structure ManifestSummary where
  repositoryCount : ℕ
  itemCount : ℕ
  totalBytes : ℕ
  distinctBlobCount : ℕ
  scanEvidenceCount : ℕ
deriving DecidableEq

structure BundleLimits where
  maxManifestBytes : UInt64
  maxItems : UInt64
  maxEntries : UInt64
  maxTotalBytes : UInt64

def bundleFormat : Text := "akbundle"

def minSchemaVersion : ℕ := 1

def manifestSchemaVersion : ℕ := 1

def maxReportedProblems : ℕ := 100

def maxVolumeCount : ℕ := 10000

def maxStoredU64 : ℕ := 2 ^ 63 - 1

/-! ### Decoding -/

/-- A JSON value, as far as the check of the envelope looks at it. -/
inductive EnvelopeValue
  | string (s : Text)
  | unsigned (n : ℕ)
  | other

def EnvelopeValue.asStr : EnvelopeValue → Option Text
  | .string s => some s
  | _ => none

def EnvelopeValue.asU64 : EnvelopeValue → Option ℕ
  | .unsigned n => some n
  | _ => none

structure Envelope where
  format : Option EnvelopeValue
  schemaVersion : Option EnvelopeValue

/-- The readers and writers of other libraries that an inspection calls. -/
structure Codec where
  /-- The format `{:?}` of a text. -/
  debug : Text → Text
  fromUtf8 : List UInt8 → Option Text
  fromUtf8Lossy : List UInt8 → Text
  readEnvelope : List UInt8 → Except Text Envelope
  readManifest : List UInt8 → Except Text BundleManifest
  sha256Hex : List UInt8 → Text

variable (codec : Codec)

def checkEnvelopeFields (envelope : Envelope) : Except BundleError ℕ :=
  match envelope.format.bind EnvelopeValue.asStr with
  | none => .error (.wrongFormat "missing string field 'format'")
  | some format =>
    if format ≠ bundleFormat then
      .error (.wrongFormat ("format is " ++ codec.debug format ++ ", expected " ++
        codec.debug bundleFormat))
    else
      match envelope.schemaVersion.bind EnvelopeValue.asU64 with
      | none => .error (.malformed "schema_version must be a non-negative integer")
      | some version =>
        if version < minSchemaVersion || manifestSchemaVersion < version then
          .error (.unsupportedVersion version minSchemaVersion manifestSchemaVersion)
        else .ok version

def manifestTooLarge (limits : BundleLimits) : BundleError :=
  .limitExceeded ("manifest is larger than " ++ decimal limits.maxManifestBytes.toNat ++ " bytes")

def isAsciiWhitespace (b : UInt8) : Bool := b ∈ [9, 10, 12, 13, 32]

def decodeManifest (bytes : List UInt8) (limits : BundleLimits) : Except BundleError BundleManifest :=
  if limits.maxManifestBytes.toNat < bytes.length then .error (manifestTooLarge limits)
  else if bytes.find? (!isAsciiWhitespace ·) ≠ some 123 then
    .error (.wrongFormat "manifest is not a JSON object")
  else
    match codec.readEnvelope bytes with
    | .error e => .error (.malformed e)
    | .ok envelope =>
      match checkEnvelopeFields codec envelope with
      | .error e => .error e
      | .ok _ => (codec.readManifest bytes).mapError .malformed

/-! ### Problems -/

abbrev Problems := List Text

namespace Problems

def push (problem : Text) (p : Problems) : Problems :=
  if p.length < maxReportedProblems then p ++ [problem] else p

def pushIf (wrong : Bool) (problem : Text) (p : Problems) : Problems :=
  if wrong then push problem p else p

def checkPath (what path expected : Text) (p : Problems) : Problems :=
  match checkBundlePath path with
  | .error e => push (what ++ ": " ++ e.display codec.debug) p
  | .ok () =>
    pushIf (path ≠ expected)
      (what ++ ": path " ++ codec.debug path ++ " is not canonical " ++ codec.debug expected) p

theorem push_ne_nil (problem : Text) (p : Problems) : push problem p ≠ [] := by
  unfold push
  split_ifs with room
  · simp
  · rintro rfl
    exact room (by decide)

variable {p : Problems}

@[simp] theorem push_eq_nil {problem : Text} : push problem p = [] ↔ False :=
  iff_false_intro (push_ne_nil problem p)

@[simp] theorem pushIf_eq_nil {wrong : Bool} {problem : Text} :
    pushIf wrong problem p = [] ↔ wrong = false ∧ p = [] := by
  cases wrong <;> simp [pushIf]

end Problems

open Problems

def Canonical (path expected : Text) : Prop := checkBundlePath path = .ok () ∧ path = expected

variable {what expected : Text} {p : Problems}

@[simp] theorem checkPath_eq_nil {path : Text} :
    checkPath codec what path expected p = [] ↔ Canonical path expected ∧ p = [] := by
  unfold checkPath Canonical
  cases checkBundlePath path <;> simp

/-! ### Validation -/

def isLabel (s : Text) (max : ℕ) : Bool :=
  !s.isEmpty && byteLength s ≤ max &&
    s.all fun c => c.isLower || c.isDigit || c = '-' || c = '_'

def isPrintable (s : Text) (max : ℕ) : Bool :=
  !s.isEmpty && byteLength s ≤ max && !s.any isControl

variable (m : BundleManifest)

def validateSequence (p : Problems) : Problems :=
  match m.kind, m.sequence with
  | .full, none => p
  | .full, some _ => push "a full bundle must not carry a sequence" p
  | _, none => push "baseline and cumulative bundles must carry a sequence" p
  | kind, some seq =>
    let consistent : Bool := match kind with
      | .baseline => seq.baselineSequenceNumber = seq.sequenceNumber
      | _ => seq.baselineSequenceNumber < seq.sequenceNumber
    pushIf (!consistent)
      (kind.debug ++ " bundle has inconsistent baseline_sequence_number " ++
        decimal seq.baselineSequenceNumber ++ " for sequence " ++ decimal seq.sequenceNumber)
      (pushIf (maxStoredU64 < seq.sequenceNumber)
        ("sequence_number exceeds " ++ decimal maxStoredU64)
        (pushIf (seq.sequenceNumber = 0) "sequence_number must be >= 1" p))

structure RepositoryState where
  keys : List Text
  folded : List Text
  problems : Problems

/-- Enter a key into the sets of the loop. -/
def noteKey (key : Text) (s : RepositoryState) : RepositoryState :=
  if key ∈ s.keys then
    { s with
      problems :=
        push ("repository " ++ codec.debug key ++ " is declared twice") s.problems }
  else if toAsciiLowercase key ∈ s.folded then
    { s with
      keys := key :: s.keys
      problems := push ("repository " ++ codec.debug key ++
        (" differs from another key only by case; the keys would " ++
          "collide on case-insensitive media").toList) s.problems }
  else { s with keys := key :: s.keys, folded := toAsciiLowercase key :: s.folded }

def checkRepository (repo : RepositoryEntry) (p : Problems) : Problems :=
  let what := "repository " ++ codec.debug repo.key
  let p := pushIf (!isLabel repo.format 64 || !isLabel repo.repoType 32)
    (what ++ ": format and repo_type must be lowercase labels") p
  let p := checkPath codec what repo.metadataPath (repoFilePath repo.key .repo) p
  let p := checkPath codec what repo.artifactsPath (repoFilePath repo.key .artifacts) p
  match repo.ociPath with
  | some oci => checkPath codec what oci (repoFilePath repo.key .oci) p
  | none => p

def validateRepository (s : RepositoryState) (repo : RepositoryEntry) : RepositoryState :=
  if isValidRepoKey repo.key then
    let s := noteKey codec repo.key s
    { s with problems := checkRepository codec repo s.problems }
  else
    { s with
      problems := push ("repository key " ++ codec.debug repo.key ++
        " is not a valid key") s.problems }

def validateRepositories (p : Problems) : RepositoryState :=
  m.repositories.foldl (validateRepository codec)
    ⟨[], [], pushIf m.repositories.isEmpty "bundle declares no repositories" p⟩

structure ItemState where
  total : ℕ
  seen : List (Text × Text)
  digests : List Text
  problems : Problems

def checkItem (what : Text) (item : ItemEntry) (p : Problems) : Problems :=
  let p := checkPath codec what item.blobPath (blobPath item.sha256 item.logicalPath) p
  let p := pushIf (maxStoredU64 < item.sizeBytes)
    (what ++ ": size_bytes exceeds " ++ decimal maxStoredU64) p
  let p := pushIf (item.volume = 0 || m.volumeSet.volumeCount < item.volume)
    (what ++ ": volume " ++ decimal item.volume ++ " is outside 1..=" ++
      decimal m.volumeSet.volumeCount) p
  pushIf (item.signature.isSome && m.signing.isNone)
    (what ++ ": carries a record signature but the bundle has no signing block") p

variable (repoKeys : List Text)

def validateItem (s : ItemState) (indexed : ItemEntry × ℕ) : ItemState :=
  let item := indexed.1
  let what := "item " ++ decimal indexed.2
  let p := pushIf (!repoKeys.contains item.repositoryKey)
    (what ++ ": repository " ++ codec.debug item.repositoryKey ++ " is not declared")
    s.problems
  match checkLogicalPath item.logicalPath with
  | .error e => { s with problems := push (what ++ ": " ++ e.display codec.debug) p }
  | .ok () =>
    let name := (item.repositoryKey, item.logicalPath)
    let p := pushIf (s.seen.contains name)
      (what ++ ": " ++ item.repositoryKey ++ '/' :: item.logicalPath ++ " appears more than once") p
    let s := { s with seen := name :: s.seen }
    if isSha256Hex item.sha256 then
      let p := checkItem codec m what item p
      let s := { s with digests := item.sha256 :: s.digests }
      -- The addition is a checked one.
      if s.total + item.sizeBytes < 2 ^ 64 then
        { s with total := s.total + item.sizeBytes, problems := p }
      else { s with problems := push "total item size overflows" p }
    else
      { s with problems := push (what ++ ": sha256 is not a lowercase hex SHA-256") p }

variable (limits : BundleLimits)

def validateItems (p : Problems) : ItemState :=
  if limits.maxItems.toNat < m.items.length then
    ⟨0, [], [], push ("bundle has " ++ decimal m.items.length ++
      " items, more than the limit of " ++ decimal limits.maxItems.toNat) p⟩
  else m.items.zipIdx.foldl (validateItem codec m repoKeys) ⟨0, [], [], p⟩

def evidenceDigest (path : Text) : Option Text :=
  ((path.splitOn '/').getLast?.bind (stripSuffix · jsonSuffix)).filter isSha256Hex

def validateEvidenceEntry (digests : List Text) (p : Problems) (indexed : ScanEvidenceEntry × ℕ) :
    Problems :=
  let ev := indexed.1
  let what := "scan_evidence " ++ decimal indexed.2
  let p := pushIf (!digests.contains ev.artifactSha256)
    (what ++ ": artifact_sha256 matches no item") p
  let p := pushIf (!isLabel ev.scanner 64) (what ++ ": scanner must be a lowercase label") p
  match ev.evidencePath with
  | none => p
  | some path =>
    match evidenceDigest path with
    | some sha => checkPath codec what path (evidencePath sha) p
    | none =>
      push (what ++ ": evidence_path " ++ codec.debug path ++ " is not canonical") p

def validateEvidence (digests : List Text) (p : Problems) : Problems :=
  m.scanEvidence.zipIdx.foldl (validateEvidenceEntry codec digests) p

/-- A path of the kind `signing/<name>.json`. -/
def isSigningPath (path : Text) : Bool :=
  match classifyFile path with
  | .ok (.signing _) => true
  | _ => false

def validateSigning (p : Problems) : Problems :=
  match m.signing with
  | none => p
  | some signing =>
    let p := pushIf (!isPrintable signing.signerKeyId 256 || !isPrintable signing.signerFingerprint 256 ||
        !isPrintable signing.algorithm 64)
      "signing: signer_key_id, signer_fingerprint and algorithm are required" p
    match signing.keyStatusListPath with
    | none => p
    | some path =>
      pushIf (!isSigningPath path)
        ("signing: key_status_list_path " ++ codec.debug path ++ " is not under signing/") p

def validateHeader : Problems :=
  let p := pushIf (m.format ≠ bundleFormat)
    ("format is " ++ codec.debug m.format ++ ", expected " ++ codec.debug bundleFormat) []
  let p := pushIf (!(minSchemaVersion ≤ m.schemaVersion && m.schemaVersion ≤ manifestSchemaVersion))
    ("unsupported schema_version " ++ decimal m.schemaVersion) p
  let p := pushIf (!isPrintable m.producer.product 64 || !isPrintable m.producer.version 64)
    "producer.product and producer.version are required" p
  let p := pushIf (m.volumeSet.volumeCount = 0 || maxVolumeCount < m.volumeSet.volumeCount)
    ("volume_set.volume_count must be between 1 and " ++ decimal maxVolumeCount) p
  pushIf (m.volumeSet.mediaControlNumber.any (!isPrintable · 64))
    "volume_set.media_control_number must be 1-64 printable characters" p

def validateManifest : Except (List Text) ManifestSummary :=
  let p := validateSequence m (validateHeader codec m)
  let repositories := validateRepositories codec m p
  let items := validateItems codec m repositories.keys limits repositories.problems
  let p := validateEvidence codec m items.digests items.problems
  let p := validateSigning codec m p
  if p.isEmpty then
    .ok ⟨m.repositories.length, m.items.length, items.total,
      (m.items.map ItemEntry.blobPath).eraseDups.length, m.scanEvidence.length⟩
  else .error p

/-! ### The paths a manifest names -/

/-- The documents that travel on volume 1. -/
def metadataPaths : List Text :=
  (m.repositories.flatMap fun repo =>
      repo.metadataPath :: repo.artifactsPath :: repo.ociPath.toList) ++
    m.scanEvidence.filterMap ScanEvidenceEntry.evidencePath ++
    (m.signing.bind SigningInfo.keyStatusListPath).toList

def Named (volume : ℕ) (path : Text) : Prop :=
  volume = 1 ∧ path ∈ metadataPaths m ∨
    ∃ item ∈ m.items, item.volume = volume ∧ item.blobPath = path

/-! ### What a valid manifest says -/

structure PlacedRepository (repo : RepositoryEntry) : Prop where
  valid : isValidRepoKey repo.key = true
  metadata : Canonical repo.metadataPath (repoFilePath repo.key .repo)
  artifacts : Canonical repo.artifactsPath (repoFilePath repo.key .artifacts)
  oci : ∀ path ∈ repo.ociPath, Canonical path (repoFilePath repo.key .oci)

structure PlacedItem (item : ItemEntry) : Prop where
  hex : isSha256Hex item.sha256 = true
  blob : Canonical item.blobPath (blobPath item.sha256 item.logicalPath)
  volume : item.volume ≠ 0 ∧ item.volume ≤ m.volumeSet.volumeCount

def PlacedEvidence (ev : ScanEvidenceEntry) : Prop :=
  ∀ path ∈ ev.evidencePath, ∃ sha, isSha256Hex sha = true ∧ Canonical path (evidencePath sha)

structure Valid : Prop where
  repositories : ∀ repo ∈ m.repositories, PlacedRepository repo
  keys : (m.repositories.map fun repo => toAsciiLowercase repo.key).Nodup
  items : ∀ item ∈ m.items, PlacedItem m item
  evidence : ∀ ev ∈ m.scanEvidence, PlacedEvidence ev
  signing : ∀ signing ∈ m.signing, ∀ path ∈ signing.keyStatusListPath, isSigningPath path = true

variable {codec} {m} {repo : RepositoryEntry} {s : RepositoryState}

theorem foldl_problems {σ α : Type} (problems : σ → Problems) (step : σ → α → σ) {Good : α → Prop}
    (good : ∀ s a, problems (step s a) = [] → problems s = [] ∧ Good a) {l : List α} {s : σ}
    (none : problems (l.foldl step s) = []) : problems s = [] ∧ ∀ a ∈ l, Good a := by
  induction l generalizing s with
  | nil => exact ⟨none, by simp⟩
  | cons a l ih =>
    obtain ⟨before, later⟩ := ih none
    obtain ⟨start, first⟩ := good s a before
    exact ⟨start, forall_mem_cons.2 ⟨first, later⟩⟩

theorem forall_mem_zipIdx {α : Type} {Good : α → Prop} {l : List α}
    (good : ∀ indexed ∈ l.zipIdx, Good indexed.1) : ∀ a ∈ l, Good a := by
  intro a listed
  rw [← zipIdx_map_fst 0 l] at listed
  obtain ⟨indexed, mem, rfl⟩ := mem_map.1 listed
  exact good indexed mem

theorem checkRepository_eq_nil
    (none : checkRepository codec repo p = []) (valid : isValidRepoKey repo.key = true) :
    p = [] ∧ PlacedRepository repo := by
  unfold checkRepository at none
  split at none
  · rename_i oci present
    simp only [checkPath_eq_nil, pushIf_eq_nil] at none
    obtain ⟨ociPath, artifacts, metadata, -, empty⟩ := none
    exact ⟨empty, valid, metadata, artifacts, by simpa [present] using ociPath⟩
  · rename_i absent
    simp only [checkPath_eq_nil, pushIf_eq_nil] at none
    obtain ⟨artifacts, metadata, -, empty⟩ := none
    exact ⟨empty, valid, metadata, artifacts, by simp [absent]⟩

theorem noteKey_eq_nil {key : Text} (none : (noteKey codec key s).problems = []) :
    s.problems = [] ∧ toAsciiLowercase key ∉ s.folded ∧
      (noteKey codec key s).folded = toAsciiLowercase key :: s.folded := by
  unfold noteKey at none ⊢
  split_ifs at none ⊢ with twice folded
  · simp at none
  · simp at none
  · exact ⟨none, folded, rfl⟩

theorem validateRepository_eq_nil
    (none : (validateRepository codec s repo).problems = []) :
    s.problems = [] ∧ PlacedRepository repo ∧ toAsciiLowercase repo.key ∉ s.folded ∧
      (validateRepository codec s repo).folded = toAsciiLowercase repo.key :: s.folded := by
  unfold validateRepository at none ⊢
  split_ifs at none ⊢ with valid
  · obtain ⟨before, placed⟩ := checkRepository_eq_nil none valid
    obtain ⟨start, fresh, folded⟩ := noteKey_eq_nil before
    exact ⟨start, placed, fresh, folded⟩
  · simp at none

theorem folded_keys_nodup {repositories : List RepositoryEntry}
    (none : (repositories.foldl (validateRepository codec) s).problems = []) :
    (repositories.map fun repo => toAsciiLowercase repo.key).Nodup ∧
      ∀ repo ∈ repositories, toAsciiLowercase repo.key ∉ s.folded := by
  induction repositories generalizing s with
  | nil => simp
  | cons repo _ ih =>
    rw [foldl_cons] at none
    obtain ⟨distinct, later⟩ := ih none
    have before : (validateRepository codec s repo).problems = [] :=
      (foldl_problems RepositoryState.problems (validateRepository codec)
        (fun _ _ none => ⟨(validateRepository_eq_nil none).1, trivial⟩) none).1
    obtain ⟨-, -, fresh, folded⟩ := validateRepository_eq_nil before
    rw [folded] at later
    constructor
    · rw [map_cons, nodup_cons]
      refine ⟨fun mem => ?_, distinct⟩
      obtain ⟨other, mem, same⟩ := mem_map.1 mem
      exact later other mem (same ▸ mem_cons_self)
    · rintro other (_ | ⟨_, mem⟩)
      · exact fresh
      · exact fun old => later other mem (mem_cons_of_mem _ old)

theorem validateRepositories_eq_nil (none : (validateRepositories codec m p).problems = []) :
    (∀ repo ∈ m.repositories, PlacedRepository repo) ∧
      (m.repositories.map fun repo => toAsciiLowercase repo.key).Nodup := by
  obtain ⟨-, placed⟩ := foldl_problems RepositoryState.problems (validateRepository codec)
    (fun s repo none => (validateRepository_eq_nil none).imp_right And.left) none
  exact ⟨placed, (folded_keys_nodup none).1⟩

theorem checkItem_eq_nil {item : ItemEntry} (none : checkItem codec m what item p = [])
    (hex : isSha256Hex item.sha256 = true) :
    p = [] ∧ PlacedItem m item := by
  simp only [checkItem, pushIf_eq_nil, checkPath_eq_nil, Bool.or_eq_false_iff, decide_eq_false_iff_not,
    not_lt] at none
  obtain ⟨-, volume, -, blob, empty⟩ := none
  exact ⟨empty, hex, blob, volume⟩

theorem validateItem_eq_nil {repoKeys : List Text} {s : ItemState} {indexed : ItemEntry × ℕ}
    (none : (validateItem codec m repoKeys s indexed).problems = []) :
    s.problems = [] ∧ PlacedItem m indexed.1 := by
  unfold validateItem at none
  dsimp only at none
  split at none
  · simp at none
  · split_ifs at none with hex fits
    · obtain ⟨before, placed⟩ := checkItem_eq_nil none hex
      simp only [pushIf_eq_nil] at before
      exact ⟨before.2.2, placed⟩
    · simp at none
    · simp at none

theorem validateItems_eq_nil {repoKeys : List Text} {limits : BundleLimits}
    (none : (validateItems codec m repoKeys limits p).problems = []) :
    p = [] ∧ ∀ item ∈ m.items, PlacedItem m item := by
  unfold validateItems at none
  split_ifs at none with many
  · simp at none
  · obtain ⟨start, placed⟩ := foldl_problems ItemState.problems (validateItem codec m repoKeys)
      (fun _ _ => validateItem_eq_nil) none
    exact ⟨start, forall_mem_zipIdx placed⟩

theorem validateEvidenceEntry_eq_nil {digests : List Text}
    {indexed : ScanEvidenceEntry × ℕ} (none : validateEvidenceEntry codec digests p indexed = []) :
    p = [] ∧ PlacedEvidence indexed.1 := by
  unfold validateEvidenceEntry at none
  dsimp only at none
  split at none
  · rename_i absent
    simp only [pushIf_eq_nil] at none
    exact ⟨none.2.2, by simp [PlacedEvidence, absent]⟩
  · rename_i path present
    split at none
    · rename_i sha found
      simp only [checkPath_eq_nil, pushIf_eq_nil] at none
      have hex := (Option.filter_eq_some_iff.1 found).2
      refine ⟨none.2.2.2, ?_⟩
      rintro other mem
      obtain rfl : path = other := by simpa [present] using mem
      exact ⟨sha, hex, none.1⟩
    · simp at none

theorem validateSigning_eq_nil (none : validateSigning codec m p = []) :
    p = [] ∧ ∀ signing ∈ m.signing, ∀ path ∈ signing.keyStatusListPath, isSigningPath path = true := by
  unfold validateSigning at none
  split at none
  · rename_i absent
    exact ⟨none, by simp [absent]⟩
  · rename_i signing present
    split at none
    · rename_i absent
      simp only [pushIf_eq_nil] at none
      exact ⟨none.2, by simp [present, absent]⟩
    · rename_i path listed
      simp only [pushIf_eq_nil] at none
      exact ⟨none.2.2, by simpa [present, listed] using none.1⟩

theorem valid_of_validateManifest {limits : BundleLimits} {summary : ManifestSummary}
    (ok : validateManifest codec m limits = .ok summary) : Valid m := by
  unfold validateManifest at ok
  dsimp only at ok
  split_ifs at ok with empty
  obtain ⟨evidenceNone, signing⟩ := validateSigning_eq_nil (isEmpty_iff.1 empty)
  obtain ⟨itemsNone, evidence⟩ := foldl_problems id (validateEvidenceEntry codec _)
    (fun _ _ => validateEvidenceEntry_eq_nil) evidenceNone
  obtain ⟨repositoriesNone, items⟩ := validateItems_eq_nil itemsNone
  obtain ⟨repositories, keys⟩ := validateRepositories_eq_nil repositoriesNone
  exact ⟨repositories, keys, items, forall_mem_zipIdx evidence, signing⟩

/-- Why a valid manifest names a path, and as what. -/
inductive Source (m : BundleManifest) : Text → BundleEntry → Prop
  | repoFile {repo : RepositoryEntry} (mem : repo ∈ m.repositories) (file : RepoFile) :
      Source m (repoFilePath repo.key file) (.repoFile repo.key file)
  | blob (path sha : Text) : Source m path (.blob sha)
  | evidence (path sha : Text) : Source m path (.evidence sha)
  | signing {path : Text} (listed : m.signing.bind SigningInfo.keyStatusListPath = some path)
      (name : Text) : Source m path (.signing name)

section Named

variable {volume : ℕ} {path other : Text} {entry : BundleEntry}

theorem Canonical.classified (canonical : Canonical path expected)
    (layout : Layout entry (expected.splitOn '/')) : classifyFile path = .ok entry := by
  obtain ⟨checked, rfl⟩ := canonical
  exact classifyFile_ok.2 ⟨checked, layout⟩

theorem PlacedRepository.source (placed : PlacedRepository repo)
    (mem : repo ∈ m.repositories) {file : RepoFile}
    (canonical : Canonical path (repoFilePath repo.key file)) :
    ∃ entry, classifyFile path = .ok entry ∧ Source m path entry := by
  refine ⟨_, canonical.classified (layout_repoFilePath placed.valid file), ?_⟩
  rw [canonical.2]
  exact .repoFile mem file

theorem Valid.source (valid : Valid m) (named : Named m volume path) :
    ∃ entry, classifyFile path = .ok entry ∧ Source m path entry := by
  rcases named with ⟨-, listed⟩ | ⟨item, mem, -, rfl⟩
  · simp only [metadataPaths, mem_append, mem_flatMap, mem_cons, mem_filterMap,
      Option.mem_toList] at listed
    rcases listed with (⟨repo, mem, document⟩ | ⟨ev, mem, present⟩) | listed
    · have placed := valid.repositories repo mem
      rcases document with rfl | rfl | present
      · exact placed.source mem placed.metadata
      · exact placed.source mem placed.artifacts
      · exact placed.source mem (placed.oci path present)
    · obtain ⟨sha, hex, canonical⟩ := valid.evidence ev mem path present
      exact ⟨_, canonical.classified (layout_evidencePath hex), .evidence path sha⟩
    · obtain ⟨signing, present, path_eq⟩ := Option.bind_eq_some_iff.1 listed
      have accepted := valid.signing signing present path path_eq
      unfold isSigningPath at accepted
      split at accepted
      · rename_i name classified
        exact ⟨_, classified, .signing listed name⟩
      · cases accepted
  · have placed := valid.items item mem
    exact ⟨_, placed.blob.classified (layout_blobPath placed.hex item.logicalPath),
      .blob item.blobPath item.sha256⟩

theorem Source.ne_manifest (source : Source m path entry) : entry ≠ .manifest := by
  cases source <;> nofun

theorem classifyFile_manifestPath : classifyFile manifestPath = .ok .manifest := by decide +kernel

section

variable (named : Named m volume path) (valid : Valid m)
include named valid

theorem Valid.ne_manifestPath : path ≠ manifestPath := by
  rintro rfl
  obtain ⟨_, classified, source⟩ := valid.source named
  cases classified
  exact source.ne_manifest rfl

theorem Valid.eq_of_folded (named' : Named m volume other)
    (same : toAsciiLowercase path = toAsciiLowercase other) :
    path = other := by
  obtain ⟨_, classified, source⟩ := valid.source named
  obtain ⟨_, classified', source'⟩ := valid.source named'
  rcases (classifyFile_ok.1 classified).2.eq_or_sameFolded (classifyFile_ok.1 classified').2 same with
    equal | folded
  · exact equal
  · cases folded with
    | repoFile _ keys =>
      cases source with
      | repoFile mem =>
        cases source' with
        | repoFile mem' => rw [inj_on_of_nodup_map valid.keys mem mem' keys]
    | signing =>
      cases source with
      | signing listed =>
        cases source' with
        | signing listed' => exact Option.some.inj (listed.symm.trans listed')

theorem Valid.apart_manifestPath : Apart manifestPath path := by
  obtain ⟨_, classified, source⟩ := valid.source named
  have layout := (classifyFile_ok.1 classifyFile_manifestPath).2
  have layout' := (classifyFile_ok.1 classified).2
  refine layout.apart layout' fun same => ?_
  rcases layout.eq_or_sameFolded layout' same with equal | folded
  · exact valid.ne_manifestPath named equal.symm
  · cases folded

theorem Valid.apart (named' : Named m volume other) (different : path ≠ other) :
    Apart path other := by
  obtain ⟨_, classified, -⟩ := valid.source named
  obtain ⟨_, classified', -⟩ := valid.source named'
  exact (classifyFile_ok.1 classified).2.apart (classifyFile_ok.1 classified').2
    fun same => different (valid.eq_of_folded named named' same)

end

end Named

end ArtifactKeeper.Bundle
