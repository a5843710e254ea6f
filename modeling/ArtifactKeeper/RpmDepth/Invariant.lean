import ArtifactKeeper.Library.StepSystem
import ArtifactKeeper.Library.Text
import Mathlib.Data.List.Nodup

/-!
# The triggers for the repodata depth

A hosted RPM repository can have a positive repodata depth; its packages then lie that many
directories deep and are stored by content.  A write is one row: its triggers read the tables as
they are before it, and the keys are checked after it.
-/

namespace ArtifactKeeper.RpmDepth

open Text List
open Bool hiding and_assoc not_and not_not not_or not_true
open Option hiding any_eq_false any_eq_true

inductive RepositoryFormat
  | rpm
  | other (name : Text)
  deriving DecidableEq

inductive RepositoryType
  | local
  | remote
  | virtual
  | staging
  deriving DecidableEq

variable (Id : Type) [DecidableEq Id]

/-! ### Tables -/

structure Repository where
  id : Id
  format : RepositoryFormat
  repoType : RepositoryType
  formatKey : Option Text
  curationEnabled : Bool
  curationSourceRepoId : Option Id
  curationTargetRepoId : Option Id
  activePublicationId : Option Id
  deriving DecidableEq

structure ConfigRow where
  id : Id
  repositoryId : Id
  key : Text
  value : Option Text
  deriving DecidableEq

structure Artifact where
  id : Id
  repositoryId : Id
  path : Text
  checksumSha256 : Text
  storageKey : Text
  deriving DecidableEq

structure VirtualMember where
  id : Id
  virtualRepoId : Id
  memberRepoId : Id
  deriving DecidableEq

structure RepositoryVersion where
  id : Id
  repositoryId : Id
  deriving DecidableEq

structure Database where
  repositories : List (Repository Id)
  config : List (ConfigRow Id)
  artifacts : List (Artifact Id)
  members : List (VirtualMember Id)
  versions : List (RepositoryVersion Id)

variable {Id}

/-! ### The depth and who may have one -/

/-- The exceptions; `cast` is a configured value that is no number. -/
inductive DepthError
  | unsupported
  | range
  | populated
  | path
  | storage
  | cast
  deriving DecidableEq

def depthKey : Text := "repodata_depth"

/-- `value::integer`, for the digits that can be stored. -/
def castInteger (value : Text) : Except DepthError ℕ :=
  match parseUnsigned (2 ^ 31) value with
  | some n => .ok n
  | none => .error .cast

variable (db : Database Id)

def akRpmRepodataDepth (repo : Id) : Except DepthError ℕ :=
  match db.config.find? fun row => row.repositoryId = repo ∧ row.key = depthKey with
  | none => .ok 0
  | some row =>
    match row.value with
    | none => .ok 0
    | some value => castInteger value

variable (r : Repository Id)

/-- The columns of a repository that may have a depth. -/
def Repository.isPlain : Bool :=
  r.format = .rpm && r.repoType = .local && r.formatKey.all (· = "rpm".toList) &&
    !r.curationEnabled && r.curationSourceRepoId.isNone && r.curationTargetRepoId.isNone &&
    r.activePublicationId.isNone

def Repository.curates (repo : Id) : Bool :=
  r.curationSourceRepoId = some repo || r.curationTargetRepoId = some repo

def akRpmDepthEligible (repo : Id) : Bool :=
  db.repositories.any fun r => r.id = repo && r.isPlain &&
    !db.versions.any (·.repositoryId = r.id) && !db.members.any (·.memberRepoId = r.id) &&
    !db.repositories.any (·.curates r.id)

/-! ### The guard of the configuration -/

def changeDepth (repo : Id) (requested : ℕ) : Except DepthError Unit := do
  let previous ← akRpmRepodataDepth db repo
  if requested = previous then .ok ()
  else if 0 < requested ∧ akRpmDepthEligible db repo = false then .error .unsupported
  else if db.artifacts.any (·.repositoryId = repo) then .error .populated
  else .ok ()

/-- `^[0-9]{1,4}$` -/
def isDepthText (value : Text) : Bool :=
  !value.isEmpty && value.length ≤ 4 && value.all Char.isDigit

def setDepth (new : ConfigRow Id) : Except DepthError Unit :=
  if new.key ≠ depthKey then .ok ()
  else
    match new.value with
    | none => .error .range
    | some value =>
      if isDepthText value then do
        let requested ← castInteger value
        if 1023 < requested then .error .range else changeDepth db new.repositoryId requested
      else .error .range

def configInsertGuard (new : ConfigRow Id) : Except DepthError Unit :=
  setDepth db new

def configUpdateGuard (old new : ConfigRow Id) : Except DepthError Unit :=
  if old.key = depthKey ∧ (old.key ≠ new.key ∨ old.repositoryId ≠ new.repositoryId) then
    .error .unsupported
  else setDepth db new

def configDeleteGuard (old : ConfigRow Id) : Except DepthError Unit :=
  if old.key ≠ depthKey then .ok ()
  -- The rows of a deleted repository go with it.
  else if !db.repositories.any (·.id = old.repositoryId) then .ok ()
  else changeDepth db old.repositoryId 0

/-! ### The guard of the artifacts -/

/-- What depends on the locale of the database. -/
structure Collation where
  isControl : Char → Bool
  lower : Text → Text

variable (collation : Collation) (db : Database Id)

def octetLength (s : Text) : ℕ := (s.map Char.utf8Size).sum

/-- `^@[0-9]+$` -/
def isVersionRoot (part : Text) : Bool :=
  part.head? = some '@' && !part.tail.isEmpty && part.tail.all Char.isDigit

/-- A part of a path that no directory or package may have as its name. -/
def isReserved (part : Text) : Bool :=
  part = [] || part = "." || part = ".." || part = "repodata" ||
    trim part ≠ part

def pathRejected (depth : ℕ) (path : Text) : Bool :=
  let parts := path.splitOn '/'
  2048 < octetLength path || path.isEmpty || parts.length ≤ depth ||
    path.any collation.isControl || path.contains '\\' ||
    ["%2e".toList, "%2f", "%5c"].any (containsText (collation.lower path)) ||
    parts.head?.any isVersionRoot || parts.any isReserved

/-- `^[0-9a-f]{64}$` -/
def isSha256 (checksum : Text) : Bool :=
  checksum.length = 64 && checksum.all fun c => c.isDigit || 'a' ≤ c && c ≤ 'f'

def contentKey (checksum : Text) : Text :=
  checksum.take 2 ++ '/' :: (checksum.drop 2).take 2 ++ '/' :: checksum

def artifactGuard (new : Artifact Id) : Except DepthError Unit :=
  if !db.repositories.any (fun r => r.id = new.repositoryId && r.format = .rpm) then .ok ()
  else do
    let depth ← akRpmRepodataDepth db new.repositoryId
    if depth = 0 then .ok ()
    else if pathRejected collation depth new.path then .error .path
    else if !isSha256 new.checksumSha256 || new.storageKey ≠ contentKey new.checksumSha256 then
      .error .storage
    else .ok ()

/-! ### The guards of the dependencies -/

/-- The guard of virtual members and repository versions, at the repository they name. -/
def dependencyGuard (repo : Id) : Except DepthError Unit := do
  let depth ← akRpmRepodataDepth db repo
  if 0 < depth then .error .unsupported else .ok ()

def repositoryGuard (new : Repository Id) : Except DepthError Unit := do
  (new.curationSourceRepoId.toList ++ new.curationTargetRepoId.toList).forM (dependencyGuard db)
  if new.isPlain then .ok () else dependencyGuard db new.id

/-! ### Writes -/

/-- A write of one row.  A trigger for some columns fires on an update that lists one of them. -/
inductive Write (Id : Type)
  | insertConfig (new : ConfigRow Id)
  | updateConfig (old new : ConfigRow Id)
  | deleteConfig (old : ConfigRow Id)
  | insertArtifact (new : Artifact Id)
  | updateArtifact (old new : Artifact Id)
  | deleteArtifact (old : Artifact Id)
  | insertMember (new : VirtualMember Id)
  | updateMember (old new : VirtualMember Id) (listed : Bool)
  | deleteMember (old : VirtualMember Id)
  | insertVersion (new : RepositoryVersion Id)
  | updateVersion (old new : RepositoryVersion Id) (listed : Bool)
  | deleteVersion (old : RepositoryVersion Id)
  | insertRepository (new : Repository Id)
  | updateRepository (old new : Repository Id) (listed : Bool)
  | deleteRepository (old : Repository Id)

def allows : Except DepthError Unit → Bool
  | .ok _ => true
  | .error _ => false

def replace {α : Type} [DecidableEq α] (rows : List α) (old new : α) : List α :=
  new :: rows.erase old

def Repository.sameListed (old new : Repository Id) : Bool :=
  old.format = new.format && old.repoType = new.repoType && old.formatKey = new.formatKey &&
    old.curationEnabled = new.curationEnabled &&
    old.curationSourceRepoId = new.curationSourceRepoId &&
    old.curationTargetRepoId = new.curationTargetRepoId &&
    old.activePublicationId = new.activePublicationId

/-- `ON DELETE SET NULL` of the curation columns. -/
def Repository.unlink (repo : Id) : Repository Id :=
  { r with
    curationSourceRepoId := r.curationSourceRepoId.filter (· ≠ repo)
    curationTargetRepoId := r.curationTargetRepoId.filter (· ≠ repo) }

open Repository (curates isPlain unlink)

/-- The tables without a repository and the rows that go with it. -/
def Database.dropRepository (old : Repository Id) : Database Id where
  repositories := db.repositories.erase old
  config := db.config.filter (·.repositoryId ≠ old.id)
  artifacts := db.artifacts.filter (·.repositoryId ≠ old.id)
  members := db.members.filter fun m => m.virtualRepoId ≠ old.id ∧ m.memberRepoId ≠ old.id
  versions := db.versions.filter (·.repositoryId ≠ old.id)

def apply : Write Id → Option (Database Id)
  | .insertConfig new =>
    if allows (configInsertGuard db new) then some { db with config := new :: db.config } else none
  | .updateConfig old new =>
    if old ∈ db.config ∧ allows (configUpdateGuard db old new) then
      some { db with config := replace db.config old new }
    else none
  | .deleteConfig old =>
    if old ∈ db.config ∧ allows (configDeleteGuard db old) then
      some { db with config := db.config.erase old }
    else none
  | .insertArtifact new =>
    if allows (artifactGuard collation db new) then
      some { db with artifacts := new :: db.artifacts }
    else none
  | .updateArtifact old new =>
    if old ∈ db.artifacts ∧ allows (artifactGuard collation db new) then
      some { db with artifacts := replace db.artifacts old new }
    else none
  | .deleteArtifact old => some { db with artifacts := db.artifacts.erase old }
  | .insertMember new =>
    if allows (dependencyGuard db new.memberRepoId) then
      some { db with members := new :: db.members }
    else none
  | .updateMember old new listed =>
    if old ∈ db.members ∧
        (if listed then allows (dependencyGuard db new.memberRepoId)
          else decide (old.memberRepoId = new.memberRepoId)) then
      some { db with members := replace db.members old new }
    else none
  | .deleteMember old => some { db with members := db.members.erase old }
  | .insertVersion new =>
    if allows (dependencyGuard db new.repositoryId) then
      some { db with versions := new :: db.versions }
    else none
  | .updateVersion old new listed =>
    if old ∈ db.versions ∧
        (if listed then allows (dependencyGuard db new.repositoryId)
          else decide (old.repositoryId = new.repositoryId)) then
      some { db with versions := replace db.versions old new }
    else none
  | .deleteVersion old => some { db with versions := db.versions.erase old }
  | .insertRepository new =>
    if allows (repositoryGuard db new) then
      some { db with repositories := new :: db.repositories }
    else none
  | .updateRepository old new listed =>
    if old ∈ db.repositories ∧
        (if listed then allows (repositoryGuard db new) else old.sameListed new) then
      some { db with repositories := replace db.repositories old new }
    else none
  | .deleteRepository old =>
    let rest := db.dropRepository old
    if old ∈ db.repositories ∧ rest.repositories.all (fun r =>
        !r.curates old.id || allows (repositoryGuard rest (r.unlink old.id))) then
      some { rest with repositories := rest.repositories.map (·.unlink old.id) }
    else none

/-- The keys that the rule rests on: the identifiers of repositories are distinct, the configuration
belongs to repositories, and each key is configured once. -/
def keyed : Bool :=
  decide (db.repositories.map (·.id)).Nodup &&
    db.config.all (fun row => db.repositories.any (·.id = row.repositoryId)) &&
    decide (db.config.map fun row => (row.repositoryId, row.key)).Nodup

def step (write : Write Id) : Option (Database Id) :=
  (apply collation db write).filter keyed

def Start : Prop :=
  keyed db = true ∧ ∀ row ∈ db.config, row.key ≠ depthKey

open StepSystem

variable {collation} {db}

/-! ### The rule -/

/-- A hosted RPM repository without versions on which no other repository depends. -/
structure Eligible (db : Database Id) (repo : Id) : Prop where
  hosted : ∃ r ∈ db.repositories, r.id = repo ∧ r.isPlain = true
  unversioned : ∀ v ∈ db.versions, v.repositoryId ≠ repo
  notMember : ∀ m ∈ db.members, m.memberRepoId ≠ repo
  uncurated : ∀ r ∈ db.repositories, r.curates repo = false

section

variable (collation)

/-- A path below `depth` directories. -/
structure ValidPath (depth : ℕ) (path : Text) : Prop where
  short : octetLength path ≤ 2048
  deep : depth < (path.splitOn '/').length
  parts : ∀ part ∈ path.splitOn '/', isReserved part = false
  root : ∀ part ∈ (path.splitOn '/').head?, isVersionRoot part = false
  printable : ∀ c ∈ path, collation.isControl c = false ∧ c ≠ '\\'
  unescaped : ∀ code ∈ ["%2e".toList, "%2f", "%5c"], ¬code <:+: collation.lower path

structure Placed (depth : ℕ) (a : Artifact Id) : Prop where
  path : ValidPath collation depth a.path
  checksum : isSha256 a.checksumSha256 = true
  content : a.storageKey = contentKey a.checksumSha256

structure Ruled (db : Database Id) (repo : Id) (depth : ℕ) : Prop where
  eligible : Eligible db repo
  placed : ∀ a ∈ db.artifacts, a.repositoryId = repo → Placed collation depth a

structure Inv (db : Database Id) : Prop where
  keys : keyed db = true
  ruled : ∀ repo depth, akRpmRepodataDepth db repo = .ok depth → 0 < depth →
    Ruled collation db repo depth

end

/-! ### What the guards let through -/

variable {repo : Id} {depth : ℕ} {α : Type} {f : α → Except DepthError Unit}

theorem eligible_iff : akRpmDepthEligible db repo = true ↔ Eligible db repo := by
  simp only [akRpmDepthEligible, any_eq_true, and_eq_true, decide_eq_true_eq,
    not_eq_true', any_eq_false, not_eq_true]
  constructor
  · rintro ⟨r, mem, ⟨⟨⟨rfl, plain⟩, versions⟩, members⟩, curated⟩
    exact ⟨⟨r, mem, rfl, plain⟩, by simpa using versions, by simpa using members, curated⟩
  · rintro ⟨⟨r, mem, rfl, plain⟩, versions, members, curated⟩
    exact ⟨r, mem, ⟨⟨⟨rfl, plain⟩, by simpa using versions⟩, by simpa using members⟩, curated⟩

theorem validPath_iff {path : Text} :
    pathRejected collation depth path = false ↔ ValidPath collation depth path := by
  simp only [pathRejected, or_eq_false_iff, decide_eq_false_iff_not, Nat.not_lt, Nat.not_le,
    any_eq_false, not_eq_true, Option.any_eq_false, contains_eq_mem]
  constructor
  · rintro ⟨⟨⟨⟨⟨⟨⟨short, -⟩, deep⟩, control⟩, backslash⟩, escaped⟩, root⟩, parts⟩
    refine ⟨short, deep, parts, root, fun c mem => ⟨control c mem, ?_⟩, fun code mem inside => ?_⟩
    · rintro rfl
      exact backslash mem
    · rw [← containsText_iff, escaped code mem] at inside
      cases inside
  · rintro ⟨short, deep, parts, root, printable, unescaped⟩
    refine ⟨⟨⟨⟨⟨⟨⟨short, ?_⟩, deep⟩, fun c mem => (printable c mem).1⟩, fun mem => ?_⟩, ?_⟩, root⟩, parts⟩
    · cases path with
      | nil => cases parts [] (by simp)
      | cons => rfl
    · exact (printable _ mem).2 rfl
    · exact fun code mem => eq_false_of_not_eq_true fun inside =>
        unescaped code mem (containsText_iff.1 inside)

theorem allows_bind {x : Except DepthError α} :
    allows (x >>= f) = true ↔ ∃ a, x = .ok a ∧ allows (f a) = true := by
  cases x with
  | error e => simp [bind, Except.bind, allows]
  | ok a => simp [bind, Except.bind]

theorem dependencyGuard_eq_ok (h : allows (dependencyGuard db repo) = true) :
    akRpmRepodataDepth db repo = .ok 0 := by
  obtain ⟨_, configured, rest⟩ := allows_bind.1 h
  split_ifs at rest with positive
  · cases rest
  · rw [configured, Nat.eq_zero_of_not_pos positive]

theorem allows_forM {l : List α} (h : allows (l.forM f) = true) : ∀ a ∈ l, allows (f a) = true := by
  induction l with
  | nil => simp
  | cons a l ih =>
    obtain ⟨⟨⟩, first, rest⟩ := allows_bind.1 h
    exact forall_mem_cons.2 ⟨by rw [first]; rfl, ih rest⟩

theorem repositoryGuard_eq_ok {new : Repository Id} (h : allows (repositoryGuard db new) = true) :
    (∀ repo, new.curates repo = true → akRpmRepodataDepth db repo = .ok 0) ∧
      (new.isPlain = false → akRpmRepodataDepth db new.id = .ok 0) := by
  obtain ⟨⟨⟩, links, rest⟩ := allows_bind.1 h
  refine ⟨fun repo curates => dependencyGuard_eq_ok (allows_forM (by rw [links]; rfl) repo ?_),
    fun notPlain => ?_⟩
  · simpa [Repository.curates] using curates
  · rw [notPlain] at rest
    exact dependencyGuard_eq_ok rest

theorem artifactGuard_eq_ok {new : Artifact Id} (h : allows (artifactGuard collation db new) = true)
    (configured : akRpmRepodataDepth db new.repositoryId = .ok depth) (positive : 0 < depth)
    (hosted : Eligible db new.repositoryId) :
    Placed collation depth new := by
  obtain ⟨r, mem, same, plain⟩ := hosted.hosted
  have isRpm :
      (db.repositories.any fun r => r.id = new.repositoryId && r.format = .rpm) = true := by
    simp only [isPlain, and_eq_true] at plain
    exact any_eq_true.2 ⟨r, mem, by simp [same, plain]⟩
  simp only [artifactGuard, isRpm] at h
  obtain ⟨_, sameDepth, rest⟩ := allows_bind.1 h
  cases configured.symm.trans sameDepth
  rw [if_neg positive.ne'] at rest
  split_ifs at rest with badPath badStorage
  · cases rest
  · cases rest
  · simp only [or_eq_true, not_eq_true', decide_eq_true_eq, not_or, not_not,
      not_eq_false] at badStorage
    exact ⟨validPath_iff.1 (eq_false_of_not_eq_true badPath), badStorage.1, badStorage.2⟩

theorem changeDepth_eq_ok {requested : ℕ} (h : allows (changeDepth db repo requested) = true) :
    akRpmRepodataDepth db repo = .ok requested ∨
      (0 < requested → Eligible db repo) ∧ ∀ a ∈ db.artifacts, a.repositoryId ≠ repo := by
  obtain ⟨_, configured, rest⟩ := allows_bind.1 h
  split_ifs at rest with same unsupported populated
  · exact .inl (same ▸ configured)
  · cases rest
  · cases rest
  · refine .inr ⟨fun positive => eligible_iff.1 ?_, fun a mem same => populated ?_⟩
    · simpa [positive] using unsupported
    · exact any_eq_true.2 ⟨a, mem, by simp [same]⟩

variable {new : ConfigRow Id}

theorem setDepth_eq_ok (h : allows (setDepth db new) = true) (isDepth : new.key = depthKey) :
    ∃ value requested, new.value = some value ∧
      castInteger value = .ok requested ∧
        allows (changeDepth db new.repositoryId requested) = true := by
  simp only [setDepth, isDepth, ne_eq, not_true_eq_false, if_false] at h
  cases stored : new.value with
  | none => simp [stored, allows] at h
  | some value =>
    rw [stored] at h
    dsimp only at h
    split_ifs at h
    · obtain ⟨requested, cast, rest⟩ := allows_bind.1 h
      split_ifs at rest
      · cases rest
      · exact ⟨value, requested, rfl, cast, rest⟩
    · cases h

/-! ### Writes of the configuration -/

section Config

variable {rows : List (ConfigRow Id)}

theorem Eligible.setConfig (h : Eligible db repo) : Eligible { db with config := rows } repo :=
  ⟨h.hosted, h.unversioned, h.notMember, h.uncurated⟩

theorem depth_cons_of_ne (other : ¬(new.repositoryId = repo ∧ new.key = depthKey)) :
    akRpmRepodataDepth { db with config := new :: rows } repo =
      akRpmRepodataDepth { db with config := rows } repo := by
  simp [akRpmRepodataDepth, other]

theorem depth_cons_self {value : Text} (isDepth : new.key = depthKey)
    (stored : new.value = some value) :
    akRpmRepodataDepth { db with config := new :: rows } new.repositoryId = castInteger value := by
  simp [akRpmRepodataDepth, isDepth, stored]

theorem find_erase [DecidableEq α] {p : α → Bool} {old : α} (other : p old = false) (l : List α) :
    (l.erase old).find? p = l.find? p := by
  induction l with
  | nil => rfl
  | cons a l ih =>
    by_cases same : a = old
    · simp [same, other]
    · rw [erase_cons_tail (by simpa using same), find?_cons, find?_cons, ih]

theorem depth_erase_of_ne {old : ConfigRow Id}
    (other : ¬(old.repositoryId = repo ∧ old.key = depthKey)) :
    akRpmRepodataDepth { db with config := rows.erase old } repo =
      akRpmRepodataDepth { db with config := rows } repo := by
  unfold akRpmRepodataDepth
  rw [find_erase (by simpa using other)]

theorem nodup_of_keyed (keys : keyed db = true) : (db.repositories.map (·.id)).Nodup ∧
    (∀ row ∈ db.config, ∃ r ∈ db.repositories, r.id = row.repositoryId) ∧
    (db.config.map fun row => (row.repositoryId, row.key)).Nodup := by
  simpa [keyed, and_assoc] using keys

theorem exists_row_of_depth (configured : akRpmRepodataDepth db repo = .ok depth)
    (positive : 0 < depth) : ∃ row ∈ db.config, row.repositoryId = repo ∧ row.key = depthKey := by
  unfold akRpmRepodataDepth at configured
  split at configured
  · cases configured
    cases positive
  · rename_i row found
    exact ⟨row, mem_of_find?_eq_some found, by simpa using find?_some found⟩

theorem depth_erase_self {old : ConfigRow Id} (keys : keyed db = true) (mem : old ∈ db.config)
    (isDepth : old.key = depthKey) :
    akRpmRepodataDepth { db with config := db.config.erase old } old.repositoryId = .ok 0 := by
  have distinct := (nodup_of_keyed keys).2.2
  have absent : (db.config.erase old).find?
      (fun row => row.repositoryId = old.repositoryId ∧ row.key = depthKey) = none := by
    refine find?_eq_none.2 fun row inside matches' => ?_
    obtain ⟨differs, inConfig⟩ := (List.Nodup.of_map _ distinct).mem_erase_iff.1 inside
    simp only [decide_eq_true_eq] at matches'
    refine differs (inj_on_of_nodup_map distinct inConfig mem ?_)
    rw [matches'.1, matches'.2, isDepth]
  simp only [akRpmRepodataDepth, absent]

/-- A depth is as before, or new on a repository that may have it and is empty. -/
def Changes (db : Database Id) (rows : List (ConfigRow Id)) : Prop :=
  ∀ repo depth, akRpmRepodataDepth { db with config := rows } repo = .ok depth → 0 < depth →
    akRpmRepodataDepth db repo = .ok depth ∨
      Eligible db repo ∧ ∀ a ∈ db.artifacts, a.repositoryId ≠ repo

theorem Inv.setConfig (h : Inv collation db) (keys : keyed { db with config := rows } = true)
    (changes : Changes db rows) : Inv collation { db with config := rows } := by
  refine ⟨keys, fun repo depth configured positive => ?_⟩
  rcases changes repo depth configured positive with before | ⟨eligible, empty⟩
  · have ruled := h.ruled repo depth before positive
    exact ⟨ruled.eligible.setConfig, ruled.placed⟩
  · exact ⟨eligible.setConfig, fun a mem same => absurd same (empty a mem)⟩

theorem changes_cons (allowed : allows (setDepth db new) = true)
    (rest : ∀ {repo}, ¬(new.repositoryId = repo ∧ new.key = depthKey) →
      akRpmRepodataDepth { db with config := rows } repo = akRpmRepodataDepth db repo) :
    Changes db (new :: rows) := by
  intro repo _ configured positive
  by_cases isDepth : new.repositoryId = repo ∧ new.key = depthKey
  · obtain ⟨rfl, isDepth⟩ := isDepth
    obtain ⟨_, _, stored, cast, changed⟩ := setDepth_eq_ok allowed isDepth
    rw [depth_cons_self isDepth stored, cast] at configured
    cases configured
    exact (changeDepth_eq_ok changed).imp_right fun ⟨eligible, empty⟩ => ⟨eligible positive, empty⟩
  · rw [depth_cons_of_ne isDepth, rest isDepth] at configured
    exact .inl configured

variable {old : ConfigRow Id}

theorem changes_replace (allowed : allows (configUpdateGuard db old new) = true) :
    Changes db (replace db.config old new) := by
  unfold configUpdateGuard at allowed
  split_ifs at allowed with moves
  · cases allowed
  · refine changes_cons allowed fun other => depth_erase_of_ne fun same => other ?_
    -- A depth stays on its repository.
    simp only [not_and, not_or, not_not] at moves
    obtain ⟨key, repository⟩ := moves same.2
    exact ⟨repository ▸ same.1, key ▸ same.2⟩

theorem changes_erase (keys : keyed db = true) (mem : old ∈ db.config) :
    Changes db (db.config.erase old) := by
  intro repo _ configured positive
  by_cases isDepth : old.repositoryId = repo ∧ old.key = depthKey
  · obtain ⟨rfl, isDepth⟩ := isDepth
    rw [depth_erase_self keys mem isDepth] at configured
    cases configured
    cases positive
  · rw [depth_erase_of_ne isDepth] at configured
    exact .inl configured

end Config

/-! ### Writes of artifacts, members and versions -/

theorem mem_replace [DecidableEq α] {rows : List α} {old new row : α}
    (h : row ∈ replace rows old new) : row = new ∨ row ∈ rows :=
  (mem_cons.1 h).imp_right mem_of_mem_erase

theorem Inv.setArtifacts {rows : List (Artifact Id)} (h : Inv collation db)
    (change : ∀ a ∈ rows, a ∈ db.artifacts ∨ allows (artifactGuard collation db a) = true) :
    Inv collation { db with artifacts := rows } := by
  refine ⟨h.keys, fun repo depth configured positive => ?_⟩
  obtain ⟨eligible, placed⟩ := h.ruled repo depth configured positive
  refine ⟨⟨eligible.hosted, eligible.unversioned, eligible.notMember, eligible.uncurated⟩, ?_⟩
  rintro a mem rfl
  rcases change a mem with old | allowed
  · exact placed a old rfl
  · exact artifactGuard_eq_ok allowed configured positive eligible

theorem ne_of_depth_zero (configured : akRpmRepodataDepth db repo = .ok depth)
    (positive : 0 < depth) {other : Id} (zero : akRpmRepodataDepth db other = .ok 0) :
    other ≠ repo := by
  rintro rfl
  cases configured.symm.trans zero
  cases positive

/-- Every row refers to a repository that a row referred to before, or to one without a depth. -/
def Refers (db : Database Id) (column : α → Id) (before after : List α) : Prop :=
  ∀ row ∈ after, (∃ old ∈ before, column old = column row) ∨
    akRpmRepodataDepth db (column row) = .ok 0

section Refers

variable {column : α → Id} {before after : List α} {old new : α}

theorem refers_refl (before : List α) : Refers db column before before := fun row mem =>
  .inl ⟨row, mem, rfl⟩

theorem refers_cons (allowed : allows (dependencyGuard db (column new)) = true) :
    Refers db column before (new :: before) :=
  forall_mem_cons.2 ⟨.inr (dependencyGuard_eq_ok allowed), refers_refl _⟩

theorem refers_replace [DecidableEq α] {listed : Bool} (present : old ∈ before)
    (allowed : (if listed then allows (dependencyGuard db (column new))
      else decide (column old = column new)) = true) :
    Refers db column before (replace before old new) := by
  intro row mem
  rcases mem_replace mem with rfl | inside
  · cases listed with
    | true => exact .inr (dependencyGuard_eq_ok allowed)
    | false => exact .inl ⟨old, present, of_decide_eq_true allowed⟩
  · exact .inl ⟨row, inside, rfl⟩

theorem refers_erase [DecidableEq α] (before : List α) (old : α) :
    Refers db column before (before.erase old) := fun row mem =>
  .inl ⟨row, mem_of_mem_erase mem, rfl⟩

theorem Refers.ne (refers : Refers db column before after)
    (configured : akRpmRepodataDepth db repo = .ok depth) (positive : 0 < depth)
    (none : ∀ old ∈ before, column old ≠ repo) : ∀ row ∈ after, column row ≠ repo := by
  intro row mem
  rcases refers row mem with ⟨old, inside, same⟩ | zero
  · exact same ▸ none old inside
  · exact ne_of_depth_zero configured positive zero

end Refers

theorem Inv.setRows {members : List (VirtualMember Id)} {versions : List (RepositoryVersion Id)}
    (h : Inv collation db) (joined : Refers db VirtualMember.memberRepoId db.members members)
    (numbered : Refers db RepositoryVersion.repositoryId db.versions versions) :
    Inv collation { db with members, versions } := by
  refine ⟨h.keys, fun repo depth configured positive => ?_⟩
  obtain ⟨eligible, placed⟩ := h.ruled repo depth configured positive
  exact ⟨⟨eligible.hosted, numbered.ne configured positive eligible.unversioned,
    joined.ne configured positive eligible.notMember, eligible.uncurated⟩, placed⟩

/-! ### Writes of repositories -/

variable {old : Repository Id}

theorem sameListed_iff {new : Repository Id} (h : old.sameListed new = true) :
    new.isPlain = old.isPlain ∧ ∀ repo, new.curates repo = old.curates repo := by
  simp only [Repository.sameListed, and_eq_true, decide_eq_true_eq] at h
  obtain ⟨⟨⟨⟨⟨⟨format, type⟩, key⟩, enabled⟩, source⟩, target⟩, active⟩ := h
  simp [isPlain, curates, format, type, key, enabled, source, target, active]

/-- Repositories with a depth stay plain, and none of them comes to be curated. -/
structure Keeps (db : Database Id) (rows : List (Repository Id)) : Prop where
  plain : ∀ r ∈ db.repositories, ∀ depth, akRpmRepodataDepth db r.id = .ok depth → 0 < depth →
    ∃ r' ∈ rows, r'.id = r.id ∧ (r.isPlain = true → r'.isPlain = true)
  curates : ∀ r' ∈ rows, ∀ repo, r'.curates repo = true →
    (∃ r ∈ db.repositories, r.curates repo = true) ∨ akRpmRepodataDepth db repo = .ok 0

theorem Inv.setRepositories {rows : List (Repository Id)} (h : Inv collation db)
    (keys : keyed { db with repositories := rows } = true) (keeps : Keeps db rows) :
    Inv collation { db with repositories := rows } := by
  refine ⟨keys, fun repo depth configured positive => ?_⟩
  obtain ⟨⟨⟨r, mem, rfl, isPlain⟩, unversioned, notMember, uncurated⟩, placed⟩ :=
    h.ruled repo depth configured positive
  obtain ⟨r', mem', same, stays⟩ := keeps.plain r mem depth configured positive
  refine ⟨⟨⟨r', mem', same, stays isPlain⟩, unversioned, notMember, fun r'' mem'' => ?_⟩, placed⟩
  by_contra some
  rcases keeps.curates r'' mem'' r.id (eq_true_of_not_eq_false some) with ⟨old, before, links⟩ | zero
  · rw [uncurated old before] at links
    cases links
  · exact ne_of_depth_zero configured positive zero rfl

variable {new : Repository Id}

theorem keeps_cons (allowed : allows (repositoryGuard db new) = true) :
    Keeps db (new :: db.repositories) := by
  refine ⟨fun r mem _ _ _ => ⟨r, .tail _ mem, rfl, id⟩, fun r mem repo curates => ?_⟩
  rcases mem_cons.1 mem with rfl | old
  · exact .inr ((repositoryGuard_eq_ok allowed).1 repo curates)
  · exact .inl ⟨r, old, curates⟩

theorem keeps_replace {listed : Bool} (keys : keyed db = true)
    (keys' : keyed { db with repositories := replace db.repositories old new } = true)
    (mem : old ∈ db.repositories)
    (allowed : (if listed then allows (repositoryGuard db new) else old.sameListed new) = true) :
    Keeps db (replace db.repositories old new) := by
  refine ⟨fun r inside depth configured positive => ?_, fun r inside repo curates => ?_⟩
  · by_cases same : r = old
    · subst same
      -- The configuration still names the repository, so the new row has its identifier.
      obtain ⟨row, configures, names, -⟩ := exists_row_of_depth configured positive
      obtain ⟨r', inside', named⟩ := (nodup_of_keyed keys').2.1 row configures
      have isNew : r' = new := by
        refine (mem_cons.1 inside').resolve_right fun other => ?_
        have distinct := (nodup_of_keyed keys).1
        obtain ⟨differs, before⟩ := (List.Nodup.of_map _ distinct).mem_erase_iff.1 other
        exact differs (inj_on_of_nodup_map distinct before inside (named.trans names))
      have named : new.id = r.id := by rw [← isNew, named, names]
      refine ⟨new, .head _, named, fun plain => ?_⟩
      cases listed with
      | false => exact (sameListed_iff allowed).1.trans plain
      | true =>
        by_contra notPlain
        have zero := (repositoryGuard_eq_ok allowed).2 (eq_false_of_not_eq_true notPlain)
        exact ne_of_depth_zero configured positive zero named
    · exact ⟨r, .tail _ ((mem_erase_of_ne same).2 inside), rfl, id⟩
  · rcases mem_replace inside with rfl | before
    · cases listed with
      | true => exact .inr ((repositoryGuard_eq_ok allowed).1 repo curates)
      | false => exact .inl ⟨old, mem, ((sameListed_iff allowed).2 repo).symm.trans curates⟩
    · exact .inl ⟨r, before, curates⟩

theorem isPlain_unlink {r : Repository Id} (h : r.isPlain = true) (repo : Id) :
    (r.unlink repo).isPlain = true := by
  simp only [isPlain, unlink] at h ⊢
  simp_all

theorem curates_of_unlink {r : Repository Id} {old : Id}
    (h : (r.unlink old).curates repo = true) : r.curates repo = true := by
  simp only [curates, unlink, or_eq_true, decide_eq_true_eq, filter_eq_some_iff] at h ⊢
  exact h.imp And.left And.left

theorem depth_dropRepository (other : repo ≠ old.id) :
    akRpmRepodataDepth (db.dropRepository old) repo = akRpmRepodataDepth db repo := by
  unfold akRpmRepodataDepth Database.dropRepository
  rw [find?_filter]
  congr 2
  funext row
  by_cases named : row.repositoryId = repo
  · simp [named, other]
  · simp [named]

theorem Inv.deleteRepository {db' : Database Id} (h : Inv collation db)
    (deleted : { db.dropRepository old with
      repositories := (db.dropRepository old).repositories.map (·.unlink old.id) } = db')
    (keys : keyed db' = true) : Inv collation db' := by
  subst deleted
  refine ⟨keys, fun repo depth configured positive => ?_⟩
  have configured : akRpmRepodataDepth (db.dropRepository old) repo = .ok depth := configured
  have other : repo ≠ old.id := by
    obtain ⟨_, mem, rfl, -⟩ := exists_row_of_depth configured positive
    exact of_decide_eq_true (mem_filter.1 mem).2
  rw [depth_dropRepository other] at configured
  obtain ⟨⟨⟨r, mem, named, plain⟩, unversioned, notMember, uncurated⟩, placed⟩ :=
    h.ruled repo depth configured positive
  have stays : r ≠ old := fun same => other (named ▸ same ▸ rfl)
  refine ⟨⟨⟨r.unlink old.id, ?_, named, isPlain_unlink plain _⟩, ?_, ?_, ?_⟩, ?_⟩
  · exact mem_map.2 ⟨r, (mem_erase_of_ne stays).2 mem, rfl⟩
  · exact fun v mem => unversioned v (mem_filter.1 mem).1
  · exact fun m mem => notMember m (mem_filter.1 mem).1
  · intro _ mem'
    obtain ⟨before, inside, rfl⟩ := mem_map.1 mem'
    refine eq_false_of_not_eq_true fun links => ?_
    have none := uncurated before (mem_of_mem_erase inside)
    rw [curates_of_unlink links] at none
    cases none
  · exact fun a mem => placed a (mem_filter.1 mem).1

/-! ### Every write -/

theorem Inv.step {db' : Database Id} {write : Write Id} (h : Inv collation db)
    (taken : step collation db write = some db') : Inv collation db' := by
  obtain ⟨taken, keys⟩ := filter_eq_some_iff.1 taken
  cases write with simp only [apply, ite_none_right_eq_some, some.injEq] at taken
  | insertConfig =>
    obtain ⟨allowed, rfl⟩ := taken
    exact h.setConfig keys (changes_cons allowed fun _ => rfl)
  | updateConfig =>
    obtain ⟨⟨-, allowed⟩, rfl⟩ := taken
    exact h.setConfig keys (changes_replace allowed)
  | deleteConfig =>
    obtain ⟨⟨mem, -⟩, rfl⟩ := taken
    exact h.setConfig keys (changes_erase h.keys mem)
  | insertArtifact =>
    obtain ⟨allowed, rfl⟩ := taken
    refine h.setArtifacts fun a mem => ?_
    rcases mem_cons.1 mem with rfl | before
    · exact .inr allowed
    · exact .inl before
  | updateArtifact =>
    obtain ⟨⟨-, allowed⟩, rfl⟩ := taken
    refine h.setArtifacts fun a mem => ?_
    rcases mem_replace mem with rfl | before
    · exact .inr allowed
    · exact .inl before
  | deleteArtifact =>
    subst taken
    exact h.setArtifacts fun a mem => .inl (mem_of_mem_erase mem)
  | insertMember =>
    obtain ⟨allowed, rfl⟩ := taken
    exact h.setRows (refers_cons allowed) (refers_refl _)
  | updateMember =>
    obtain ⟨⟨present, allowed⟩, rfl⟩ := taken
    exact h.setRows (refers_replace present allowed) (refers_refl _)
  | deleteMember old =>
    subst taken
    exact h.setRows (refers_erase _ old) (refers_refl _)
  | insertVersion =>
    obtain ⟨allowed, rfl⟩ := taken
    exact h.setRows (refers_refl _) (refers_cons allowed)
  | updateVersion =>
    obtain ⟨⟨present, allowed⟩, rfl⟩ := taken
    exact h.setRows (refers_refl _) (refers_replace present allowed)
  | deleteVersion old =>
    subst taken
    exact h.setRows (refers_refl _) (refers_erase _ old)
  | insertRepository =>
    obtain ⟨allowed, rfl⟩ := taken
    exact h.setRepositories keys (keeps_cons allowed)
  | updateRepository =>
    obtain ⟨⟨present, allowed⟩, rfl⟩ := taken
    exact h.setRepositories keys (keeps_replace h.keys keys present allowed)
  | deleteRepository =>
    exact h.deleteRepository taken.2 keys

theorem Inv.start (h : Start db) : Inv collation db := by
  refine ⟨h.1, fun repo depth configured positive => ?_⟩
  obtain ⟨row, mem, -, isDepth⟩ := exists_row_of_depth configured positive
  exact absurd isDepth (h.2 row mem)

/-- In every state that writes lead to, a repository with a positive depth is eligible and its
artifacts are where the depth wants them. -/
theorem positive_depth_ruled (collation : Collation) {db : Database Id}
    (reached : Reach (step collation) Start Any db) {repo : Id} {depth : ℕ}
    (configured : akRpmRepodataDepth db repo = .ok depth) (positive : 0 < depth) :
    Ruled collation db repo depth := by
  have inv : Inv collation db :=
    reached.invariant (fun _ start => Inv.start start) fun _ _ _ inv _ taken => inv.step taken
  exact inv.ruled repo depth configured positive

/-- A locale with the ASCII control characters and letters. -/
def posix : Collation := ⟨fun c => c.toNat < 32 || c.toNat = 127, toAsciiLowercase⟩

def packages : Repository ℕ := ⟨0, .rpm, .local, none, false, none, none, none⟩

def depthOne : ConfigRow ℕ := ⟨1, 0, depthKey, some "1"⟩

def package : Artifact ℕ :=
  let checksum := replicate 64 '0'
  ⟨2, 0, "el9/tool-1.0-1.x86_64.rpm", checksum, contentKey checksum⟩

/-- A repository of depth one with a package. -/
theorem positive_depth_ruled_package :
    Ruled posix ⟨[packages], [depthOne], [package], [], []⟩ 0 1 := by
  have start : Reach (step posix) Start Any (⟨[], [], [], [], []⟩ : Database ℕ) :=
    .start ⟨by decide, by simp⟩
  have reached : Reach (step posix) Start Any ⟨[packages], [depthOne], [package], [], []⟩ :=
    ((start.next (e := .insertRepository packages) trivial rfl).next
      (e := .insertConfig depthOne) trivial rfl).next (e := .insertArtifact package) trivial rfl
  exact positive_depth_ruled posix reached rfl (by decide)

end ArtifactKeeper.RpmDepth
