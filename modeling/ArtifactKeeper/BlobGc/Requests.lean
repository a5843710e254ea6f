import ArtifactKeeper.Library.Machine
import ArtifactKeeper.Library.Protocol
import ArtifactKeeper.Storage

/-!
# State of the blob garbage collector

The tables `oci_blobs`, `manifest_blob_refs`, `oci_tags` and `oci_manifest_refs` of all
repositories, and the blob objects of every object store.
-/

namespace ArtifactKeeper.BlobGc

open Machine

abbrev Digest := ℕ
abbrev Manifest := ℕ

/-! ### Configuration -/

def minBlobAgeFloorSecs : ℕ := 60
def minBlobAgeCeilingSecs : ℕ := 7 * 24 * 60 * 60

def clampMinBlobAgeSecs (secs : ℕ) : ℕ := max minBlobAgeFloorSecs (min secs minBlobAgeCeilingSecs)

/-- Where repositories store their objects, and the configured minimum blob age. -/
structure Config where
  location : Repo → StorageLocation
  minBlobAgeSecs : ℕ

namespace Config

variable (cfg : Config)

/-- The grace window of an upload. -/
def minAge : ℤ := seconds (clampMinBlobAgeSecs cfg.minBlobAgeSecs)

def shares (a b : Repo) : Bool := (cfg.location a).sharesWith (cfg.location b)

def root (r : Repo) : StorageLocation := (cfg.location r).root

theorem shares_iff (a b : Repo) : cfg.shares a b ↔ cfg.root b = cfg.root a :=
  StorageLocation.sharesWith_iff _ _

end Config

/-! ### Tables -/

structure BlobRow where
  id : ℕ
  createdAt : ℤ
  pendingDeleteAt : Option ℤ
  deriving DecidableEq

structure BlobRef where
  manifest : Manifest
  blob : Digest
  repo : Repo
  saw : Option ℕ
  deriving DecidableEq

structure TagRow where
  repo : Repo
  name : ℕ
  tag : ℕ
  manifest : Manifest
  deriving DecidableEq

structure ChildRef where
  parent : Manifest
  child : Manifest
  repo : Repo
  deriving DecidableEq

structure Store where
  blobs : Repo → Digest → Option BlobRow
  refs : List BlobRef
  tags : List TagRow
  children : List ChildRef
  objects : StorageLocation → Digest → Bool
  now : ℤ
  nextId : ℕ
  lastCommit : Repo → Digest → Option ℤ

/-- The kind of a manifest, with the digests it names. -/
inductive ManifestClass
  | image (blobs : List Digest)
  | index (children : List Manifest)
  | malformed
  deriving DecidableEq

def ManifestClass.blobDigests : ManifestClass → List Digest
  | image blobs => blobs
  | index _ | malformed => []

def ManifestClass.childDigests : ManifestClass → List Manifest
  | index children => children
  | image _ | malformed => []

structure Push where
  repo : Repo
  name : ℕ
  tag : ℕ
  manifest : Manifest
  cls : ManifestClass
  deriving DecidableEq

/-- Which tags a manifest delete removes. -/
inductive DeleteScope
  | contentAddressed
  | namedReference (tag : ℕ)
  deriving DecidableEq

structure ManifestDelete where
  repo : Repo
  image : ℕ
  digest : Manifest
  scope : DeleteScope
  deriving DecidableEq

/-! ### Queries -/

variable (cfg : Config) (st : Store) (r : Repo) (d : Digest)

def isProtected : Bool :=
  st.refs.any fun ref => ref.blob = d && cfg.shares r ref.repo

/-- Second step of `is_blob_still_orphan`. -/
def stillOrphan (requirePending : Bool) : Bool :=
  match st.blobs r d with
  | some row => (!requirePending || row.pendingDeleteAt.isSome) && !isProtected cfg st r d
  | none => false

def isMarkCandidate : Bool :=
  match st.blobs r d with
  | some row => row.createdAt < st.now - cfg.minAge && !isProtected cfg st r d
  | none => false

def isSweepCandidate (graceSecs : ℕ) : Bool :=
  match st.blobs r d with
  | some row => row.pendingDeleteAt.any (· < st.now - seconds graceSecs) && !isProtected cfg st r d
  | none => false

variable (tags : List TagRow)

def isTagged (r : Repo) (m : Manifest) : Bool :=
  tags.any fun t => t.repo = r && t.manifest = m

def isLiveChild (children : List ChildRef) (r : Repo) (m : Manifest) : Bool :=
  children.any fun c => c.repo = r && c.child = m && isTagged tags r c.parent

/-! ### Effects -/

inductive Effect
  | none
  | tick (elapsed : ℕ)
  | putObject (r : Repo) (d : Digest)
  | deleteObject (r : Repo) (d : Digest)
  | upsertBlob (r : Repo) (d : Digest) (startedAt : ℤ)
  | markBlob (r : Repo) (d : Digest) (startedAt : ℤ)
  | deleteBlob (r : Repo) (d : Digest)
  | persist (p : Push) (seen : List (Digest × ℕ)) (cleared : List Digest)
  | deleteManifest (m : ManifestDelete)
  | pruneRefs
  deriving DecidableEq

def setAt {α : Type} (f : Repo → Digest → α) (r : Repo) (d : Digest) (v : α) : Repo → Digest → α :=
  fun r' d' => if r' = r ∧ d' = d then v else f r' d'

/-- `INSERT INTO oci_blobs … ON CONFLICT DO UPDATE SET pending_delete_at = NULL`; `created_at` is the
start of the transaction. -/
def Store.upsertBlob (startedAt : ℤ) : Store :=
  let row : BlobRow := match st.blobs r d with
    | some row => { row with pendingDeleteAt := none }
    | none => ⟨st.nextId, startedAt, none⟩
  { st with
    blobs := setAt st.blobs r d (some row)
    nextId := st.nextId + 1
    lastCommit := setAt st.lastCommit r d (some st.now) }

def BlobRow.mark (row : BlobRow) (startedAt : ℤ) : BlobRow :=
  { row with pendingDeleteAt := some (row.pendingDeleteAt.getD startedAt) }

def upsertTag (p : Push) : List TagRow :=
  ⟨p.repo, p.name, p.tag, p.manifest⟩ ::
    tags.filter fun t => !(t.repo = p.repo && t.name = p.name && t.tag = p.tag)

/-- The references a push inserts; an existing one is kept. -/
def newRefs (refs : List BlobRef) (p : Push) (seen : List (Digest × ℕ)) : List BlobRef :=
  (p.cls.blobDigests.filter fun d =>
      !refs.any fun ref => ref.manifest = p.manifest && ref.blob = d && ref.repo = p.repo).map
    fun d => ⟨p.manifest, d, p.repo, seen.lookup d⟩

variable (p : Push)

def Store.persist (seen : List (Digest × ℕ)) (cleared : List Digest) : Store :=
  { st with
    tags := upsertTag st.tags p
    children := (p.cls.childDigests.map fun c => ⟨p.manifest, c, p.repo⟩) ++ st.children
    blobs := fun r d =>
      if r = p.repo ∧ d ∈ cleared then
        (st.blobs r d).map fun row => { row with pendingDeleteAt := none }
      else st.blobs r d
    refs := newRefs st.refs p seen ++ st.refs }

def ManifestDelete.removesTag (m : ManifestDelete) (t : TagRow) : Bool :=
  t.repo = m.repo && t.name = m.image &&
    match m.scope with
    | .contentAddressed => t.manifest = m.digest
    | .namedReference tag => t.tag = tag

def Store.deleteManifest (m : ManifestDelete) : Store :=
  let tags := st.tags.filter fun t => !m.removesTag t
  if isTagged tags m.repo m.digest then { st with tags := tags }
  else
    let children := st.children.filter fun c =>
      !(c.repo = m.repo && (c.parent = m.digest ||
        (c.child = m.digest && !isTagged tags m.repo c.parent)))
    { st with
      tags := tags
      children := children
      refs := st.refs.filter fun ref => !(ref.repo = m.repo && ref.manifest = m.digest &&
        !isLiveChild tags children m.repo m.digest) }

def Store.pruneRefs : Store :=
  { st with
    refs := st.refs.filter fun ref =>
      isTagged st.tags ref.repo ref.manifest || isLiveChild st.tags st.children ref.repo ref.manifest }

def Effect.apply : Effect → Store → Store
  | .none, st => st
  | .tick elapsed, st => { st with now := st.now + elapsed }
  | .putObject r d, st =>
    { st with objects := fun loc d' => if loc = cfg.root r ∧ d' = d then true else st.objects loc d' }
  | .deleteObject r d, st =>
    { st with objects := fun loc d' => if loc = cfg.root r ∧ d' = d then false else st.objects loc d' }
  | .upsertBlob r d startedAt, st => st.upsertBlob r d startedAt
  | .markBlob r d startedAt, st =>
    { st with blobs := setAt st.blobs r d ((st.blobs r d).map (·.mark startedAt)) }
  | .deleteBlob r d, st => { st with blobs := setAt st.blobs r d Option.none }
  | .persist p seen cleared, st => st.persist p seen cleared
  | .deleteManifest m, st => st.deleteManifest m
  | .pruneRefs, st => st.pruneRefs

open Effect (apply)

/-! ### Uploads, pushes and the blob collector -/

inductive Phase
  | mark
  | sweep
  deriving DecidableEq

inductive Lock
  | blob (r : Repo) (d : Digest)
  | tag (r : Repo) (name tag : ℕ)
  deriving DecidableEq

inductive Request
  | idle
  | stored (r : Repo) (d : Digest)
  | began (r : Repo) (d : Digest) (startedAt : ℤ)
  | tagged (p : Push)
  /-- The push is locking the blob rows of its statement's snapshot. -/
  | locking (p : Push) (todo seen : List (Digest × ℕ))
  /-- The push has locked `seen` and also cleared the marks of `cleared`. -/
  | ready (p : Push) (seen : List (Digest × ℕ)) (cleared : List Digest)
  /-- A candidate of the pass. -/
  | picked (phase : Phase) (r : Repo) (d : Digest)
  | locked (phase : Phase) (r : Repo) (d : Digest) (startedAt : ℤ)
  | confirmed (phase : Phase) (r : Repo) (d : Digest) (startedAt : ℤ)
  | emptied (r : Repo) (d : Digest)
  | finished
  deriving DecidableEq

def Push.tagLock : Lock := .tag p.repo p.name p.tag

def Push.blobLocks (digests : List Digest) : List Lock := digests.map (.blob p.repo)

def Request.holds : Request → List Lock
  | .tagged p => [p.tagLock]
  | .locking p _ seen => p.tagLock :: p.blobLocks (seen.map Prod.fst)
  | .ready p seen cleared => p.tagLock :: p.blobLocks (seen.map Prod.fst ++ cleared)
  | .locked _ r d _ | .confirmed _ r d _ | .emptied r d => [.blob r d]
  | _ => []

inductive Action
  | tick (elapsed : ℕ)
  | drop
  | putBlob (r : Repo) (d : Digest)
  | beginBlob
  | commitBlob
  | beginPush (p : Push)
  | scanBlobs
  | lockBlob
  | clearMarks
  | commitPush
  | deleteManifest (m : ManifestDelete)
  | pruneRefs
  | pickOrphan (r : Repo) (d : Digest)
  | pickMarked (r : Repo) (d : Digest) (graceSecs : ℕ)
  | lockCandidate
  | recheck
  | stamp
  | deleteObject
  | deleteObjectFailed (landed : Bool)
  | deleteRow
  | deleteRowFailed (landed : Bool)
  deriving DecidableEq

abbrev Statement := Outcome Request Lock Effect

def snapshot : List (Digest × ℕ) :=
  p.cls.blobDigests.filterMap fun d => (st.blobs p.repo d).map fun row => (d, row.id)

/-- Lock the next row of the snapshot, or skip it if it was deleted meanwhile. -/
def lockBlob : List (Digest × ℕ) → List (Digest × ℕ) → Option Statement
  | (d, id) :: todo, seen =>
    match st.blobs p.repo d with
    | some row =>
      if row.id = id then some ⟨[], .none, .locking p todo ((d, id) :: seen)⟩
      else some ⟨[], .none, .locking p todo seen⟩
    | none => some ⟨[], .none, .locking p todo seen⟩
  | [], _ => none

/-- The marked blob rows of the push: those its `UPDATE` clears and locks. -/
def markedBlobs : List Digest :=
  p.cls.blobDigests.filter fun d => (st.blobs p.repo d).any (·.pendingDeleteAt.isSome)

/-- Step 1 of `is_blob_still_orphan`: a missing row locks nothing and fails the re-check. -/
def lockCandidate (phase : Phase) (r : Repo) (d : Digest) : Request :=
  if (st.blobs r d).isSome then .locked phase r d st.now else .finished

def recheck (phase : Phase) (r : Repo) (d : Digest) (startedAt : ℤ) : Request :=
  if stillOrphan cfg st r d (phase = .sweep) then .confirmed phase r d startedAt else .finished

def code (q : Request) (a : Action) : Option Statement :=
  match a, q with
  | .tick elapsed, q => some ⟨[], .tick elapsed, q⟩
  | .drop, _ => some ⟨[], .none, .finished⟩
  | .putBlob r d, .idle => some ⟨[], .putObject r d, .stored r d⟩
  | .beginBlob, .stored r d => some ⟨[], .none, .began r d st.now⟩
  | .commitBlob, .began r d t => some ⟨[.blob r d], .upsertBlob r d t, .finished⟩
  | .beginPush p, .idle => some ⟨[], .none, .tagged p⟩
  | .scanBlobs, .tagged p => some ⟨[], .none, .locking p (snapshot st p) []⟩
  | .lockBlob, .locking p todo seen => lockBlob st p todo seen
  | .clearMarks, .locking p [] seen => some ⟨[], .none, .ready p seen (markedBlobs st p)⟩
  | .commitPush, .ready p seen cleared => some ⟨[], .persist p seen cleared, .finished⟩
  | .deleteManifest m, .idle =>
    some ⟨(st.tags.filter m.removesTag).map fun t => .tag t.repo t.name t.tag, .deleteManifest m,
      .finished⟩
  | .pruneRefs, .idle => some ⟨[], .pruneRefs, .finished⟩
  | .pickOrphan r d, .idle =>
    if isMarkCandidate cfg st r d then some ⟨[], .none, .picked .mark r d⟩ else none
  | .pickMarked r d graceSecs, .idle =>
    if isSweepCandidate cfg st r d graceSecs then some ⟨[], .none, .picked .sweep r d⟩ else none
  | .lockCandidate, .picked phase r d => some ⟨[], .none, lockCandidate st phase r d⟩
  | .recheck, .locked phase r d t => some ⟨[], .none, recheck cfg st phase r d t⟩
  | .stamp, .confirmed .mark r d t => some ⟨[], .markBlob r d t, .finished⟩
  | .deleteObject, .confirmed .sweep r d _ => some ⟨[], .deleteObject r d, .emptied r d⟩
  | .deleteObjectFailed landed, .confirmed .sweep r d _ =>
    some ⟨[], if landed then .deleteObject r d else .none, .finished⟩
  | .deleteRow, .emptied r d => some ⟨[], .deleteBlob r d, .finished⟩
  | .deleteRowFailed landed, .emptied r d =>
    some ⟨[], if landed then .deleteBlob r d else .none, .finished⟩
  | _, _ => none

def service : Protocol Store Request Lock Action Effect where
  holds := Request.holds
  apply := apply cfg
  code := code cfg

def Quiescent (w : World Store Request Lock) : Prop := w.pool = .idle .idle

/-! ### What a step of the collector and its clients can do -/

open List Option

variable (q : Request) (o : Statement) (w : Effect)

/-- The phase behind a write. -/
def Warranted : Effect → Prop
  | .none | .tick _ | .putObject _ _ | .deleteManifest _ | .pruneRefs => True
  | .deleteObject r d => ∃ t, q = .confirmed .sweep r d t
  | .upsertBlob r d t => q = .began r d t
  | .markBlob r d t => q = .confirmed .mark r d t
  | .deleteBlob r d => q = .emptied r d
  | .persist p seen cleared => q = .ready p seen cleared

/-- A push that has just locked a row found it in place. -/
def Locks (p : Push) (todo seen : List (Digest × ℕ)) (q : Request) : Prop :=
  ∃ d id rest row, seen = (d, id) :: rest ∧ q = .locking p ((d, id) :: todo) rest ∧
    st.blobs p.repo d = some row ∧ row.id = id

/-- What has just been established when a request arrives at a phase by the write `w`. -/
def Arrival : Request → Prop
  | .locking p todo seen => w = .none ∧
      (seen = [] ∨ (∃ todo', q = .locking p todo' seen) ∨ Locks st p todo seen q)
  | .ready p seen _ => w = .none ∧ q = .locking p [] seen
  | .confirmed phase r d t => w = .none ∧ q = .locked phase r d t ∧
      stillOrphan cfg st r d (phase = .sweep)
  | .emptied r d => w = .deleteObject r d ∧ ∃ t, q = .confirmed .sweep r d t
  | _ => True

/-- Everything a statement of a request at `q` can do. -/
structure Sound : Prop where
  warranted : Warranted q o.effect
  arrival : (o.next = q ∧ ∃ elapsed, o.effect = .tick elapsed) ∨ Arrival cfg st q o.effect o.next
  frame : ∀ r d, .blob r d ∉ o.touches → .blob r d ∉ q.holds →
    (o.effect.apply cfg st).blobs r d = st.blobs r d

variable {cfg st q o w r d} {a : Action} {seen : List (Digest × ℕ)} {next : Request} {ref : BlobRef}

theorem setAt_of_ne {α : Type} {f : Repo → Digest → α} {r' : Repo} {d' : Digest} {v : α}
    (ne : ¬(r' = r ∧ d' = d)) : setAt f r d v r' d' = f r' d' := if_neg ne

@[simp] theorem setAt_self {α : Type} (f : Repo → Digest → α) (r : Repo) (d : Digest) (v : α) :
    setAt f r d v r d = v := if_pos ⟨rfl, rfl⟩

theorem deleteManifest_blobs (m : ManifestDelete) : (st.deleteManifest m).blobs = st.blobs := by
  unfold Store.deleteManifest
  dsimp only
  split_ifs <;> rfl

theorem persist_blobs_of_notMem {p : Push} {cleared : List Digest}
    (notMem : ¬(r = p.repo ∧ d ∈ cleared)) :
    (st.persist p seen cleared).blobs r d = st.blobs r d := if_neg notMem

theorem sound_read {touches : List Lock} (arrival : Arrival cfg st q .none next) :
    Sound cfg st q ⟨touches, .none, next⟩ :=
  ⟨trivial, .inr arrival, fun _ _ _ _ => rfl⟩

theorem commitBlob_sound (r : Repo) (d : Digest) (t : ℤ) :
    Sound cfg st (.began r d t) ⟨[.blob r d], .upsertBlob r d t, .finished⟩ := by
  refine ⟨rfl, .inr trivial, fun r' d' untouched _ => setAt_of_ne fun same => untouched ?_⟩
  rw [same.1, same.2]
  exact mem_singleton_self _

theorem lockBlob_sound {p : Push} {todo : List (Digest × ℕ)}
    (h : lockBlob st p todo seen = some o) : Sound cfg st (.locking p todo seen) o := by
  unfold lockBlob at h
  split at h
  · split at h
    · next row found =>
      split_ifs at h with same <;> cases h
      · exact sound_read ⟨rfl, .inr (.inr ⟨_, _, _, row, rfl, rfl, found, same⟩)⟩
      · exact sound_read ⟨rfl, .inr (.inl ⟨_, rfl⟩)⟩
    · cases h
      exact sound_read ⟨rfl, .inr (.inl ⟨_, rfl⟩)⟩
  · cases h

theorem commitPush_sound (p : Push) (seen : List (Digest × ℕ)) (cleared : List Digest) :
    Sound cfg st (.ready p seen cleared) ⟨[], .persist p seen cleared, .finished⟩ := by
  refine ⟨rfl, .inr trivial, fun r d _ unlocked => persist_blobs_of_notMem fun ⟨same, mem⟩ =>
    unlocked ?_⟩
  rw [same]
  simp only [Request.holds, Push.blobLocks, mem_cons, List.mem_map, mem_append]
  exact .inr ⟨d, .inr mem, rfl⟩

theorem lockCandidate_sound (phase : Phase) (r : Repo) (d : Digest) :
    Sound cfg st q ⟨[], .none, lockCandidate st phase r d⟩ := by
  apply sound_read
  unfold lockCandidate
  split_ifs <;> trivial

theorem recheck_sound (phase : Phase) (r : Repo) (d : Digest) (t : ℤ) :
    Sound cfg st (.locked phase r d t) ⟨[], .none, recheck cfg st phase r d t⟩ := by
  apply sound_read
  unfold recheck
  split_ifs with orphan
  · exact ⟨rfl, rfl, orphan⟩
  · trivial

theorem frame_of_locked {v : Option BlobRow} {r' : Repo} {d' : Digest}
    (holds : q.holds = [.blob r d]) (unlocked : .blob r' d' ∉ q.holds) :
    setAt st.blobs r d v r' d' = st.blobs r' d' := by
  refine setAt_of_ne fun same => unlocked ?_
  rw [holds, same.1, same.2]
  exact mem_singleton_self _

theorem stamp_sound (r : Repo) (d : Digest) (t : ℤ) :
    Sound cfg st (.confirmed .mark r d t) ⟨[], .markBlob r d t, .finished⟩ :=
  ⟨rfl, .inr trivial, fun _ _ _ unlocked => frame_of_locked rfl unlocked⟩

theorem deleteRow_sound (r : Repo) (d : Digest) :
    Sound cfg st (.emptied r d) ⟨[], .deleteBlob r d, .finished⟩ :=
  ⟨rfl, .inr trivial, fun _ _ _ unlocked => frame_of_locked rfl unlocked⟩

theorem deleteObject_sound (r : Repo) (d : Digest) (t : ℤ)
    (arrival : Arrival cfg st (.confirmed .sweep r d t) (.deleteObject r d) next) :
    Sound cfg st (.confirmed .sweep r d t) ⟨[], .deleteObject r d, next⟩ :=
  ⟨⟨t, rfl⟩, .inr arrival, fun _ _ _ _ => rfl⟩

theorem sound_landed {landed : Bool} (yes : Sound cfg st q ⟨[], w, next⟩)
    (no : Sound cfg st q ⟨[], .none, next⟩) :
    Sound cfg st q ⟨[], if landed then w else .none, next⟩ := by
  cases landed
  · exact no
  · exact yes

theorem code_sound (h : code cfg st q a = some o) : Sound cfg st q o := by
  revert h
  fun_cases code cfg st q a <;> intro h
  all_goals first
    | exact lockBlob_sound h
    | cases h
  all_goals first
    | exact sound_read trivial
    | exact ⟨trivial, .inl ⟨rfl, _, rfl⟩, fun _ _ _ _ => rfl⟩
    | exact ⟨trivial, .inr trivial, fun _ _ _ _ => rfl⟩
    | exact commitBlob_sound _ _ _
    | exact sound_read ⟨rfl, .inl rfl⟩
    | exact sound_read ⟨rfl, rfl⟩
    | exact commitPush_sound _ _ _
    | exact ⟨trivial, .inr trivial, fun _ _ _ _ => by
        rw [apply, deleteManifest_blobs]⟩
    | exact lockCandidate_sound _ _ _
    | exact recheck_sound _ _ _ _
    | exact stamp_sound _ _ _
    | exact deleteRow_sound _ _
    | exact deleteObject_sound _ _ _ ⟨rfl, _, rfl⟩
    | exact sound_landed (deleteRow_sound _ _) (sound_read trivial)
    | exact sound_landed (deleteObject_sound _ _ _ trivial) (sound_read trivial)

/-! ### Orphans -/

/-- The blob of `s` is referenced by a manifest of `s`. -/
def Referenced (st : Store) (s : Repo) (d : Digest) : Prop :=
  ∃ ref ∈ st.refs, ref.repo = s ∧ ref.blob = d

theorem unreferenced_of_orphan {s : Repo} {pending : Bool}
    (orphan : stillOrphan cfg st r d pending) (same : cfg.root s = cfg.root r) :
    ¬Referenced st s d := by
  rintro ⟨ref, mem, rfl, rfl⟩
  have guarded : isProtected cfg st r ref.blob := by
    simp only [isProtected, List.any_eq_true, Bool.and_eq_true, decide_eq_true_eq]
    exact ⟨ref, mem, rfl, (cfg.shares_iff r ref.repo).2 same⟩
  unfold stillOrphan at orphan
  split at orphan
  · simp [guarded] at orphan
  · cases orphan

/-! ### What a write changes -/

theorem blobs_of_apply (w : Effect) (st : Store) (r : Repo) (d : Digest) :
    (w.apply cfg st).blobs r d = st.blobs r d ∨ w = .deleteBlob r d ∨
      (∃ t, w = .upsertBlob r d t ∧ st.blobs r d = none) ∨
      ∃ f, (w.apply cfg st).blobs r d = (st.blobs r d).map f ∧
        ∀ row, (f row).id = row.id ∧ (f row).createdAt = row.createdAt ∧
          ((f row).pendingDeleteAt.isSome → ∃ t, w = .markBlob r d t) := by
  cases w with
  | upsertBlob r₀ d₀ t =>
    by_cases same : r = r₀ ∧ d = d₀
    · obtain ⟨rfl, rfl⟩ := same
      cases found : st.blobs r d with
      | none => exact .inr (.inr (.inl ⟨t, rfl, rfl⟩))
      | some row =>
        refine .inr (.inr (.inr ⟨fun row => { row with pendingDeleteAt := none }, ?_, ?_⟩))
        · simp [apply, Store.upsertBlob, found]
        · exact fun _ => ⟨rfl, rfl, nofun⟩
    · exact .inl (setAt_of_ne same)
  | markBlob r₀ d₀ t =>
    by_cases same : r = r₀ ∧ d = d₀
    · obtain ⟨rfl, rfl⟩ := same
      exact .inr (.inr (.inr ⟨_, setAt_self .., fun _ => ⟨rfl, rfl, fun _ => ⟨t, rfl⟩⟩⟩))
    · exact .inl (setAt_of_ne same)
  | deleteBlob r₀ d₀ =>
    by_cases same : r = r₀ ∧ d = d₀
    · obtain ⟨rfl, rfl⟩ := same
      exact .inr (.inl rfl)
    · exact .inl (setAt_of_ne same)
  | persist p _ cleared =>
    by_cases mem : r = p.repo ∧ d ∈ cleared
    · exact .inr (.inr (.inr ⟨_, if_pos mem, fun _ => ⟨rfl, rfl, nofun⟩⟩))
    · exact .inl (persist_blobs_of_notMem mem)
  | deleteManifest => exact .inl (by rw [apply, deleteManifest_blobs])
  | _ => exact .inl rfl

/-- Where a blob row comes from: it was there before, with its age, or an upload has just inserted
it. -/
theorem apply_blobs {row' : BlobRow} (h : (w.apply cfg st).blobs r d = some row') :
    (∃ row, st.blobs r d = some row ∧ row'.id = row.id ∧ row'.createdAt = row.createdAt ∧
      (row'.pendingDeleteAt.isSome → row.pendingDeleteAt.isSome ∨ ∃ t, w = .markBlob r d t)) ∨
    ∃ t, w = .upsertBlob r d t ∧ st.blobs r d = none ∧ row' = ⟨st.nextId, t, none⟩ := by
  rcases blobs_of_apply w st r d with same | rfl | ⟨t, rfl, free⟩ | ⟨f, same, keeps⟩
  · exact .inl ⟨row', same.symm.trans h, rfl, rfl, .inl⟩
  · simp [apply] at h
  · simp only [apply, Store.upsertBlob, setAt_self, free, Option.some.injEq] at h
    exact .inr ⟨t, rfl, free, h.symm⟩
  · rw [same] at h
    obtain ⟨row, found, rfl⟩ := map_eq_some_iff.1 h
    obtain ⟨id, created, marks⟩ := keeps row
    exact .inl ⟨row, found, id, created, fun marked => .inr (marks marked)⟩

theorem removes_blob (before : (st.blobs r d).isSome)
    (after : (w.apply cfg st).blobs r d = none) : w = .deleteBlob r d := by
  rcases blobs_of_apply w st r d with same | rfl | ⟨_, rfl, -⟩ | ⟨f, same, -⟩
  · rw [← same, after] at before
    cases before
  · rfl
  · simp [apply, Store.upsertBlob] at after
  · rw [same, map_eq_none_iff] at after
    rw [after] at before
    cases before

theorem deleteManifest_objects (m : ManifestDelete) :
    (st.deleteManifest m).objects = st.objects := by
  unfold Store.deleteManifest
  dsimp only
  split_ifs <;> rfl

theorem removes_object {loc : StorageLocation} (before : st.objects loc d = true)
    (after : (w.apply cfg st).objects loc d = false) :
    ∃ r, w = .deleteObject r d ∧ cfg.root r = loc := by
  have gone (found : st.objects loc d = false) : ∃ r, w = .deleteObject r d ∧ cfg.root r = loc := by
    rw [found] at before; cases before
  cases w with
  | putObject =>
    simp only [apply] at after
    split_ifs at after
    exact gone after
  | deleteObject r =>
    simp only [apply] at after
    split_ifs at after with same
    · exact ⟨r, by rw [same.2], same.1.symm⟩
    · exact gone after
  | deleteManifest =>
    rw [apply, deleteManifest_objects] at after
    exact gone after
  | _ => exact gone after

theorem deleteManifest_refs {m : ManifestDelete} (mem : ref ∈ (st.deleteManifest m).refs) :
    ref ∈ st.refs := by
  unfold Store.deleteManifest at mem
  dsimp only at mem
  split_ifs at mem
  · exact mem
  · exact mem_of_mem_filter mem

/-- References come from pushes only. -/
theorem apply_refs (mem : ref ∈ (w.apply cfg st).refs) :
    ref ∈ st.refs ∨ ∃ p seen cleared, w = .persist p seen cleared ∧ ref ∈ newRefs st.refs p seen := by
  cases w with
  | persist p seen cleared =>
    rcases mem_append.1 mem with new | old
    · exact .inr ⟨p, seen, cleared, rfl, new⟩
    · exact .inl old
  | deleteManifest => exact .inl (deleteManifest_refs mem)
  | pruneRefs => exact .inl (mem_of_mem_filter mem)
  | _ => exact .inl mem

theorem mem_newRefs {refs : List BlobRef} {p : Push} (mem : ref ∈ newRefs refs p seen) :
    ref.repo = p.repo ∧ ref.blob ∈ p.cls.blobDigests ∧ ref.saw = seen.lookup ref.blob := by
  obtain ⟨d, found, rfl⟩ := List.mem_map.1 mem
  exact ⟨rfl, mem_of_mem_filter found, rfl⟩

theorem deleteManifest_now (m : ManifestDelete) : (st.deleteManifest m).now = st.now := by
  unfold Store.deleteManifest
  dsimp only
  split_ifs <;> rfl

theorem apply_now : st.now ≤ (w.apply cfg st).now := by
  cases w with
  | tick => simp only [apply]; omega
  | deleteManifest m => exact Int.le_of_eq (deleteManifest_now m).symm
  | _ => exact Int.le_refl _

end ArtifactKeeper.BlobGc
