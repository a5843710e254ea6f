import ArtifactKeeper.Library.Machine
import ArtifactKeeper.Library.Protocol
import ArtifactKeeper.Library.Rows
import ArtifactKeeper.Storage

/-!
# State of the upload cleanup journal

The table `oci_upload_cleanup_keys` with the `oci_blobs` rows and objects it guards, for
repositories that share one object namespace.
-/

namespace ArtifactKeeper.Journal

open Machine Rows

abbrev StorageKey := ℕ

/-! ### Tables -/

structure JournalRow where
  id : ℕ
  repositoryId : Repo
  storageKey : StorageKey
  uploadSessionId : Option ℕ
  createdAt : ℤ
  lastRegisteredAt : ℤ
  storageWriteCompletedAt : Option ℤ
  claimToken : Option ℕ
  claimExpiresAt : Option ℤ
  pendingDeleteAt : Option ℤ
  deriving DecidableEq

structure BlobRow where
  repositoryId : Repo
  storageKey : StorageKey
  stamp : ℕ
  deriving DecidableEq

structure Store where
  journal : List JournalRow
  blobs : List BlobRow
  repositories : Repo → Bool
  sessions : ℕ → Bool
  objects : StorageKey → Bool
  deletes : StorageKey → ℕ
  now : ℤ
  nextId : ℕ
  nextToken : ℕ

def abandonedUploadTtl : ℤ := seconds (24 * 60 * 60)

def claimTtl : ℤ := seconds (15 * 60)

namespace JournalRow

variable (row : JournalRow)

/-- The unique key of the table. -/
def slot : Repo × StorageKey := (row.repositoryId, row.storageKey)

variable (now : ℤ)

/-- Tombstoned under a live claim, as the commit guard reads it. -/
def doomed : Bool :=
  row.pendingDeleteAt.isSome && row.claimExpiresAt.all (now < ·)

/-- Tombstoned under a live claim, as registration reads it. -/
def reclaiming : Bool :=
  row.pendingDeleteAt.isSome && row.claimExpiresAt.any (now < ·)

/-- A fresh, un-tombstoned row: the sibling of a live push. -/
def fresh : Bool :=
  row.pendingDeleteAt.isNone &&
    now - abandonedUploadTtl ≤
      max row.lastRegisteredAt (row.storageWriteCompletedAt.getD row.createdAt)

end JournalRow

/-! ### Queries -/

inductive CleanupSweepKind
  | unreferenced
  | pending
  deriving DecidableEq

variable (st : Store)

/-- The half of the liveness predicate that differs between the sweeps. -/
def CleanupSweepKind.livenessHead (row : JournalRow) : CleanupSweepKind → Bool
  | unreferenced => row.storageWriteCompletedAt.isSome
  | pending => row.storageWriteCompletedAt.isNone && !row.uploadSessionId.any st.sessions

/-- The age predicate of a claim. -/
def CleanupSweepKind.aged (row : JournalRow) : CleanupSweepKind → Bool
  | unreferenced => row.storageWriteCompletedAt.any (· < st.now - abandonedUploadTtl)
  | pending => row.createdAt < st.now - abandonedUploadTtl

/-- Some `oci_blobs` row references the key. -/
def isReferenced (key : StorageKey) : Bool := st.blobs.any (·.storageKey = key)

/-- `CLEANUP_KEY_SHARED_LIVENESS_SQL`. -/
def sharedLiveness (row : JournalRow) : Bool :=
  !isReferenced st row.storageKey &&
    !st.journal.any fun sibling =>
      sibling.storageKey = row.storageKey && sibling.id ≠ row.id && sibling.fresh st.now

variable (kind : CleanupSweepKind)

/-- The candidates of `claim_oci_upload_cleanup_keys`. -/
def isClaimable (row : JournalRow) : Bool :=
  kind.livenessHead st row && kind.aged st row && row.claimExpiresAt.all (· ≤ st.now) &&
    !isReferenced st row.storageKey && st.repositories row.repositoryId

/-- The condition of the tombstoning `UPDATE`. -/
def isTombstonable (token : ℕ) (row : JournalRow) : Bool :=
  row.claimToken = some token && kind.livenessHead st row && sharedLiveness st row

/-- The condition of the reaping `DELETE`. -/
def isReapable (token : ℕ) (row : JournalRow) : Bool :=
  row.claimToken = some token && row.pendingDeleteAt.isSome && kind.livenessHead st row &&
    !isReferenced st row.storageKey

variable (r : Repo)

/-- Another repository's row for the key is tombstoned under a live claim. -/
def isReclaimed (key : StorageKey) : Bool :=
  st.journal.any fun row =>
    row.storageKey = key && row.repositoryId ≠ r && row.reclaiming st.now

variable (id : ℕ)

def Store.find : Option JournalRow := lookup JournalRow.id id st.journal

/-- The id `register_oci_upload_cleanup_key` returns. -/
def registeredId (key : StorageKey) : ℕ :=
  ((lookup JournalRow.slot (r, key) st.journal).map JournalRow.id).getD st.nextId

inductive CleanupJournalClaim
  | cleared
  | doomed
  deriving DecidableEq

def claimForBlobCommit (r : Repo) (key : StorageKey) : CleanupJournalClaim :=
  if st.journal.any fun row => row.storageKey = key && row.id ≠ id && row.doomed st.now then .doomed
  else
    match st.find id with
    | some row => if row.doomed st.now then .doomed else .cleared
    | none =>
      if st.blobs.any fun b => b.storageKey = key && b.repositoryId = r then .cleared
      else if st.repositories r then .doomed else .cleared

/-! ### Effects -/

inductive Effect
  | none
  | tick (elapsed : ℕ)
  | putObject (key : StorageKey)
  | deleteObject (key : StorageKey)
  | register (r : Repo) (key : StorageKey) (session : Option ℕ)
  | commitBlob (r : Repo) (key : StorageKey) (id stamp : ℕ)
  | claim (id : ℕ)
  | tombstone (id : ℕ)
  | reap (id : ℕ)
  | release (id : ℕ)
  | setSession (session : ℕ) (alive : Bool)
  | deleteRepository (r : Repo)
  deriving DecidableEq

/-- `INSERT … ON CONFLICT (repository_id, storage_key) DO UPDATE SET last_registered_at = NOW()`. -/
def Store.register (key : StorageKey) (session : Option ℕ) : Store :=
  { st with
    journal :=
      match lookup JournalRow.slot (r, key) st.journal with
      | some _ =>
        update JournalRow.slot (r, key) (fun row => { row with lastRegisteredAt := st.now })
          st.journal
      | none => ⟨st.nextId, r, key, session, st.now, st.now, none, none, none, none⟩ :: st.journal
    nextId := st.nextId + 1 }

/-- The journal row goes and the blob row appears in one transaction; an existing blob row stays. -/
def Store.commitBlob (key : StorageKey) (id stamp : ℕ) : Store :=
  { st with
    journal := st.journal.filter (·.id ≠ id)
    blobs :=
      if st.blobs.any fun b => b.storageKey = key && b.repositoryId = r then st.blobs
      else ⟨r, key, stamp⟩ :: st.blobs }

/-- An `UPDATE` of the journal row with the given id. -/
def Store.updateRow (f : JournalRow → JournalRow) : Store :=
  { st with journal := update JournalRow.id id f st.journal }

def Effect.apply : Effect → Store → Store
  | .none, st => st
  | .tick elapsed, st => { st with now := st.now + elapsed }
  | .putObject key, st => { st with objects := fun k => if k = key then true else st.objects k }
  | .deleteObject key, st =>
    { st with
      objects := fun k => if k = key then false else st.objects k
      deletes := fun k => if k = key then st.deletes k + 1 else st.deletes k }
  | .register r key session, st => st.register r key session
  | .commitBlob r key id stamp, st => st.commitBlob r key id stamp
  | .claim id, st =>
    { st.updateRow id fun row =>
        { row with claimToken := some st.nextToken, claimExpiresAt := some (st.now + claimTtl) } with
      nextToken := st.nextToken + 1 }
  | .tombstone id, st =>
    st.updateRow id fun row =>
      { row with claimExpiresAt := some (st.now + claimTtl), pendingDeleteAt := some st.now }
  | .reap id, st => { st with journal := st.journal.filter (·.id ≠ id) }
  | .release id, st => st.updateRow id fun row => { row with claimExpiresAt := some st.now }
  | .setSession session alive, st =>
    { st with sessions := fun s => if s = session then alive else st.sessions s }
  | .deleteRepository r, st =>
    { st with
      repositories := fun s => if s = r then false else st.repositories s
      journal := st.journal.filter (·.repositoryId ≠ r)
      blobs := st.blobs.filter (·.repositoryId ≠ r) }

/-! ### Pushes and cleanup sweeps -/

structure Push where
  repo : Repo
  key : StorageKey
  journalId : ℕ
  registeredAt : ℤ
  deriving DecidableEq

structure Claim where
  kind : CleanupSweepKind
  repo : Repo
  key : StorageKey
  id : ℕ
  token : ℕ
  deriving DecidableEq

inductive Request
  | idle
  | registered (p : Push)
  /-- The push has written the object when `stamp` deletes had happened. -/
  | written (p : Push) (stamp : ℕ)
  | claimed (c : Claim)
  /-- The tombstone is committed under a claim that expires at `expires`. -/
  | tombstoned (c : Claim) (expires : ℤ)
  /-- The object is deleted. -/
  | emptied (c : Claim)
  | failed (c : Claim)
  | finished
  deriving DecidableEq

inductive Action
  | tick (elapsed : ℕ)
  | drop
  | setSession (session : ℕ) (alive : Bool)
  | deleteRepository (r : Repo)
  | register (r : Repo) (key : StorageKey) (session : Option ℕ)
  | putObject
  | commitBlob
  | claim (kind : CleanupSweepKind) (id : ℕ)
  | resolveFailed
  | tombstone
  | tombstoneUnacknowledged
  | deleteObject
  | deleteObjectFailed (landed : Bool)
  | reap
  | release
  deriving DecidableEq

/-- Every transaction is one step, so no lock outlives a step. -/
abbrev Lock := Empty

abbrev Statement := Outcome Request Lock Effect

def register (key : StorageKey) (session : Option ℕ) : Statement :=
  if st.repositories r && !isReclaimed st r key then
    ⟨[], .register r key session, .registered ⟨r, key, registeredId st r key, st.now⟩⟩
  else ⟨[], .none, .finished⟩

/-- The transaction of the commit guard and the insert, which fails without its repository. -/
def commitBlob (p : Push) (stamp : ℕ) : Statement :=
  match claimForBlobCommit st p.journalId p.repo p.key with
  | .doomed => ⟨[], .none, .finished⟩
  | .cleared =>
    if st.repositories p.repo then
      ⟨[], .commitBlob p.repo p.key p.journalId stamp, .finished⟩
    else ⟨[], .none, .finished⟩

/-- One row of `claim_oci_upload_cleanup_keys`. -/
def claim : Option Statement :=
  match st.find id with
  | some row =>
    if isClaimable st kind row then
      some ⟨[], .claim id, .claimed ⟨kind, row.repositoryId, row.storageKey, id, st.nextToken⟩⟩
    else none
  | none => none

variable (c : Claim)

/-- `tombstone_cleanup_key_for_delete`; without an acknowledgement the sweep skips the key. -/
def tombstone (acknowledged : Bool) : Statement :=
  if (st.find c.id).any (isTombstonable st c.kind c.token) then
    ⟨[], .tombstone c.id, if acknowledged then .tombstoned c (st.now + claimTtl) else .finished⟩
  else ⟨[], .none, .finished⟩

def reap : Statement :=
  if (st.find c.id).any (isReapable st c.kind c.token) then ⟨[], .reap c.id, .finished⟩
  else ⟨[], .none, .finished⟩

def release : Statement :=
  if (st.find c.id).any (·.claimToken = some c.token) then ⟨[], .release c.id, .finished⟩
  else ⟨[], .none, .finished⟩

def code (q : Request) (a : Action) : Option Statement :=
  match a, q with
  | .tick elapsed, q => some ⟨[], .tick elapsed, q⟩
  | .drop, _ => some ⟨[], .none, .finished⟩
  | .setSession session alive, .idle => some ⟨[], .setSession session alive, .finished⟩
  | .deleteRepository r, .idle => some ⟨[], .deleteRepository r, .finished⟩
  | .register r key session, .idle => some (register st r key session)
  | .putObject, .registered p => some ⟨[], .putObject p.key, .written p (st.deletes p.key)⟩
  | .commitBlob, .written p stamp => some (commitBlob st p stamp)
  | .claim kind id, .idle => claim st kind id
  | .resolveFailed, .claimed c => some ⟨[], .none, .failed c⟩
  | .tombstone, .claimed c => some (tombstone st c true)
  | .tombstoneUnacknowledged, .claimed c => some (tombstone st c false)
  | .deleteObject, .tombstoned c _ => some ⟨[], .deleteObject c.key, .emptied c⟩
  | .deleteObjectFailed landed, .tombstoned c _ =>
    some ⟨[], if landed then .deleteObject c.key else .none, .failed c⟩
  | .reap, .emptied c => some (reap st c)
  | .release, .failed c => some (release st c)
  | _, _ => none

def service : Protocol Store Request Lock Action Effect where
  holds _ := []
  apply := Effect.apply
  code := code

/-! ### What a step of a push or a sweep can do -/

open List Bool

variable (q : Request)

def Request.push : Request → Option Push
  | .registered p | .written p _ => some p
  | _ => none

def Request.claim : Request → Option Claim
  | .claimed c | .tombstoned c _ | .emptied c | .failed c => some c
  | _ => none

/-- The sweep presents its token to the row it writes. -/
def Presents (st : Store) (q : Request) (id : ℕ) : Prop :=
  ∃ c row, q.claim = some c ∧ st.find id = some row ∧ row.claimToken = some c.token

/-- The phase and the query behind a write. -/
def Warranted : Effect → Prop
  | .none | .tick _ | .putObject _ | .setSession _ _ | .deleteRepository _ => True
  | .deleteObject key => ∃ c expires, q = .tombstoned c expires ∧ c.key = key
  | .register r key _ => isReclaimed st r key = false
  | .commitBlob r key id stamp => ∃ p, q = .written p stamp ∧ p.repo = r ∧ p.key = key ∧
      p.journalId = id ∧ claimForBlobCommit st id r key = .cleared ∧ st.repositories r
  | .claim id => ∃ row, st.find id = some row ∧ row.claimExpiresAt.all (· ≤ st.now)
  | .tombstone id => ∃ c row, q = .claimed c ∧ c.id = id ∧ st.find id = some row ∧
      row.claimToken = some c.token ∧ sharedLiveness st row
  | .reap id | .release id => Presents st q id

def Registers (p : Push) (w : Effect) : Prop :=
  (∃ session, w = .register p.repo p.key session) ∧
    p.journalId = registeredId st p.repo p.key ∧ p.registeredAt = st.now

/-- The statement that claimed a row for a sweep. -/
def Claims (c : Claim) (w : Effect) : Prop :=
  w = .claim c.id ∧ c.token = st.nextToken ∧
    ∃ row, st.find c.id = some row ∧ row.slot = (c.repo, c.key)

/-- The statement lets time pass. -/
def Waits (o : Statement) : Prop := o.next = q ∧ ∃ elapsed, o.effect = .tick elapsed

structure Sound (o : Statement) : Prop where
  warranted : Warranted st q o.effect
  push : ∀ p, o.next.push = some p → q.push = some p ∨ Registers st p o.effect
  claim : ∀ c, o.next.claim = some c → q.claim = some c ∨ Claims st c o.effect
  written : ∀ p stamp, o.next = .written p stamp →
    Waits q o ∨ (o.effect = .putObject p.key ∧ stamp = st.deletes p.key)
  tombstoned : ∀ c expires, o.next = .tombstoned c expires →
    Waits q o ∨ (q = .claimed c ∧ o.effect = .tombstone c.id ∧ expires = st.now + claimTtl)

variable {st q} {a : Action} {o : Statement} {w : Effect}

theorem sound_finish (warranted : Warranted st q w) : Sound st q ⟨[], w, .finished⟩ :=
  ⟨warranted, nofun, nofun, nofun, nofun⟩

theorem register_sound (key : StorageKey) (session : Option ℕ) :
    Sound st .idle (register st r key session) := by
  unfold register
  split_ifs with allowed
  · simp only [and_eq_true, not_eq_true'] at allowed
    refine ⟨allowed.2, ?_, nofun, nofun, nofun⟩
    rintro _ ⟨⟩
    exact .inr ⟨⟨session, rfl⟩, rfl, rfl⟩
  · exact sound_finish trivial

theorem commitBlob_sound (p : Push) (stamp : ℕ) :
    Sound st (.written p stamp) (commitBlob st p stamp) := by
  unfold commitBlob
  split
  · exact sound_finish trivial
  · next cleared =>
    split_ifs with alive
    · exact sound_finish ⟨p, rfl, rfl, rfl, rfl, cleared, alive⟩
    · exact sound_finish trivial

theorem claim_sound {kind : CleanupSweepKind} {id : ℕ} (h : claim st kind id = some o) :
    Sound st .idle o := by
  unfold claim at h
  split at h
  · next row found =>
    split_ifs at h with claimable
    cases h
    simp only [isClaimable, and_eq_true] at claimable
    refine ⟨⟨row, found, claimable.1.1.2⟩, nofun, ?_, nofun, nofun⟩
    rintro _ ⟨⟩
    exact .inr ⟨rfl, rfl, row, found, rfl⟩
  · cases h

theorem tombstone_sound (acknowledged : Bool) :
    Sound st (.claimed c) (tombstone st c acknowledged) := by
  unfold tombstone
  split
  · next allowed =>
    obtain ⟨row, found, tombstonable⟩ := (Option.any_eq_true _ _).1 allowed
    simp only [isTombstonable, and_eq_true, decide_eq_true_eq] at tombstonable
    obtain ⟨⟨token, _⟩, live⟩ := tombstonable
    have warranted : Warranted st (.claimed c) (.tombstone c.id) :=
      ⟨c, row, rfl, rfl, found, token, live⟩
    cases acknowledged with
    | false => exact sound_finish warranted
    | true =>
      refine ⟨warranted, nofun, fun _ same => .inl same, nofun, ?_⟩
      rintro _ _ ⟨⟩
      exact .inr ⟨rfl, rfl, rfl⟩
  · exact sound_finish trivial

theorem reap_sound : Sound st (.emptied c) (reap st c) := by
  unfold reap
  split_ifs with allowed
  · obtain ⟨row, found, reapable⟩ := (Option.any_eq_true _ _).1 allowed
    simp only [isReapable, and_eq_true, decide_eq_true_eq] at reapable
    exact sound_finish ⟨c, row, rfl, found, reapable.1.1.1⟩
  · exact sound_finish trivial

theorem release_sound : Sound st (.failed c) (release st c) := by
  unfold release
  split_ifs with allowed
  · obtain ⟨row, found, token⟩ := (Option.any_eq_true _ _).1 allowed
    exact sound_finish ⟨c, row, rfl, found, by simpa using token⟩
  · exact sound_finish trivial

theorem tick_sound (elapsed : ℕ) : Sound st q ⟨[], .tick elapsed, q⟩ :=
  ⟨trivial, fun _ => .inl, fun _ => .inl, fun _ _ _ => .inl ⟨rfl, elapsed, rfl⟩,
    fun _ _ _ => .inl ⟨rfl, elapsed, rfl⟩⟩

theorem putObject_sound (p : Push) :
    Sound st (.registered p) ⟨[], .putObject p.key, .written p (st.deletes p.key)⟩ := by
  refine ⟨trivial, fun _ => .inl, nofun, ?_, nofun⟩
  rintro _ _ ⟨⟩
  exact .inr ⟨rfl, rfl⟩

theorem deleteObject_sound (expires : ℤ) {next : Request}
    (after : next = .emptied c ∨ next = .failed c) :
    Sound st (.tombstoned c expires) ⟨[], .deleteObject c.key, next⟩ := by
  obtain rfl | rfl := after <;>
    exact ⟨⟨c, expires, rfl, rfl⟩, nofun, fun _ => .inl, nofun, nofun⟩

/-- A sweep that gives up on the storage. -/
theorem failed_sound {c : Claim} (mine : q.claim = some c) : Sound st q ⟨[], .none, .failed c⟩ := by
  refine ⟨trivial, nofun, ?_, nofun, nofun⟩
  rintro _ ⟨⟩
  exact .inl mine

theorem deleteObjectFailed_sound (expires : ℤ) (landed : Bool) :
    Sound st (.tombstoned c expires)
      ⟨[], if landed then .deleteObject c.key else .none, .failed c⟩ := by
  cases landed with
  | false => exact failed_sound rfl
  | true => exact deleteObject_sound c expires (.inr rfl)

theorem code_sound (h : code st q a = some o) : Sound st q o := by
  revert h
  fun_cases code st q a <;> intro h
  all_goals first
    | exact claim_sound h
    | cases h
  all_goals first
    | exact sound_finish trivial
    | exact tick_sound _
    | exact register_sound _ _ _
    | exact putObject_sound _
    | exact commitBlob_sound _ _
    | exact failed_sound rfl
    | exact tombstone_sound _ _
    | exact deleteObject_sound _ _ (.inl rfl)
    | exact deleteObjectFailed_sound _ _ _
    | exact reap_sound _
    | exact release_sound _

/-! ### What a write changes -/

theorem apply_now : st.now ≤ (w.apply st).now := by
  cases w with
  | tick => simp only [Effect.apply]; omega
  | _ => exact Int.le_refl _

theorem apply_nextId : st.nextId ≤ (w.apply st).nextId := by
  cases w with
  | register => exact Nat.le_succ _
  | _ => exact Nat.le_refl _

theorem apply_nextToken : st.nextToken ≤ (w.apply st).nextToken := by
  cases w with
  | claim => exact Nat.le_succ _
  | _ => exact Nat.le_refl _

/-- A row keeps its identity and its tombstone, and its claim is kept or ends no earlier than now.
-/
structure Evolves (st : Store) (row row' : JournalRow) : Prop where
  id : row'.id = row.id
  slot : row'.slot = row.slot
  tombstone : row.pendingDeleteAt.isSome → row'.pendingDeleteAt.isSome
  lease : row'.claimExpiresAt = row.claimExpiresAt ∨
    ∃ expires, row'.claimExpiresAt = some expires ∧ st.now ≤ expires

theorem Evolves.refl (row : JournalRow) : Evolves st row row := ⟨rfl, rfl, fun h => h, .inl rfl⟩

theorem evolves_update {κ : Type} [DecidableEq κ] {key : JournalRow → κ} {k : κ}
    {f : JournalRow → JournalRow} {row' : JournalRow}
    (mem : row' ∈ update key k f st.journal) (evolves : ∀ row, Evolves st row (f row)) :
    ∃ row ∈ st.journal, Evolves st row row' := by
  rcases mem_update mem with ⟨old, _⟩ | ⟨row, old, _, rfl⟩
  · exact ⟨row', old, .refl row'⟩
  · exact ⟨row, old, evolves row⟩

def Inserted (st : Store) (w : Effect) (row : JournalRow) : Prop :=
  row.id = st.nextId ∧ ∃ r key session, w = .register r key session ∧ row.slot = (r, key) ∧
    lookup JournalRow.slot (r, key) st.journal = none

theorem claimTtl_nonneg : 0 ≤ claimTtl := by decide

theorem apply_journal {row' : JournalRow} (mem : row' ∈ (w.apply st).journal) :
    (∃ row ∈ st.journal, Evolves st row row') ∨ Inserted st w row' := by
  have ttl := claimTtl_nonneg
  cases w with
  | register r key session =>
    simp only [Effect.apply, Store.register] at mem
    split at mem
    · exact .inl (evolves_update mem fun row => ⟨rfl, rfl, fun h => h, .inl rfl⟩)
    · next missing =>
      rcases mem_cons.1 mem with rfl | old
      · exact .inr ⟨rfl, r, key, session, rfl, rfl, missing⟩
      · exact .inl ⟨row', old, .refl row'⟩
  | claim =>
    exact .inl (evolves_update mem fun row =>
      ⟨rfl, rfl, fun h => h, .inr ⟨st.now + claimTtl, rfl, by omega⟩⟩)
  | tombstone =>
    exact .inl (evolves_update mem fun row =>
      ⟨rfl, rfl, fun _ => rfl, .inr ⟨st.now + claimTtl, rfl, by omega⟩⟩)
  | release =>
    exact .inl (evolves_update mem fun row =>
      ⟨rfl, rfl, fun h => h, .inr ⟨st.now, rfl, Int.le_refl _⟩⟩)
  | commitBlob | reap | deleteRepository =>
    exact .inl ⟨row', mem_of_mem_filter mem, .refl row'⟩
  | _ => exact .inl ⟨row', mem, .refl row'⟩

end ArtifactKeeper.Journal
