import Mathlib.Tactic.IntervalCases
import ArtifactKeeper.Library.Machine
import ArtifactKeeper.Library.Protocol
import Mathlib.Data.List.Sort

/-!
# Content digests

A `Sha256Digest` holds bare lowercase hex.  The client's digest parameter is accepted with
upper-case hex too and normalised, so an accepted parameter has one canonical form
(`asPrefixed_parse`).
-/

namespace ArtifactKeeper.OciUpload

open List Char

abbrev Text := List Char

def isLowerHexDigit (c : Char) : Bool := c.isDigit || ('a' ≤ c && c ≤ 'f')

def isHexDigit (c : Char) : Bool := isLowerHexDigit c || ('A' ≤ c && c ≤ 'F')

theorem toLower_of_isHexDigit {c : Char} (h : isHexDigit c) :
    isLowerHexDigit c.toLower ∧ (isLowerHexDigit c → c.toLower = c) := by
  have bounds : 48 ≤ c.toNat ∧ c.toNat ≤ 57 ∨ 97 ≤ c.toNat ∧ c.toNat ≤ 102 ∨
      65 ≤ c.toNat ∧ c.toNat ≤ 70 := by
    simp only [isHexDigit, isLowerHexDigit, isDigit, Bool.or_eq_true, Bool.and_eq_true,
      decide_eq_true_eq, or_assoc] at h
    exact h
  rw [← ofNat_toNat c]
  generalize c.toNat = n at bounds ⊢
  rcases bounds with ⟨_, _⟩ | ⟨_, _⟩ | ⟨_, _⟩ <;> interval_cases n <;> decide

structure Sha256Digest where
  hex : Text
  length : hex.length = 64
  lower : ∀ c ∈ hex, isLowerHexDigit c
  deriving DecidableEq

namespace Sha256Digest

def fromHex (hex : Text) : Except String Sha256Digest :=
  if h : hex.length = 64 ∧ hex.all isHexDigit then
    .ok ⟨hex.map toLower, by rw [length_map, h.1], fun c mem => by
      obtain ⟨c', mem', rfl⟩ := mem_map.1 mem
      exact (toLower_of_isHexDigit (all_eq_true.1 h.2 c' mem')).1⟩
  else .error ("invalid sha256 hex digest: " ++ String.ofList hex)

/-- The algorithm in front of the hex. -/
def algorithm : Text := ['s', 'h', 'a', '2', '5', '6', ':']

def parseDigestParam (value : Text) : Except String Sha256Digest :=
  if algorithm.isPrefixOf value then fromHex (value.drop algorithm.length)
  else .error ("invalid sha256 digest, missing 'sha256:' prefix: " ++ String.ofList value)

def asPrefixed (d : Sha256Digest) : Text := algorithm ++ d.hex

theorem asPrefixed_parse {value : Text} {d : Sha256Digest} (h : parseDigestParam value = .ok d) :
    d.asPrefixed = value.map toLower := by
  unfold parseDigestParam at h
  split_ifs at h with named
  obtain ⟨_, rfl⟩ := isPrefixOf_iff_prefix.1 named
  rw [drop_left, fromHex] at h
  split_ifs at h
  cases h
  rw [map_append]
  rfl

end Sha256Digest

/-! ### State of chunked uploads -/

open Machine

abbrev Bytes := List UInt8

/-! ### Keys and leases -/

/-- Storage keys: a session's temporary key, its parts, its concatenation and the final blobs. -/
inductive Key
  | temp (session : ℕ)
  | part (session index unique : ℕ)
  | complete (session unique : ℕ)
  | blob (digest : Sha256Digest)
  deriving DecidableEq

namespace Key

def unique : Key → Option ℕ
  | temp session => some session
  | part _ _ n | complete _ n => some n
  | blob _ => none

/-- The session and the part index in a key of a part. -/
def place : Key → Option (ℕ × ℕ)
  | temp session => some (session, 0)
  | part session index _ => some (session, index)
  | complete _ _ | blob _ => none

end Key

/-- The index `i32::MAX` of a final part. -/
def finalPartIndex : ℕ := 2 ^ 31 - 1

/-- A `state_token`, drawn by a completion or by a cancellation. -/
inductive Lease
  | completion (token : ℕ)
  | cancel (token : ℕ)
  deriving DecidableEq

namespace Lease

def token : Lease → ℕ
  | completion token | cancel token => token

def isCancel : Lease → Bool
  | completion _ => false
  | cancel _ => true

end Lease

/-! ### Tables -/

structure PartRow where
  partIndex : ℕ
  storageKey : Key
  sizeBytes : ℕ
  body : Bytes
  deriving DecidableEq

inductive UploadSessionState
  | open
  | committing
  deriving DecidableEq

structure Session where
  bytesReceived : ℕ
  computedDigest : Option Sha256Digest
  state : UploadSessionState
  stateToken : Option Lease
  updatedAt : ℤ
  parts : List PartRow
  acked : List Bytes
  deriving DecidableEq

structure BlobRow where
  digest : Sha256Digest
  sizeBytes : ℕ
  deriving DecidableEq

/-- A committed upload: the session, the client's parameter, the row and the object it was promoted
from. -/
structure Commit where
  session : Option ℕ
  param : Text
  digest : Sha256Digest
  sizeBytes : ℕ
  content : Bytes
  deriving DecidableEq

structure Store where
  sessions : ℕ → Option Session
  objects : Key → Option Bytes
  blobs : List BlobRow
  recorded : List Key
  promoted : List (Sha256Digest × Bytes)
  commits : List Commit
  now : ℤ
  next : ℕ

/-! ### Queries -/

structure PartRecord where
  storageKey : Key
  sizeBytes : ℕ
  deriving DecidableEq

def PartRow.record (p : PartRow) : PartRecord := ⟨p.storageKey, p.sizeBytes⟩

structure Snapshot where
  session : ℕ
  bytesReceived : ℕ
  partCount : ℕ
  deriving DecidableEq

def Snapshot.partIndex (snap : Snapshot) : ℕ :=
  if snap.bytesReceived = 0 ∧ snap.partCount = 0 then 0
  else if snap.partCount = 0 then 1
  else snap.partCount

def Session.partRecords (s : Session) : List PartRecord :=
  (s.parts.insertionSort fun p p' => p.partIndex ≤ p'.partIndex).map PartRow.record

variable (st : Store)

/-- `fetch_oci_upload_parts`: without rows the temporary object is the only part. -/
def fetchUploadParts (session bytesReceived : ℕ) : List PartRecord :=
  match ((st.sessions session).map Session.partRecords).getD [] with
  | [] => [⟨.temp session, bytesReceived⟩]
  | parts => parts

def storageConcat (objects : Key → Option Bytes) : List PartRecord → Option Bytes
  | [] => some []
  | part :: parts =>
    if part.sizeBytes = 0 then storageConcat objects parts
    else
      match objects part.storageKey with
      | some body =>
        if body.length = part.sizeBytes then (storageConcat objects parts).map (body ++ ·) else none
      | none => none

def leaseTtl : ℤ := seconds (6 * 60 * 60)

variable (s : Session) (snap : Snapshot)

/-- The sessions `claim_oci_upload_session_for_completion` claims. -/
def Session.isClaimable (now : ℤ) : Bool := s.state = .open || s.updatedAt < now - leaseTtl

def Session.isOwned (lease : Lease) : Bool :=
  s.state = .committing && s.stateToken = some lease

/-- No row has the index of the new part, and the session is open and as the PATCH has read it. -/
def Session.isAppendable : Bool :=
  s.state = .open && s.bytesReceived = snap.bytesReceived &&
    !s.parts.any (·.partIndex = snap.partIndex)

/-- The row `recover_committed_patch_after_commit_error` looks for. -/
def Session.committedPart (key : Key) : Option PartRow :=
  if s.state = .open then
    s.parts.find? fun p => p.partIndex = snap.partIndex && p.storageKey = key
  else none

/-! ### Effects -/

inductive Effect
  | none
  | tick (elapsed : ℕ)
  | put (key : Key) (body : Bytes)
  | promote (digest : Sha256Digest) (content : Bytes)
  | delete (key : Key)
  | createSession (session : ℕ) (body : Bytes) (computed : Option Sha256Digest)
      (acknowledged : Bool)
  | appendPart (snap : Snapshot) (key : Key) (body : Bytes) (computed : Option Sha256Digest)
      (acknowledged : Bool)
  | acknowledge (session : ℕ) (body : Bytes)
  | claim (session : ℕ) (lease : Lease)
  | renew (session : ℕ)
  | reset (session : ℕ)
  | deleteSession (session : ℕ)
  | commitBlob (commit : Commit)
  deriving DecidableEq

variable (session : ℕ)

def Store.setSession (row : Option Session) : Store :=
  { st with sessions := fun id => if id = session then row else st.sessions id }

def Store.setObject (key : Key) (object : Option Bytes) : Store :=
  { st with objects := fun k => if k = key then object else st.objects k }

def Store.updateSession (f : Session → Session) : Store :=
  st.setSession session ((st.sessions session).map f)

/-- The row of a new session, with a first part if the POST carried a body. -/
def newSession (body : Bytes) (computed : Option Sha256Digest) (acknowledged : Bool) : Session where
  bytesReceived := body.length
  computedDigest := computed
  state := .open
  stateToken := none
  updatedAt := st.now
  parts := if computed.isSome then [⟨0, .temp session, body.length, body⟩] else []
  acked := if acknowledged then [body] else []

def legacyPart (s : Session) (snap : Snapshot) : List PartRow :=
  if snap.partCount = 0 ∧ 0 < snap.bytesReceived ∧ ¬ s.parts.any (·.partIndex = 0) then
    [⟨0, .temp snap.session, snap.bytesReceived, (st.objects (.temp snap.session)).getD []⟩]
  else []

def Session.append (snap : Snapshot) (key : Key) (body : Bytes) (computed : Option Sha256Digest)
    (acknowledged : Bool) (s : Session) : Session :=
  { s with
    bytesReceived := snap.bytesReceived + body.length
    computedDigest := computed
    updatedAt := st.now
    parts := s.parts ++ legacyPart st s snap ++ [⟨snap.partIndex, key, body.length, body⟩]
    acked := if acknowledged then s.acked ++ [body] else s.acked }

/-- The blob row and the deletion of the session in one transaction; an existing blob row stays. -/
def Store.commitBlob (commit : Commit) : Store :=
  { st with
    blobs :=
      if st.blobs.any (·.digest = commit.digest) then st.blobs
      else ⟨commit.digest, commit.sizeBytes⟩ :: st.blobs
    commits := commit :: st.commits
    sessions := fun id => if commit.session = some id then none else st.sessions id }

open Store (updateSession setSession commitBlob setObject)

def Effect.apply : Effect → Store → Store
  | .none, st => st
  | .tick elapsed, st => { st with now := st.now + elapsed }
  | .put key body, st => { st.setObject key (some body) with next := st.next + 1 }
  | .promote digest content, st =>
    { st.setObject (.blob digest) (some content) with
      promoted := (digest, content) :: st.promoted }
  | .delete key, st => st.setObject key Option.none
  | .createSession session body computed acknowledged, st =>
    { st.setSession session (some (newSession st session body computed acknowledged)) with
      recorded := .temp session :: st.recorded }
  | .appendPart snap key body computed acknowledged, st =>
    { st.updateSession snap.session (.append st snap key body computed acknowledged) with
      recorded := key :: st.recorded }
  | .acknowledge session body, st =>
    st.updateSession session fun s => { s with acked := s.acked ++ [body] }
  | .claim session lease, st =>
    { st.updateSession session fun s =>
        { s with state := .committing, stateToken := some lease, updatedAt := st.now } with
      next := st.next + 1 }
  | .renew session, st => st.updateSession session fun s => { s with updatedAt := st.now }
  | .reset session, st =>
    st.updateSession session fun s =>
      { s with state := .open, stateToken := Option.none, updatedAt := st.now }
  | .deleteSession session, st => st.setSession session Option.none
  | .commitBlob commit, st => st.commitBlob commit

open Effect (apply)

/-! ### What a write changes -/

variable {st} {w : Effect}

/-- The key a write records in a session or part row. -/
def Effect.records : Effect → Option Key
  | .createSession session _ _ _ => some (.temp session)
  | .appendPart _ key _ _ _ => some key
  | _ => Option.none

def Effect.commits : Effect → Option Commit
  | .commitBlob commit => some commit
  | _ => Option.none

theorem apply_recorded : (w.apply st).recorded = w.records.toList ++ st.recorded := by
  cases w <;> rfl

theorem apply_next : st.next ≤ (w.apply st).next := by
  cases w with
  | put | claim => exact Nat.le_succ _
  | _ => exact Nat.le_refl _

/-! ### Sessions -/

/-- A row keeps its parts; its lease is kept, given up or drawn. -/
structure Kept (w : Effect) (id : ℕ) (s s' : Session) : Prop where
  parts : s'.parts = s.parts
  bytes : s'.bytesReceived = s.bytesReceived
  digest : s'.computedDigest = s.computedDigest
  lease : (s'.state = s.state ∧ s'.stateToken = s.stateToken) ∨
    (w = .reset id ∧ s'.state = .open ∧ s'.stateToken = none) ∨
    ∃ lease, w = .claim id lease ∧ s'.state = .committing ∧ s'.stateToken = some lease
  acked : s'.acked = s.acked ∨ ∃ body, w = .acknowledge id body

theorem Kept.refl (w : Effect) (id : ℕ) (s : Session) : Kept w id s s :=
  ⟨rfl, rfl, rfl, .inl ⟨rfl, rfl⟩, .inl rfl⟩

/-- The row is inserted by a POST. -/
def Created (st : Store) (w : Effect) (id : ℕ) (s' : Session) : Prop :=
  ∃ body computed acknowledged, w = .createSession id body computed acknowledged ∧
    s' = newSession st id body computed acknowledged

/-- A PATCH has appended a part. -/
def Appended (st : Store) (w : Effect) (id : ℕ) (s s' : Session) : Prop :=
  ∃ snap key body computed acknowledged,
    w = .appendPart snap key body computed acknowledged ∧ snap.session = id ∧
      s' = s.append st snap key body computed acknowledged

variable {session id : ℕ} {f : Session → Session} {s' : Session}

section

variable (h : (st.updateSession session f).sessions id = some s')
include h

theorem updateSession_sessions :
    (id ≠ session ∧ st.sessions id = some s') ∨
      ∃ s, id = session ∧ st.sessions id = some s ∧ s' = f s := by
  simp only [updateSession, setSession] at h
  split_ifs at h with same
  · obtain ⟨s, found, rfl⟩ := Option.map_eq_some_iff.1 h
    exact .inr ⟨s, same, same ▸ found, rfl⟩
  · exact .inl ⟨same, h⟩

theorem kept_update (keeps : ∀ s, Kept w session s (f s)) :
    ∃ s, st.sessions id = some s ∧ Kept w id s s' := by
  rcases updateSession_sessions h with ⟨_, found⟩ | ⟨s, rfl, found, rfl⟩
  · exact ⟨s', found, .refl w id s'⟩
  · exact ⟨s, found, keeps s⟩

end

theorem apply_session (h : (w.apply st).sessions id = some s') :
    (∃ s, st.sessions id = some s ∧ (Kept w id s s' ∨ Appended st w id s s')) ∨
      Created st w id s' := by
  have kept : (∃ s, st.sessions id = some s ∧ Kept w id s s') →
      (∃ s, st.sessions id = some s ∧ (Kept w id s s' ∨ Appended st w id s s')) ∨
        Created st w id s' :=
    fun ⟨s, found, keeps⟩ => .inl ⟨s, found, .inl keeps⟩
  cases w with
  | createSession _ body computed acknowledged =>
    simp only [apply, setSession] at h
    split_ifs at h with same
    · cases h
      subst same
      exact .inr ⟨body, computed, acknowledged, rfl, rfl⟩
    · exact kept ⟨s', h, .refl _ id s'⟩
  | appendPart snap key body computed acknowledged =>
    rcases updateSession_sessions h with ⟨_, found⟩ | ⟨s, same, found, rfl⟩
    · exact kept ⟨s', found, .refl _ id s'⟩
    · exact .inl ⟨s, found, .inr ⟨snap, key, body, computed, acknowledged, rfl, same.symm, rfl⟩⟩
  | acknowledge _ body =>
    exact kept (kept_update h fun s => ⟨rfl, rfl, rfl, .inl ⟨rfl, rfl⟩, .inr ⟨body, rfl⟩⟩)
  | claim _ lease =>
    exact kept (kept_update h fun s =>
      ⟨rfl, rfl, rfl, .inr (.inr ⟨lease, rfl, rfl, rfl⟩), .inl rfl⟩)
  | renew => exact kept (kept_update h fun s => ⟨rfl, rfl, rfl, .inl ⟨rfl, rfl⟩, .inl rfl⟩)
  | reset =>
    exact kept (kept_update h fun s => ⟨rfl, rfl, rfl, .inr (.inl ⟨rfl, rfl, rfl⟩), .inl rfl⟩)
  | deleteSession =>
    simp only [apply, setSession] at h
    split_ifs at h
    exact kept ⟨s', h, .refl _ id s'⟩
  | commitBlob =>
    simp only [apply, commitBlob] at h
    split_ifs at h
    exact kept ⟨s', h, .refl _ id s'⟩
  | _ => exact kept ⟨s', h, .refl _ id s'⟩

theorem session_stays {s : Session} {lease : Lease} (found : st.sessions id = some s)
    (leased : s.stateToken = some lease) (created : w.records ≠ some (.temp id))
    (claimed : ∀ lease, w ≠ .claim id lease) (reset : w ≠ .reset id)
    (deleted : w ≠ .deleteSession id)
    (committed : ∀ commit, w.commits = some commit → commit.session ≠ some id) :
    ∃ s', (w.apply st).sessions id = some s' ∧ s'.stateToken = some lease := by
  have update (session : ℕ) (f : Session → Session)
      (keeps : session = id → (f s).stateToken = s.stateToken) :
      ∃ s', (st.updateSession session f).sessions id = some s' ∧ s'.stateToken = some lease := by
    by_cases same : id = session
    · subst same
      exact ⟨f s, by simp [updateSession, setSession, found], (keeps rfl).trans leased⟩
    · exact ⟨s, by simp [updateSession, setSession, same, found], leased⟩
  cases w with
  | createSession session =>
    have other : id ≠ session := fun same => created (same ▸ rfl)
    exact ⟨s, by simp [apply, setSession, other, found], leased⟩
  | appendPart | acknowledge =>
    exact update _ _ fun _ => rfl
  | claim _ lease' => exact update _ _ fun same => absurd (same ▸ rfl) (claimed lease')
  | renew => exact update _ _ fun _ => rfl
  | reset => exact update _ _ fun same => absurd (same ▸ rfl) reset
  | deleteSession session =>
    have other : id ≠ session := fun same => deleted (same ▸ rfl)
    exact ⟨s, by simp [apply, setSession, other, found], leased⟩
  | commitBlob commit =>
    exact ⟨s, by simp [apply, commitBlob, committed commit rfl, found], leased⟩
  | _ => exact ⟨s, found, leased⟩

/-! ### Objects -/

theorem apply_object {k : Key} {x : Bytes} (h : (w.apply st).objects k = some x) :
    st.objects k = some x ∨ w = .put k x ∨ ∃ digest, w = .promote digest x ∧ k = .blob digest := by
  cases w with
  | put =>
    simp only [apply, setObject] at h
    split_ifs at h with same
    · cases h
      exact .inr (.inl (same ▸ rfl))
    · exact .inl h
  | promote digest =>
    simp only [apply, setObject] at h
    split_ifs at h with same
    · cases h
      exact .inr (.inr ⟨digest, rfl, same⟩)
    · exact .inl h
  | delete =>
    simp only [apply, setObject] at h
    split_ifs at h
    exact .inl h
  | _ => exact .inl h

theorem object_stays {k : Key} {x : Bytes} (h : st.objects k = some x) (upload : k.unique.isSome)
    (deleted : w ≠ .delete k) (written : ∀ body, w ≠ .put k body) :
    (w.apply st).objects k = some x := by
  cases w with
  | put key body =>
    have other : k ≠ key := fun same => written body (same ▸ rfl)
    simpa only [apply, setObject, if_neg other] using h
  | promote digest =>
    have other : k ≠ .blob digest := by
      rintro rfl
      cases upload
    simpa only [apply, setObject, if_neg other] using h
  | delete key =>
    have other : k ≠ key := fun same => deleted (same ▸ rfl)
    simpa only [apply, setObject, if_neg other] using h
  | _ => exact h

end ArtifactKeeper.OciUpload
