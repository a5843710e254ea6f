import ArtifactKeeper.OciUpload.State

/-!
# Upload requests

Every transaction and every storage call is one step; a request may stop at any point (`drop`).  A
call may fail before it takes effect (`fail`) or after it (the actions named `…Failed` and
`…Unacknowledged`, where `landed` says whether it has taken effect).
-/

namespace ArtifactKeeper.OciUpload

/-- A completion: its session and token, the client's digest and what the claim has read. -/
structure Completion where
  session : ℕ
  token : ℕ
  param : Text
  digest : Sha256Digest
  bytesReceived : ℕ
  computedDigest : Option Sha256Digest
  deriving DecidableEq

/-- An object on its way to the blob key, for a session and the token of its completion unless the
upload is monolithic.  `spent` is deleted once the object is promoted, `scratch` when the upload
fails and `sources` when it is committed. -/
structure Promotion where
  owner : Option (ℕ × ℕ)
  param : Text
  digest : Sha256Digest
  sizeBytes : ℕ
  source : Key
  spent : List Key
  scratch : List Key
  sources : List Key
  deriving DecidableEq

def Completion.target (c : Completion) : Option (ℕ × Lease) :=
  some (c.session, .completion c.token)

def Promotion.target (p : Promotion) : Option (ℕ × Lease) :=
  p.owner.map fun (session, token) => (session, .completion token)

inductive Request
  | idle
  | posted (session : ℕ) (body : Bytes)
  | streaming (snap : Snapshot)
  | patched (snap : Snapshot) (key : Key) (body : Bytes)
  /-- The COMMIT of a PATCH has returned an error. -/
  | recovering (snap : Snapshot) (key : Key) (body : Bytes)
  | completing (c : Completion)
  /-- The final body turned out to be empty. -/
  | skipping (c : Completion) (key : Key)
  | received (c : Completion) (final : Option PartRecord)
  /-- The parts `todo` are still to be read. -/
  | assembling (c : Completion) (final : Option PartRecord) (parts todo : List PartRecord)
      (content : Bytes)
  | promoting (p : Promotion)
  /-- `content` is copied to the blob key. -/
  | promoted (p : Promotion) (content : Bytes)
  /-- The COMMIT of a completion has returned an error. -/
  | confirming (p : Promotion)
  | leased (session token : ℕ)
  /-- A cancellation is to delete `keys`. -/
  | cancelling (session token : ℕ) (keys : List Key)
  /-- The objects `keys` are deleted if possible, then the session is reset. -/
  | discarding (target : Option (ℕ × Lease)) (keys : List Key)
  | finished
  deriving DecidableEq

inductive Action
  | tick (elapsed : ℕ)
  | drop
  | fail
  | heartbeat
  | putMonolithic (param : Text) (body : Bytes)
  | postUpload (body : Bytes)
  | fetchSession (session : ℕ)
  | claimCompletion (session : ℕ) (param : Text)
  | claimCancel (session : ℕ)
  | putFailed (body : Bytes)
  | insertSession
  | insertSessionUnacknowledged (landed : Bool)
  | putPart (body : Bytes)
  | commitPatch
  | commitPatchUnacknowledged (landed : Bool)
  | recover
  | putFinal (body : Bytes)
  | noFinal
  | fetchParts
  | readPart
  | putCompletion
  | copy
  | copyFailed (landed : Bool)
  | commitBlob
  | commitBlobUnacknowledged (landed : Bool)
  | confirm
  | listParts
  | cancelDelete (key : Key)
  | cancelDeleteFailed (key : Key) (landed : Bool)
  | deleteSession
  | deleteSessionFailed (landed : Bool)
  | deleteKey (key : Key) (landed : Bool)
  | reset
  deriving DecidableEq

/-- Every transaction is one step, so no lock outlives a step. -/
abbrev Lock := Empty

abbrev Statement := Outcome Request Lock Effect

def Effect.landing (landed : Bool) (effect : Effect) : Effect := if landed then effect else .none

/-! ### First steps -/

section Start

variable (sha256 : Bytes → Sha256Digest) (st : Store)

/-- A POST with a digest parameter stores its body and compares the digests. -/
def putMonolithic (param : Text) (body : Bytes) : Statement :=
  match Sha256Digest.parseDigestParam param with
  | .error _ => ⟨[], .none, .finished⟩
  | .ok digest =>
    let key := Key.temp st.next
    if digest = sha256 body then
      ⟨[], .put key body, .promoting ⟨none, param, digest, body.length, key, [], [key], [key]⟩⟩
    else ⟨[], .put key body, .discarding none [key]⟩

variable (session : ℕ)

def fetchSession : Statement :=
  match st.sessions session with
  | some s =>
    if s.state = .open then
      ⟨[], .none, .streaming ⟨session, s.bytesReceived, s.parts.length⟩⟩
    else ⟨[], .none, .finished⟩
  | none => ⟨[], .none, .finished⟩

def claimCompletion (param : Text) : Statement :=
  match Sha256Digest.parseDigestParam param, st.sessions session with
  | .ok digest, some s =>
    if s.isClaimable st.now then
      ⟨[], .claim session (.completion st.next),
        .completing ⟨session, st.next, param, digest, s.bytesReceived, s.computedDigest⟩⟩
    else ⟨[], .none, .finished⟩
  | _, _ => ⟨[], .none, .finished⟩

def claimCancel : Statement :=
  match st.sessions session with
  | some s =>
    if s.state = .open then
      ⟨[], .claim session (.cancel st.next), .leased session st.next⟩
    else ⟨[], .none, .finished⟩
  | none => ⟨[], .none, .finished⟩

def start : Action → Option Statement
  | .putMonolithic param body => some (putMonolithic sha256 st param body)
  | .postUpload body => some ⟨[], .put (.temp st.next) body, .posted st.next body⟩
  | .fetchSession session => some (fetchSession st session)
  | .claimCompletion session param => some (claimCompletion st session param)
  | .claimCancel session => some (claimCancel st session)
  | .putFailed body => some ⟨[], .put (.temp st.next) body, .finished⟩
  | _ => none

end Start

/-! ### POST and PATCH -/

section Append

variable (sha256 : Bytes → Sha256Digest) (st : Store)

def firstDigest (body : Bytes) : Option Sha256Digest :=
  if 0 < body.length then some (sha256 body) else none

def insertSession (session : ℕ) (body : Bytes) : Action → Option Statement
  | .insertSession =>
    some ⟨[], .createSession session body (firstDigest sha256 body) true, .finished⟩
  | .insertSessionUnacknowledged landed =>
    some ⟨[], .landing landed (.createSession session body (firstDigest sha256 body) false),
      .finished⟩
  | .fail => some ⟨[], .none, .discarding none [.temp session]⟩
  | _ => none

variable (snap : Snapshot)

def putPart : Action → Option Statement
  | .putPart body =>
    let key := Key.part snap.session snap.partIndex st.next
    some ⟨[], .put key body, .patched snap key body⟩
  | .putFailed body =>
    some ⟨[], .put (.part snap.session snap.partIndex st.next) body, .finished⟩
  | .fail => some ⟨[], .none, .finished⟩
  | _ => none

/-- The digest a PATCH records. -/
def Snapshot.computedDigest (body : Bytes) : Option Sha256Digest :=
  if snap.bytesReceived = 0 ∧ snap.partIndex = 0 then some (sha256 body) else none

def commitPatch (key : Key) (body : Bytes) (a : Action) : Option Statement :=
  let append := Effect.appendPart snap key body (snap.computedDigest sha256 body)
  let conflict : Statement := ⟨[], .none, .discarding none [key]⟩
  let appendable := (st.sessions snap.session).any (·.isAppendable snap)
  match a with
  | .commitPatch => some (if appendable then ⟨[], append true, .finished⟩ else conflict)
  | .commitPatchUnacknowledged landed =>
    some (if appendable then ⟨[], .landing landed (append false), .recovering snap key body⟩
      else conflict)
  | .fail => some conflict
  | _ => none

def recover (key : Key) (body : Bytes) : Action → Option Statement
  | .recover =>
    match (st.sessions snap.session).bind fun s =>
        (s.committedPart snap key).map fun p => (s.bytesReceived, p.sizeBytes) with
    | none => some ⟨[], .none, .discarding none [key]⟩
    | some found =>
      if found = (snap.bytesReceived + body.length, body.length) then
        some ⟨[], .acknowledge snap.session body, .finished⟩
      else some ⟨[], .none, .finished⟩
  | .fail => some ⟨[], .none, .finished⟩
  | _ => none

end Append

/-! ### Completion -/

section Complete

variable (sha256 : Bytes → Sha256Digest) (st : Store)

def finalKeys (final : Option PartRecord) : List Key := final.toList.map PartRecord.storageKey

variable (c : Completion)

/-- The objects a committed completion deletes. -/
def Completion.cleanupKeys (parts : List PartRecord) : List Key :=
  (Key.temp c.session :: parts.map PartRecord.storageKey).dedup

def putFinal (a : Action) : Option Statement :=
  let key := Key.part c.session finalPartIndex st.next
  match a with
  | .putFinal body =>
    some ⟨[], .put key body,
      if body.length = 0 then .skipping c key else .received c (some ⟨key, body.length⟩)⟩
  | .noFinal => some ⟨[], .none, .received c none⟩
  | .putFailed body => some ⟨[], .put key body, .discarding c.target [key]⟩
  | .fail => some ⟨[], .none, .discarding c.target []⟩
  | _ => none

def skipFinal (key : Key) : Action → Option Statement
  | .deleteKey k landed =>
    if k = key then some ⟨[], .landing landed (.delete key), .received c none⟩ else none
  | _ => none

def Completion.fastPart (final : Option PartRecord) : List PartRecord → Option PartRecord
  | [part] => if final.isNone && c.computedDigest = some c.digest then some part else none
  | _ => none

def fetchParts (final : Option PartRecord) : Action → Option Statement
  | .fetchParts =>
    let parts := fetchUploadParts st c.session c.bytesReceived ++ final.toList
    match c.fastPart final parts with
    | some part =>
      some ⟨[], .none, .promoting ⟨(c.session, c.token), c.param, c.digest, part.sizeBytes, part.storageKey,
        [], [], c.cleanupKeys parts⟩⟩
    | none =>
      if final.isNone && c.computedDigest.any (· ≠ c.digest) then
        some ⟨[], .none, .discarding c.target []⟩
      else some ⟨[], .none, .assembling c final parts parts []⟩
  | .fail => some ⟨[], .none, .discarding c.target (finalKeys final)⟩
  | _ => none

/-- The next part of the concatenation, or `none` for a storage fault. -/
def readPart (part : PartRecord) : Option Bytes :=
  if part.sizeBytes = 0 then some []
  else (st.objects part.storageKey).filter (·.length = part.sizeBytes)

def assemble (final : Option PartRecord) (parts todo : List PartRecord) (content : Bytes)
    (a : Action) : Option Statement :=
  let key := Key.complete c.session st.next
  let failed : Request := .discarding c.target (finalKeys final)
  match a, todo with
  | .readPart, part :: rest =>
    match readPart st part with
    | some body => some ⟨[], .none, .assembling c final parts rest (content ++ body)⟩
    | none => some ⟨[], .none, failed⟩
  | .putCompletion, [] =>
    if sha256 content = c.digest then
      some ⟨[], .put key content, .promoting ⟨(c.session, c.token), c.param, c.digest,
        content.length, key, [key], finalKeys final, c.cleanupKeys parts⟩⟩
    else some ⟨[], .put key content, .discarding c.target (key :: finalKeys final)⟩
  | .putFailed body, _ => some ⟨[], .put key body, failed⟩
  | .fail, _ => some ⟨[], .none, failed⟩
  | _, _ => none

end Complete

/-! ### Promotion and commit -/

section Promote

variable (st : Store) (p : Promotion)

def copyBlob (a : Action) : Option Statement :=
  let failed : Request := .discarding p.target (p.spent ++ p.scratch)
  match a, st.objects p.source with
  | .copy, some content => some ⟨[], .promote p.digest content, .promoted p content⟩
  | .copyFailed landed, some content =>
    some ⟨[], .landing landed (.promote p.digest content), failed⟩
  | .copy, none | .copyFailed _, none | .fail, _ => some ⟨[], .none, failed⟩
  | _, _ => none

/-- The session, if any, still carries the lease. -/
def Store.owns (target : Option (ℕ × Lease)) : Bool :=
  target.all fun (session, lease) => (st.sessions session).any (·.isOwned lease)

def Promotion.commit (content : Bytes) : Commit :=
  ⟨p.owner.map Prod.fst, p.param, p.digest, p.sizeBytes, content⟩

/-- After a COMMIT that returned an error. -/
def Promotion.afterError : Request :=
  match p.owner with
  | none => .discarding none p.scratch
  | some _ => .confirming p

def commitBlob (content : Bytes) (a : Action) : Option Statement :=
  let failed : Statement := ⟨[], .none, .discarding p.target p.scratch⟩
  match a, p.spent with
  | .deleteKey key landed, k :: rest =>
    if key = k then
      some ⟨[], .landing landed (.delete key), .promoted { p with spent := rest } content⟩
    else none
  | .commitBlob, [] =>
    some (if st.owns p.target then ⟨[], .commitBlob (p.commit content), .discarding none p.sources⟩
      else failed)
  | .commitBlobUnacknowledged landed, [] =>
    some (if st.owns p.target then
        ⟨[], .landing landed (.commitBlob (p.commit content)), p.afterError⟩
      else failed)
  | .fail, [] => some failed
  | _, _ => none

def confirm (a : Action) : Option Statement :=
  match a, p.owner with
  | .confirm, some (session, _) =>
    if (st.sessions session).isSome then some ⟨[], .none, .discarding p.target p.scratch⟩
    else if st.blobs.any fun b => b.digest = p.digest && b.sizeBytes = p.sizeBytes then
      some ⟨[], .none, .discarding none p.sources⟩
    else some ⟨[], .none, .finished⟩
  | .fail, _ => some ⟨[], .none, .finished⟩
  | _, _ => none

end Promote

/-! ### Cancellation and cleanup -/

section Cancel

variable (st : Store)

/-- The keys `handle_cancel_upload` deletes. -/
def cancelKeys (session : ℕ) : List Key :=
  (Key.temp session ::
    (((st.sessions session).map Session.parts).getD []).map PartRow.storageKey).dedup

def listParts (session token : ℕ) : Action → Option Statement
  | .listParts => some ⟨[], .none, .cancelling session token (cancelKeys st session)⟩
  | .fail => some ⟨[], .none, .discarding (some (session, .cancel token)) []⟩
  | _ => none

/-- After the first deletion a failure leaves the session as it is, except for the last statement.
-/
def cancelParts (session token : ℕ) (keys : List Key) (a : Action) : Option Statement :=
  let lease := Lease.cancel token
  let reopening : Request := .discarding (some (session, lease)) []
  match a, keys with
  | .cancelDelete key, keys =>
    if key ∈ keys then some ⟨[], .delete key, .cancelling session token (keys.erase key)⟩ else none
  | .cancelDeleteFailed key landed, keys =>
    if key ∈ keys then some ⟨[], .landing landed (.delete key), .finished⟩ else none
  | .deleteSession, [] =>
    some (if st.owns (some (session, lease)) then ⟨[], .deleteSession session, .finished⟩
      else ⟨[], .none, reopening⟩)
  | .deleteSessionFailed landed, [] =>
    some ⟨[], .landing (landed && st.owns (some (session, lease))) (.deleteSession session),
      reopening⟩
  | _, _ => none

def resetSession (session : ℕ) (lease : Lease) : Effect :=
  if (st.sessions session).any (·.stateToken = some lease) then .reset session else .none

def discard (target : Option (ℕ × Lease)) (keys : List Key) (a : Action) : Option Statement :=
  match a, target, keys with
  | .deleteKey key landed, target, keys =>
    if key ∈ keys then
      some ⟨[], .landing landed (.delete key), .discarding target (keys.erase key)⟩
    else none
  | .reset, some (session, lease), [] => some ⟨[], resetSession st session lease, .finished⟩
  | _, _, _ => none

end Cancel

def Request.target : Request → Option (ℕ × Lease)
  | .completing c | .skipping c _ | .received c _ | .assembling c _ _ _ _ => c.target
  | .promoting p | .promoted p _ | .confirming p => p.target
  | .leased session token | .cancelling session token _ => some (session, .cancel token)
  | .discarding target _ => target
  | _ => none

/-- A completion renews its lease as long as it runs. -/
def heartbeat (st : Store) (q : Request) : Option Statement :=
  match q.target with
  | some (session, .completion token) =>
    some ⟨[], if st.owns (some (session, .completion token)) then .renew session else .none, q⟩
  | _ => none

variable (sha256 : Bytes → Sha256Digest)

def code (st : Store) (q : Request) (a : Action) : Option Statement :=
  match a, q with
  | .tick elapsed, q => some ⟨[], .tick elapsed, q⟩
  | .drop, _ => some ⟨[], .none, .finished⟩
  | .heartbeat, q => heartbeat st q
  | a, .idle => start sha256 st a
  | a, .posted session body => insertSession sha256 session body a
  | a, .streaming snap => putPart st snap a
  | a, .patched snap key body => commitPatch sha256 st snap key body a
  | a, .recovering snap key body => recover st snap key body a
  | a, .completing c => putFinal st c a
  | a, .skipping c key => skipFinal c key a
  | a, .received c final => fetchParts st c final a
  | a, .assembling c final parts todo content => assemble sha256 st c final parts todo content a
  | a, .promoting p => copyBlob st p a
  | a, .promoted p content => commitBlob st p content a
  | a, .confirming p => confirm st p a
  | a, .leased session token => listParts st session token a
  | a, .cancelling session token keys => cancelParts st session token keys a
  | a, .discarding target keys => discard st target keys a
  | _, .finished => none

def service : Protocol Store Request Lock Action Effect where
  holds _ := []
  apply := Effect.apply
  code := code sha256

end ArtifactKeeper.OciUpload
