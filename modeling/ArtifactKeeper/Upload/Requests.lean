import ArtifactKeeper.Upload.Session
import ArtifactKeeper.Library.Protocol

/-!
# State of the chunked upload service

`Store` is what survives a request, with three history fields that only the properties read
(`acknowledged`, `credited`, `finalized`).
-/

namespace ArtifactKeeper.Upload

structure Store where
  session : Session
  chunks : List ChunkRow
  objects : ℤ → Option Bytes
  /-- The `attempts` of the orphan entry, if there is one. -/
  orphan : Option ℕ
  now : ℤ
  nextToken : ℕ
  /-- The bytes of the upload that completed each chunk. -/
  acknowledged : ℤ → Option Bytes
  /-- The chunk of every committed counter increment. -/
  credited : List ℤ
  /-- The token of every `finalize_completed` that returned `true`. -/
  finalized : List (Option ℕ)

def Store.created (session : Session) (chunks : List ChunkRow) (now : ℤ) : Store where
  session := session
  chunks := chunks
  objects _ := none
  orphan := none
  now := now
  nextToken := 0
  acknowledged _ := none
  credited := []
  finalized := []

structure ChunkUpload where
  chunkIndex : ℤ
  byteOffset : ℤ
  data : Bytes
  userId : ℕ
  deriving DecidableEq

structure ChunkResult where
  chunkIndex : ℤ
  bytesReceived : ℤ
  chunksCompleted : ℤ
  chunksRemaining : ℤ
  deriving DecidableEq

/-! ### Effects -/

inductive Effect
  | none
  | tick (elapsed : ℕ)
  | claim
  | renew
  | release
  | finalize (token : Option ℕ)
  | fail
  | cancel
  | stampPurged
  | completeChunk (u : ChunkUpload) (startedAt : ℤ)
  | put (chunkIndex : ℤ) (data : Bytes)
  | delete (chunkIndex : ℤ)
  | setOrphan (attempts : Option ℕ)

def Effect.apply : Effect → Store → Store
  | .none, st => st
  | .tick elapsed, st => { st with now := st.now + elapsed }
  | .claim, st =>
    { st with session := st.session.claim st.nextToken st.now, nextToken := st.nextToken + 1 }
  | .renew, st => { st with session := st.session.renew st.now }
  | .release, st => { st with session := st.session.settle .inProgress }
  | .finalize token, st =>
    { st with session := st.session.settle .completed, finalized := token :: st.finalized }
  | .fail, st => { st with session := st.session.settle .failed }
  | .cancel, st => { st with session := st.session.settle .cancelled }
  | .stampPurged, st => { st with session := st.session.stampPurged st.now }
  | .completeChunk u startedAt, st =>
    { st with
      session := st.session.countChunk u.data.length
      chunks := Rows.update ChunkRow.chunkIndex u.chunkIndex (.complete startedAt) st.chunks
      acknowledged := Function.update st.acknowledged u.chunkIndex (some u.data)
      credited := u.chunkIndex :: st.credited }
  | .put i data, st => { st with objects := Function.update st.objects i (some data) }
  | .delete i, st => { st with objects := Function.update st.objects i Option.none }
  | .setOrphan attempts, st => { st with orphan := attempts }

/-! ### Requests -/

inductive Lock
  | session
  | chunk (chunkIndex : ℤ)
  | orphan
  deriving DecidableEq

inductive Reply
  | chunk (result : ChunkResult)
  | done
  | error (e : UploadError)
  | dropped
  deriving DecidableEq

inductive Request
  | idle
  | checked (u : ChunkUpload) (session : Session)
  | claimed (u : ChunkUpload) (session : Session) (startedAt : ℤ)
  /-- The chunk is stored, the transaction still open. -/
  | staged (u : ChunkUpload) (session : Session) (startedAt : ℤ)
  /-- The counters are updated, the transaction still open. -/
  | counted (u : ChunkUpload) (session : Session) (startedAt completedChunks bytesReceived : ℤ)
  /-- The counter update matched nothing; rolled back. -/
  | refused (u : ChunkUpload)
  /-- The refused chunk could not be deleted. -/
  | queueing (u : ChunkUpload)
  | reporting (u : ChunkUpload)
  | preread (userId : ℕ)
  /-- The lease is taken; `session` is the returned row. -/
  | leased (session : Session)
  | verified (session : Session)
  | releasing (session : Session) (e : UploadError)
  | failing (session : Session) (e : UploadError)
  /-- The completion failed; its staged chunks may be garbage. -/
  | reclaiming (e : UploadError)
  | cancelling (session : Session)
  | explaining
  /-- `purge_staged_chunks` still has these objects to delete. -/
  | purging (remaining : List ℤ) (reply : Reply)
  /-- The reaper holds the session row and still has these objects to delete. -/
  | reaping (remaining : List ℤ)
  /-- The reaper holds the orphan row and still has these objects to delete. -/
  | draining (remaining : List ℤ)
  | recording
  | replied (reply : Reply)

def Request.holds : Request → List Lock
  | .claimed u _ _ | .staged u _ _ => [.chunk u.chunkIndex]
  | .counted u _ _ _ _ => [.chunk u.chunkIndex, .session]
  | .reaping _ => [.session]
  | .draining _ => [.orphan]
  | _ => []

/-- What a request or its surroundings can do next.  A `landed` flag says whether a call that
reported an error took effect all the same. -/
inductive Action
  | tick (elapsed : ℕ)
  | drop
  | uploadChunk (u : ChunkUpload)
  | lockChunk
  | putChunk
  | putChunkFailed (landed : Bool)
  | countChunk
  | commitChunk
  | commitChunkFailed (landed : Bool)
  | deleteRefused
  | deleteRefusedFailed (landed : Bool)
  | queueOrphan (landed : Bool)
  | reportStatus
  | completeSession (userId : ℕ)
  | claimLease
  | countIncomplete
  | countIncompleteFailed
  | renewLease
  | abandon (e : UploadError)
  | reject (e : UploadError)
  | finalizeCompleted
  | finalizeCompletedFailed (landed : Bool)
  | releaseLease (landed : Bool)
  | failCommitting (landed : Bool)
  | reclaimFailed
  | cancelSession (userId : ℕ)
  | claimCancel
  | explainStatus
  | deleteStaged (chunkIndex : ℤ)
  | deleteStagedFailed (chunkIndex : ℤ) (landed : Bool)
  | stampPurged
  | expire
  | reap
  | drainOrphan
  | recordFailure
  deriving DecidableEq

/-! ### Requests of the chunked upload service -/

abbrev Statement := Outcome Request Lock Effect

namespace Statement

def read (next : Request) : Statement := ⟨[], .none, next⟩

/-- A storage call, or a write to rows the request has locked. -/
def write (effect : Effect) (next : Request) : Statement := ⟨[], effect, next⟩

/-- `UPDATE upload_sessions`: waits for the row only when its `WHERE` clause matches. -/
def updateSession (matched : Bool) (effect : Effect) (hit miss : Request) : Statement :=
  if matched then ⟨[.session], effect, hit⟩ else read miss

end Statement

open Statement Machine

def Effect.iff (landed : Bool) (effect : Effect) : Effect := if landed then effect else .none

def chunkIndices (totalChunks : ℤ) : List ℤ := (List.range totalChunks.toNat).map Int.ofNat

/-! ### `upload_chunk` -/

variable (st : Store) (u : ChunkUpload)

def beginUpload : Request :=
  match getSession st.session u.userId st.now with
  | .error e => .replied (.error e)
  | .ok s =>
    if s.status = .completed ∨ s.status = .cancelled ∨ s.status = .committing ∨ s.status = .failed then
      .replied (.error (.invalidStatus s.status.text))
    else if !s.stagedInStorage then .replied (.error .legacySession)
    else .checked u s

/-- A claim nobody finished is taken over after its lease. -/
def staleClaim (row : ChunkRow) (now : ℤ) : Bool :=
  match row.claimedAt with
  | some t => (now - t).tdiv (seconds 1) > chunkClaimLeaseSecs
  | none => true

variable (s : Session)

def claimChunk (row : ChunkRow) : Request :=
  if row.status = .completed then
    .replied (.chunk
      { chunkIndex := u.chunkIndex
        bytesReceived := s.bytesReceived
        chunksCompleted := s.completedChunks
        chunksRemaining := s.totalChunks - s.completedChunks })
  else if row.status = .uploading ∧ !staleClaim row st.now then
    .replied (.error (.chunkInProgress u.chunkIndex))
  else if u.byteOffset ≠ row.byteOffset ∨ (u.data.length : ℤ) ≠ row.byteLength then
    .replied (.error (.invalidChunk
      ("chunk " ++ toString u.chunkIndex ++ " must cover bytes " ++ toString row.byteOffset ++ ".." ++
        toString (row.byteOffset + row.byteLength - 1) ++ " (" ++ toString row.byteLength ++
        " bytes); got offset " ++ toString u.byteOffset ++ " with " ++ toString u.data.length ++
        " bytes")))
  else .claimed u s st.now

/-- `SELECT … FOR UPDATE` on the chunk row, and the claim under its lock. -/
def lockChunk : Statement :=
  match Rows.lookup ChunkRow.chunkIndex u.chunkIndex st.chunks with
  | none => read (.replied (.error (.invalidChunk
      ("chunk_index " ++ toString u.chunkIndex ++ " out of range (0.." ++ toString s.totalChunks ++
        ")"))))
  | some row => ⟨[.chunk u.chunkIndex], .none, claimChunk st u s row⟩

/-- The guarded counter update, inside the transaction. -/
def countChunk (startedAt : ℤ) : Request :=
  if st.session.acceptsChunks then
    .counted u s startedAt (st.session.completedChunks + 1) (st.session.bytesReceived + u.data.length)
  else .refused u

def chunkResult (completedChunks bytesReceived : ℤ) : ChunkResult where
  chunkIndex := u.chunkIndex
  bytesReceived := bytesReceived
  chunksCompleted := completedChunks
  chunksRemaining := s.totalChunks - completedChunks

/-! ### `complete_session` -/

variable (userId : ℕ)

def beginComplete : Request :=
  match getSession st.session userId st.now with
  | .error e => .reclaiming e
  | .ok s =>
    if s.status = .completed then .reclaiming (.invalidStatus "already completed")
    else if s.status = .cancelled then .reclaiming (.invalidStatus "cancelled")
    else if !s.stagedInStorage then .reclaiming .legacySession
    else .preread userId

def claimLease : Statement :=
  updateSession (st.session.claimable userId st.now) .claim
    (.leased (st.session.claim st.nextToken st.now))
    (.reclaiming (.invalidStatus "completion already in progress"))

def countIncomplete : Request :=
  if incompleteChunks st.chunks > 0 then
    .releasing s (.incompleteChunks s.completedChunks s.totalChunks)
  else .verified s

/-- `finalize_completed`; the handler purges whether or not the lease was still held. -/
def finalizeCompleted : Statement :=
  updateSession (st.session.heldBy s.stateToken) (.finalize s.stateToken)
    (.purging (chunkIndices s.totalChunks) .done) (.purging (chunkIndices s.totalChunks) .done)

/-- `finalize_completed` reported a database error: the handler fails the session. -/
def finalizeCompletedFailed (landed : Bool) : Statement :=
  updateSession (landed && st.session.heldBy s.stateToken) (.finalize s.stateToken)
    (.failing s .database) (.failing s .database)

variable (e : UploadError)

def releaseCommitLease (landed : Bool) : Statement :=
  updateSession (landed && st.session.heldBy s.stateToken) .release (.reclaiming e) (.reclaiming e)

def failCommitting (landed : Bool) : Statement :=
  updateSession (landed && st.session.heldBy s.stateToken) .fail (.reclaiming e) (.reclaiming e)

/-- The background renewal of a request in phase `q` that owns the lease of `s`. -/
def renewLease (q : Request) : Statement :=
  updateSession (st.session.heldBy s.stateToken) .renew q q

def reclaimFailed : Request :=
  if st.session.status = .failed ∧ st.session.stagedInStorage ∧ st.session.stagingPurgedAt.isNone then
    .purging (chunkIndices st.session.totalChunks) (.error e)
  else .replied (.error e)

/-! ### `cancel_session`, purging and the reaper -/

def beginCancel : Request :=
  if st.session.userId ≠ userId then .replied (.error .notFound) else .cancelling st.session

def claimCancel : Statement :=
  updateSession (st.session.cancellable st.now) .cancel
    (if s.stagedInStorage then .purging (chunkIndices s.totalChunks) .done else .replied .done)
    .explaining

def explainStatus : Request :=
  if st.session.status = .cancelled then .replied .done
  else .replied (.error (.invalidStatus st.session.status.text))

def orphanPurgeMaxAttempts : ℕ := 24

def deleteStaged (i : ℤ) : Request → Option Statement
  | .purging remaining reply =>
    if i ∈ remaining then some (write (.delete i) (.purging (remaining.erase i) reply)) else none
  | .reaping remaining =>
    if i ∈ remaining then some (write (.delete i) (.reaping (remaining.erase i))) else none
  | .draining remaining =>
    if i ∈ remaining then some (write (.delete i) (.draining (remaining.erase i))) else none
  | _ => none

/-- A delete failed: the purge gives up, the reaper rolls back. -/
def deleteStagedFailed (i : ℤ) (landed : Bool) : Request → Option Statement
  | .purging remaining reply =>
    if i ∈ remaining then some (write (.iff landed (.delete i)) (.replied reply)) else none
  | .reaping remaining =>
    if i ∈ remaining then some (write (.iff landed (.delete i)) (.replied .done)) else none
  | .draining remaining =>
    if i ∈ remaining then some (write (.iff landed (.delete i)) .recording) else none
  | _ => none

/-- All objects are gone: record it. -/
def stampPurged : Request → Option Statement
  | .purging [] reply =>
    some (updateSession st.session.stagingPurgedAt.isNone .stampPurged (.replied reply)
      (.replied reply))
  | .reaping [] => some (write .stampPurged (.replied .done))
  | .draining [] => some (write (.setOrphan none) (.replied .done))
  | _ => none

/-! ### The code -/

def code (q : Request) (a : Action) : Option Statement :=
  match a, q with
  | .tick elapsed, q => some (write (.tick elapsed) q)
  | .drop, _ => some (read (.replied .dropped))
  | .uploadChunk u, .idle => some (read (beginUpload st u))
  | .lockChunk, .checked u s => some (lockChunk st u s)
  | .putChunk, .claimed u s t => some (write (.put u.chunkIndex u.data) (.staged u s t))
  | .putChunkFailed landed, .claimed u _ _ =>
    some (write (.iff landed (.put u.chunkIndex u.data)) (.replied (.error .storage)))
  | .countChunk, .staged u s t => some (read (countChunk st u s t))
  | .commitChunk, .counted u s t completed bytes =>
    some (write (.completeChunk u t) (.replied (.chunk (chunkResult u s completed bytes))))
  | .commitChunkFailed landed, .counted u _ t _ _ =>
    some (write (.iff landed (.completeChunk u t)) (.replied (.error .database)))
  | .deleteRefused, .refused u => some (write (.delete u.chunkIndex) (.reporting u))
  | .deleteRefusedFailed landed, .refused u =>
    some (write (.iff landed (.delete u.chunkIndex)) (.queueing u))
  | .queueOrphan landed, .queueing u =>
    some (write (.iff (landed && st.orphan.isNone) (.setOrphan (some 0))) (.reporting u))
  | .reportStatus, .reporting _ =>
    some (read (.replied (.error (.invalidStatus st.session.status.text))))
  | .completeSession userId, .idle => some (read (beginComplete st userId))
  | .claimLease, .preread userId => some (claimLease st userId)
  | .countIncomplete, .leased s => some (read (countIncomplete st s))
  | .countIncompleteFailed, .leased s => some (read (.releasing s .database))
  | .renewLease, .verified s => some (renewLease st s (.verified s))
  | .renewLease, .releasing s e => some (renewLease st s (.releasing s e))
  | .renewLease, .failing s e => some (renewLease st s (.failing s e))
  | .abandon e, .verified s => some (read (.releasing s e))
  | .reject e, .verified s => some (read (.failing s e))
  | .finalizeCompleted, .verified s => some (finalizeCompleted st s)
  | .finalizeCompletedFailed landed, .verified s => some (finalizeCompletedFailed st s landed)
  | .releaseLease landed, .releasing s e => some (releaseCommitLease st s e landed)
  | .failCommitting landed, .failing s e => some (failCommitting st s e landed)
  | .reclaimFailed, .reclaiming e => some (read (reclaimFailed st e))
  | .cancelSession userId, .idle => some (read (beginCancel st userId))
  | .claimCancel, .cancelling s => some (claimCancel st s)
  | .explainStatus, .explaining => some (read (explainStatus st))
  | .deleteStaged i, q => deleteStaged i q
  | .deleteStagedFailed i landed, q => deleteStagedFailed i landed q
  | .stampPurged, q => stampPurged st q
  | .expire, .idle =>
    if st.session.expirable st.now then some ⟨[.session], .cancel, .idle⟩ else none
  | .reap, .idle =>
    if st.session.reapable then some (read (.reaping (chunkIndices st.session.totalChunks))) else none
  | .drainOrphan, .idle =>
    if st.orphan.any (· < orphanPurgeMaxAttempts) then
      some (read (.draining (chunkIndices st.session.totalChunks)))
    else none
  | .recordFailure, .recording =>
    match st.orphan with
    | some n => some ⟨[.orphan], .setOrphan (some (n + 1)), .replied .done⟩
    | none => some (read (.replied .done))
  | _, _ => none

def service : Protocol Store Request Lock Action Effect where
  holds := Request.holds
  apply := Effect.apply
  code := code

def freshWorld (p : CreateSessionParams) (now : ℤ) : Option (World Store Request Lock) :=
  match createSession p now with
  | .ok (session, chunks) => some ⟨.created session chunks now, .idle .idle⟩
  | .error _ => none

/-- Initial states: some session was just created. -/
def Fresh (w : World Store Request Lock) : Prop := ∃ p now, freshWorld p now = some w

theorem Fresh.created {w} (h : Fresh w) :
    ∃ p now session chunks, createSession p now = .ok (session, chunks) ∧
      w = ⟨.created session chunks now, .idle .idle⟩ := by
  obtain ⟨p, now, made⟩ := h
  unfold freshWorld at made
  split at made
  · next session chunks ok => exact ⟨p, now, session, chunks, ok, (Option.some.inj made).symm⟩
  · contradiction

/-! ### What a step of the upload service can do -/

variable {st} {q next : Request} {a : Action} {o : Statement} {s}

/-- The phase and the guard behind a write. -/
def Warranted (st : Store) (q : Request) : Effect → Prop
  | .none | .tick _ | .setOrphan _ | .stampPurged => True
  | .claim => ∃ userId, q = .preread userId ∧ st.session.claimable userId st.now
  | .renew => st.session.status = .committing
  | .release => ∃ s e, q = .releasing s e ∧ st.session.heldBy s.stateToken
  | .finalize token => ∃ s, q = .verified s ∧ token = s.stateToken ∧ st.session.heldBy s.stateToken
  | .fail => ∃ s e, q = .failing s e ∧ st.session.heldBy s.stateToken
  | .cancel => st.session.status.terminal = false
  | .completeChunk u t => ∃ s c b, q = .counted u s t c b
  | .put i data => ∃ u s t, q = .claimed u s t ∧ i = u.chunkIndex ∧ data = u.data
  | .delete i => (∃ u, q = .refused u ∧ i = u.chunkIndex) ∨ (∃ r reply, q = .purging r reply) ∨
      (∃ r, q = .reaping r) ∨ ∃ r, q = .draining r

/-- What has just been established when a request arrives at a new phase by a write `w`. -/
def Arrival (st : Store) (q : Request) (w : Effect) : Request → Prop
  | .claimed u _ _ => w = .none ∧ ∃ row ∈ st.chunks, row.chunkIndex = u.chunkIndex ∧
      row.status ≠ .completed ∧ row.byteLength = u.data.length
  | .staged u s t => q = .claimed u s t ∧ w = .put u.chunkIndex u.data
  | .counted u s t c b => w = .none ∧ q = .staged u s t ∧ st.session.acceptsChunks ∧
      c = st.session.completedChunks + 1 ∧ b = st.session.bytesReceived + u.data.length
  | .leased s => w = .claim ∧ s = st.session.claim st.nextToken st.now
  | .verified s => w = .none ∧ q = .leased s ∧ incompleteChunks st.chunks = 0
  | .releasing s _ => w = .none ∧ (q = .leased s ∨ q = .verified s)
  | .failing s _ => q = .verified s
  | .purging _ _ => (w.apply st).session.status.terminal ∨
      (∃ s, q = .verified s ∧ st.session.heldBy s.stateToken = false) ∨
      ∃ i r reply, w = .delete i ∧ q = .purging r reply
  | .reaping _ => (w = .none ∧ st.session.reapable) ∨ ∃ i r, w = .delete i ∧ q = .reaping r
  | _ => True

theorem heldBy_committing {token : Option ℕ} (h : s.heldBy token) :
    s.status = .committing ∧ token.isSome ∧ s.stateToken = token := by
  simpa [Session.heldBy, and_assoc] using h

/-- Writes a request can make without moving on. -/
def Effect.passive : Effect → Bool
  | .none | .tick _ | .renew => true
  | _ => false

structure Sound (st : Store) (q : Request) (o : Statement) : Prop where
  warranted : Warranted st q o.effect
  arrival : (o.next = q ∧ o.effect.passive) ∨ Arrival st q o.effect o.next
  frame : .session ∈ o.touches ∨ .session ∈ q.holds ∨ (o.effect.apply st).session = st.session

/-! ### Statements -/

theorem sound_read (arrival : Arrival st q .none next) : Sound st q (read next) :=
  ⟨trivial, .inr arrival, .inr (.inr rfl)⟩

theorem sound_updateSession {matched : Bool} {w : Effect} {hit miss : Request}
    (onHit : matched = true → Warranted st q w ∧ ((hit = q ∧ w.passive) ∨ Arrival st q w hit))
    (onMiss : matched = false → (miss = q ∧ Effect.passive .none) ∨ Arrival st q .none miss) :
    Sound st q (updateSession matched w hit miss) := by
  unfold updateSession
  split_ifs with h
  · exact ⟨(onHit h).1, (onHit h).2, .inl (by simp)⟩
  · exact ⟨trivial, onMiss (Bool.eq_false_iff.2 h), .inr (.inr rfl)⟩

theorem sound_iff {landed : Bool} {w : Effect} (yes : Sound st q (write w next))
    (no : Sound st q (read next)) :
    Sound st q (write (.iff landed w) next) := by
  cases landed
  · exact no
  · exact yes

/-! ### Functions -/

theorem cancellable_open {now : ℤ} (h : s.cancellable now) : s.status.terminal = false := by
  cases hs : s.status <;> simp_all [Session.cancellable, Session.acceptsChunks, Status.terminal]

theorem expirable_open {now : ℤ} (h : s.expirable now) : s.status.terminal = false := by
  simp only [Session.expirable, Bool.and_eq_true, Bool.not_eq_true'] at h
  exact h.1.2

variable (s)

theorem beginUpload_sound : Sound st q (read (beginUpload st u)) := by
  apply sound_read
  unfold beginUpload
  split
  · trivial
  · split_ifs <;> trivial

theorem lockChunk_sound : Sound st q (lockChunk st u s) := by
  unfold lockChunk
  split
  · exact sound_read trivial
  · next row found =>
    obtain ⟨mem, index⟩ := Rows.lookup_eq_some found
    refine ⟨trivial, .inr ?_, .inr (.inr rfl)⟩
    unfold claimChunk
    split_ifs with done busy range
    · trivial
    · trivial
    · trivial
    · push Not at range
      exact ⟨rfl, row, mem, index, done, range.2.symm⟩

theorem countChunk_sound (t : ℤ) : Sound st (.staged u s t) (read (countChunk st u s t)) := by
  apply sound_read
  unfold countChunk
  split_ifs with accepts
  · exact ⟨rfl, rfl, accepts, rfl, rfl⟩
  · trivial

theorem beginComplete_sound : Sound st q (read (beginComplete st userId)) := by
  apply sound_read
  unfold beginComplete
  split
  · trivial
  · split_ifs <;> trivial

theorem claimLease_sound : Sound st (.preread userId) (claimLease st userId) :=
  sound_updateSession (fun claimable => ⟨⟨userId, rfl, claimable⟩, .inr ⟨rfl, rfl⟩⟩)
    fun _ => .inr trivial

theorem countIncomplete_sound : Sound st (.leased s) (read (countIncomplete st s)) := by
  apply sound_read
  unfold countIncomplete
  split_ifs with missing
  · exact ⟨rfl, .inl rfl⟩
  · exact ⟨rfl, rfl, Nat.eq_zero_of_not_pos missing⟩

theorem renewLease_sound : Sound st q (renewLease st s q) :=
  sound_updateSession (fun held => ⟨(heldBy_committing held).1, .inl ⟨rfl, rfl⟩⟩)
    fun _ => .inl ⟨rfl, rfl⟩

theorem finalizeCompleted_sound : Sound st (.verified s) (finalizeCompleted st s) :=
  sound_updateSession (fun held => ⟨⟨s, rfl, rfl, held⟩, .inr (.inl rfl)⟩)
    fun lost => .inr (.inr (.inl ⟨s, rfl, lost⟩))

theorem finalizeCompletedFailed_sound (landed : Bool) :
    Sound st (.verified s) (finalizeCompletedFailed st s landed) := by
  refine sound_updateSession (fun held => ?_) fun _ => .inr rfl
  rw [Bool.and_eq_true] at held
  exact ⟨⟨s, rfl, rfl, held.2⟩, .inr rfl⟩

theorem releaseCommitLease_sound (landed : Bool) :
    Sound st (.releasing s e) (releaseCommitLease st s e landed) := by
  refine sound_updateSession (fun held => ?_) fun _ => .inr trivial
  rw [Bool.and_eq_true] at held
  exact ⟨⟨s, e, rfl, held.2⟩, .inr trivial⟩

theorem failCommitting_sound (landed : Bool) :
    Sound st (.failing s e) (failCommitting st s e landed) := by
  refine sound_updateSession (fun held => ?_) fun _ => .inr trivial
  rw [Bool.and_eq_true] at held
  exact ⟨⟨s, e, rfl, held.2⟩, .inr trivial⟩

theorem reclaimFailed_sound : Sound st q (read (reclaimFailed st e)) := by
  apply sound_read
  unfold reclaimFailed
  split_ifs with failed
  · exact .inl (by simp [Effect.apply, failed.1, Status.terminal])
  · trivial

theorem beginCancel_sound : Sound st q (read (beginCancel st userId)) := by
  apply sound_read
  unfold beginCancel
  split_ifs <;> trivial

theorem claimCancel_sound : Sound st q (claimCancel st s) := by
  refine sound_updateSession (fun h => ⟨cancellable_open h, .inr ?_⟩) fun _ => .inr trivial
  split_ifs
  · exact .inl rfl
  · trivial

theorem explainStatus_sound : Sound st q (read (explainStatus st)) := by
  apply sound_read
  unfold explainStatus
  split_ifs <;> trivial

theorem deleteStaged_sound {i : ℤ} (h : deleteStaged i q = some o) : Sound st q o := by
  unfold deleteStaged at h
  split at h <;> try contradiction
  all_goals
    split_ifs at h
    cases h
    refine ⟨?_, .inr ?_, .inr (.inr rfl)⟩ <;> simp [Warranted, Arrival, write]

theorem deleteStagedFailed_sound {i : ℤ} {landed : Bool}
    (h : deleteStagedFailed i landed q = some o) : Sound st q o := by
  unfold deleteStagedFailed at h
  split at h <;> try contradiction
  all_goals
    split_ifs at h
    cases h
    refine sound_iff ⟨?_, .inr trivial, .inr (.inr rfl)⟩ (sound_read trivial)
    simp [Warranted, write]

theorem stampPurged_sound (h : stampPurged st q = some o) : Sound st q o := by
  unfold stampPurged at h
  split at h
  · cases h
    exact sound_updateSession (fun _ => ⟨trivial, .inr trivial⟩) fun _ => .inr trivial
  · cases h
    exact ⟨trivial, .inr trivial, .inr (.inl (by simp [Request.holds]))⟩
  · cases h
    exact ⟨trivial, .inr trivial, .inr (.inr rfl)⟩
  · contradiction

theorem putChunk_sound (t : ℤ) :
    Sound st (.claimed u s t) (write (.put u.chunkIndex u.data) (.staged u s t)) :=
  ⟨⟨u, s, t, rfl, rfl, rfl⟩, .inr ⟨rfl, rfl⟩, .inr (.inr rfl)⟩

theorem putChunkFailed_sound (t : ℤ) (landed : Bool) :
    Sound st (.claimed u s t)
      (write (.iff landed (.put u.chunkIndex u.data)) (.replied (.error .storage))) :=
  sound_iff ⟨⟨u, s, t, rfl, rfl, rfl⟩, .inr trivial, .inr (.inr rfl)⟩ (sound_read trivial)

theorem commitChunk_sound (t c b : ℤ) (reply : Reply) :
    Sound st (.counted u s t c b) (write (.completeChunk u t) (.replied reply)) :=
  ⟨⟨s, c, b, rfl⟩, .inr trivial, .inr (.inl (by simp [Request.holds]))⟩

theorem deleteRefused_sound (arrival : ∀ w, Arrival st (.refused u) w next) :
    Sound st (.refused u) (write (.delete u.chunkIndex) next) :=
  ⟨.inl ⟨u, rfl, rfl⟩, .inr (arrival _), .inr (.inr rfl)⟩

theorem code_sound (h : code st q a = some o) : Sound st q o := by
  -- One case per arm of `code`, in its order.
  unfold code at h
  split at h
  · cases h; exact ⟨trivial, .inl ⟨rfl, rfl⟩, .inr (.inr rfl)⟩
  · cases h; exact sound_read trivial
  · cases h; exact beginUpload_sound _
  · cases h; exact lockChunk_sound _ _
  · cases h; exact putChunk_sound _ _ _
  · cases h; exact putChunkFailed_sound _ _ _ _
  · cases h; exact countChunk_sound _ _ _
  · cases h; exact commitChunk_sound _ _ _ _ _ _
  · cases h; exact sound_iff (commitChunk_sound _ _ _ _ _ _) (sound_read trivial)
  · cases h; exact deleteRefused_sound _ fun _ => trivial
  · cases h
    exact sound_iff (deleteRefused_sound _ fun _ => trivial) (sound_read trivial)
  · cases h
    exact sound_iff ⟨trivial, .inr trivial, .inr (.inr rfl)⟩ (sound_read trivial)
  · cases h; exact sound_read trivial
  · cases h; exact beginComplete_sound _
  · cases h; exact claimLease_sound _
  · cases h; exact countIncomplete_sound _
  · cases h; exact sound_read ⟨rfl, .inl rfl⟩
  · cases h; exact renewLease_sound _
  · cases h; exact renewLease_sound _
  · cases h; exact renewLease_sound _
  · cases h; exact sound_read ⟨rfl, .inr rfl⟩
  · cases h; exact sound_read rfl
  · cases h; exact finalizeCompleted_sound _
  · cases h; exact finalizeCompletedFailed_sound _ _
  · cases h; exact releaseCommitLease_sound _ _ _
  · cases h; exact failCommitting_sound _ _ _
  · cases h; exact reclaimFailed_sound _
  · cases h; exact beginCancel_sound _
  · cases h; exact claimCancel_sound _
  · cases h; exact explainStatus_sound
  · exact deleteStaged_sound h
  · exact deleteStagedFailed_sound h
  · exact stampPurged_sound h
  · split at h
    next expirable => cases h; exact ⟨expirable_open expirable, .inr trivial, .inl (by simp)⟩
    next => cases h
  · split at h
    next reapable => cases h; exact sound_read (.inl ⟨rfl, reapable⟩)
    next => cases h
  · split at h
    next => cases h; exact sound_read trivial
    next => cases h
  · split at h
    next => cases h; exact ⟨trivial, .inr trivial, .inr (.inr rfl)⟩
    next => cases h; exact sound_read trivial
  · cases h

end ArtifactKeeper.Upload
