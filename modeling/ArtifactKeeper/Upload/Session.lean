import ArtifactKeeper.Library.Machine
import ArtifactKeeper.Library.Rows
import ArtifactKeeper.Library.Tiling
import Mathlib.Tactic.Linarith
import Mathlib.Tactic.Ring

/-!
# Chunked upload sessions

The rows of `upload_sessions` and `upload_chunks`, the objects staged for one session, and the
statements of `upload_service.rs` as functions on them.  A guarded statement is a pair: the
predicate of its `WHERE` clause on the session row and what it writes.
-/

namespace ArtifactKeeper.Upload

open Machine List

abbrev Bytes := List UInt8

/-! ### Rows -/

inductive Status
  | pending | inProgress | committing | completed | failed | cancelled
  deriving DecidableEq

def Status.text : Status → String
  | pending => "pending"
  | inProgress => "in_progress"
  | committing => "committing"
  | completed => "completed"
  | failed => "failed"
  | cancelled => "cancelled"

/-- No statement moves a session out of these. -/
def Status.terminal : Status → Bool
  | completed | failed | cancelled => true
  | pending | inProgress | committing => false

inductive ChunkStatus
  | pending | uploading | completed | failed
  deriving DecidableEq

structure ChunkRow where
  chunkIndex : ℤ
  byteOffset : ℤ
  byteLength : ℤ
  status : ChunkStatus
  claimedAt : Option ℤ
  deriving DecidableEq

structure Session where
  userId : ℕ
  totalSize : ℤ
  chunkSize : ℤ
  totalChunks : ℤ
  completedChunks : ℤ
  bytesReceived : ℤ
  status : Status
  stateToken : Option ℕ
  committingExpiresAt : Option ℤ
  stagedInStorage : Bool
  stagingPurgedAt : Option ℤ
  expiresAt : ℤ
  deriving DecidableEq

inductive UploadError
  | database
  | notFound
  | expired
  | invalidChunk (detail : String)
  | chunkInProgress (chunkIndex : ℤ)
  | checksumMismatch
  | incompleteChunks (completed total : ℤ)
  | invalidStatus (status : String)
  | invalidChunkSize
  | tooLarge (size : ℤ) (max : ℕ)
  | legacySession
  | storage
  deriving DecidableEq

/-! ### Creating a session -/

def minChunkSize : ℤ := 1048576
def maxChunkSize : ℤ := 268435456
def defaultChunkSize : ℤ := 8388608

def commitLeaseTtl : ℤ := seconds (6 * 3600)

def chunkClaimLeaseSecs : ℤ := 300

structure CreateSessionParams where
  userId : ℕ
  totalSize : ℤ
  maxUploadSize : ℕ
  chunkSize : Option ℤ

def enforceMaxTotalSize (totalSize : ℤ) (max : ℕ) : Except UploadError Unit :=
  if max ≠ 0 ∧ totalSize > max then .error (.tooLarge totalSize max) else .ok ()

/-- Number of chunks, as computed in `i64` and narrowed to `i32`. -/
def chunkCount (totalSize chunkSize : ℤ) : ℤ :=
  asI32 ((asI64 (asI64 (totalSize + chunkSize) - 1)).tdiv chunkSize)

def placeholder (totalSize chunkSize totalChunks : ℤ) (i : ℕ) : ChunkRow :=
  let offset := i * chunkSize
  { chunkIndex := i
    byteOffset := offset
    byteLength := if (i : ℤ) = totalChunks - 1 then asI32 (totalSize - offset) else chunkSize
    status := .pending
    claimedAt := none }

def placeholders (totalSize chunkSize totalChunks : ℤ) : List ChunkRow :=
  (range totalChunks.toNat).map (placeholder totalSize chunkSize totalChunks)

def createSession (p : CreateSessionParams) (now : ℤ) :
    Except UploadError (Session × List ChunkRow) := do
  if p.totalSize ≤ 0 then
    .error (.invalidChunk "total_size must be a positive integer")
  enforceMaxTotalSize p.totalSize p.maxUploadSize
  let chunkSize := p.chunkSize.getD defaultChunkSize
  if chunkSize < minChunkSize ∨ chunkSize > maxChunkSize then
    .error .invalidChunkSize
  let totalChunks := chunkCount p.totalSize chunkSize
  let session : Session :=
    { userId := p.userId
      totalSize := p.totalSize
      chunkSize := chunkSize
      totalChunks := totalChunks
      completedChunks := 0
      bytesReceived := 0
      status := .pending
      stateToken := none
      committingExpiresAt := none
      stagedInStorage := true
      stagingPurgedAt := none
      expiresAt := now + seconds (24 * 3600) }
  .ok (session, placeholders p.totalSize chunkSize totalChunks)

variable {p : CreateSessionParams} {now : ℤ} {session : Session} {chunks : List ChunkRow}

theorem createSession_ok (h : createSession p now = .ok (session, chunks)) :
    session.completedChunks = 0 ∧ session.bytesReceived = 0 ∧ session.status = .pending ∧
      session.stateToken = none ∧
      chunks = placeholders session.totalSize session.chunkSize session.totalChunks := by
  simp only [createSession, enforceMaxTotalSize, bind, Except.bind] at h
  split_ifs at h
  simp only [Except.ok.injEq, Prod.mk.injEq] at h
  obtain ⟨rfl, rfl⟩ := h
  exact ⟨rfl, rfl, rfl, rfl, rfl⟩

theorem placeholders_chunkIndex (totalSize chunkSize totalChunks : ℤ) :
    (placeholders totalSize chunkSize totalChunks).map ChunkRow.chunkIndex =
      (range totalChunks.toNat).map Int.ofNat := by
  unfold placeholders
  rw [map_map]
  rfl

/-! ### Reading a session -/

def getSession (s : Session) (userId : ℕ) (now : ℤ) : Except UploadError Session :=
  if s.userId ≠ userId then .error .notFound
  else if s.expiresAt < now then .error .expired
  else .ok s

namespace Session

variable (s : Session)

/-! ### Guards: the `WHERE` clauses -/

/-- The counter update of `upload_chunk`. -/
def acceptsChunks : Bool := s.status = .pending || s.status = .inProgress

variable (now : ℤ)

def leaseLapsed : Bool := s.committingExpiresAt.any (· ≤ now)

def claimable (userId : ℕ) (now : ℤ) : Bool :=
  s.userId = userId && (s.acceptsChunks || (s.status = .committing && s.leaseLapsed now))

/-- The token guard of renew, finalize, fail and release; a `NULL` token matches nothing. -/
def heldBy (token : Option ℕ) : Bool :=
  s.status = .committing && token.isSome && s.stateToken = token

def cancellable : Bool :=
  s.acceptsChunks ||
    (s.status = .committing && (s.committingExpiresAt.isNone || s.leaseLapsed now))

def expirable : Bool :=
  s.expiresAt < now && !s.status.terminal &&
    (s.status ≠ .committing || s.committingExpiresAt.isNone || s.leaseLapsed now)

def reapable : Bool := s.stagedInStorage && s.stagingPurgedAt.isNone && s.status.terminal

/-! ### Writes: the `SET` clauses -/

def claim (token : ℕ) (now : ℤ) : Session :=
  { s with status := .committing, stateToken := some token
           committingExpiresAt := some (now + commitLeaseTtl) }

def renew : Session := { s with committingExpiresAt := some (now + commitLeaseTtl) }

/-- End the lease in the given status. -/
def settle (status : Status) : Session :=
  { s with status := status, stateToken := none, committingExpiresAt := none }

/-- The counter update of `upload_chunk`. -/
def countChunk (length : ℤ) : Session :=
  { s with completedChunks := s.completedChunks + 1
           bytesReceived := s.bytesReceived + length
           status := if s.status = .pending then .inProgress else s.status }

def stampPurged : Session := { s with stagingPurgedAt := some now }

end Session

/-- The chunk row after `upload_chunk` completed it in a transaction begun at `startedAt`. -/
def ChunkRow.complete (startedAt : ℤ) (row : ChunkRow) : ChunkRow :=
  { row with status := .completed, claimedAt := some startedAt }

/-- Chunks of the session that are not completed: the count of `complete_session`. -/
def incompleteChunks (chunks : List ChunkRow) : ℕ :=
  chunks.countP fun row => row.status ≠ .completed

/-! ### Placeholder chunks -/

open Tiling

/-- The rows, in index order, are adjacent intervals of at most `chunkSize` bytes that partition the
`totalSize` bytes of the upload. -/
structure Partitions (rows : List ChunkRow) (chunkSize totalSize : ℤ) : Prop where
  indices : rows.map ChunkRow.chunkIndex = (range rows.length).map Int.ofNat
  lengths : ∀ row ∈ rows, 1 ≤ row.byteLength ∧ row.byteLength ≤ chunkSize
  adjacent : Tiles ChunkRow.byteOffset ChunkRow.byteLength rows 0 totalSize
  covers : ∀ k, 0 ≤ k → k < totalSize →
    ∃! row, row ∈ rows ∧ Covers ChunkRow.byteOffset ChunkRow.byteLength k row

theorem createSession_admits (h : createSession p now = .ok (session, chunks)) :
    0 < p.totalSize ∧ session.totalSize = p.totalSize ∧
      session.chunkSize = p.chunkSize.getD defaultChunkSize ∧
      minChunkSize ≤ session.chunkSize ∧ session.chunkSize ≤ maxChunkSize ∧
      session.totalChunks = chunkCount session.totalSize session.chunkSize := by
  simp only [createSession, enforceMaxTotalSize, bind, Except.bind] at h
  split_ifs at h with nonpositive _ admitted
  simp only [Except.ok.injEq, Prod.mk.injEq] at h
  obtain ⟨rfl, -⟩ := h
  simp only [not_or, not_lt] at admitted
  exact ⟨by omega, rfl, rfl, admitted.1, admitted.2, rfl⟩

/-! ### The chunk count -/

theorem asI32_lt (x : ℤ) : asI32 x ≤ 2 ^ 31 - 1 := by
  have bound := Int.bmod_lt (x := x) (m := 2 ^ 32) (by norm_num)
  unfold asI32
  omega

theorem asI32_of_lt {x : ℤ} (low : 0 ≤ x) (high : x < 2 ^ 31) : asI32 x = x :=
  Int.bmod_eq_of_le (by omega) (by omega)

theorem asI64_of_lt {x : ℤ} (low : 0 ≤ x) (high : x < 2 ^ 63) : asI64 x = x :=
  Int.bmod_eq_of_le (by omega) (by omega)

/-- As long as the number fits, it is the quotient rounded up. -/
theorem chunkCount_bounds {totalSize chunkSize : ℤ} (positive : 0 < totalSize)
    (nonempty : 1 ≤ chunkSize) (small : chunkSize ≤ maxChunkSize)
    (fits : totalSize ≤ (2 ^ 31 - 1) * chunkSize) :
    (chunkCount totalSize chunkSize - 1) * chunkSize < totalSize ∧
      totalSize ≤ chunkCount totalSize chunkSize * chunkSize := by
  unfold maxChunkSize at small
  have noOverflow : asI64 (asI64 (totalSize + chunkSize) - 1) = totalSize + chunkSize - 1 := by
    rw [asI64_of_lt (x := totalSize + chunkSize) (by omega) (by omega)]
    exact asI64_of_lt (by omega) (by omega)
  have below := Int.ediv_mul_le (totalSize + chunkSize - 1) (b := chunkSize) (by omega)
  have above := Int.lt_ediv_add_one_mul_self (totalSize + chunkSize - 1) (b := chunkSize) (by omega)
  have narrow : (totalSize + chunkSize - 1) / chunkSize < 2 ^ 31 := by
    refine Int.ediv_lt_of_lt_mul (by omega) ?_
    linarith
  have count : chunkCount totalSize chunkSize = (totalSize + chunkSize - 1) / chunkSize := by
    unfold chunkCount
    rw [noOverflow, Int.tdiv_eq_ediv_of_nonneg (by omega)]
    exact asI32_of_lt (Int.ediv_nonneg (by omega) (by omega)) narrow
  rw [count]
  constructor <;> linarith

/-! ### The rows -/

variable {totalSize chunkSize totalChunks : ℤ}

theorem placeholders_length (nonnegative : 0 ≤ totalChunks) :
    ((placeholders totalSize chunkSize totalChunks).length : ℤ) = totalChunks := by
  simp [placeholders, nonnegative]

theorem placeholder_byteLength (last : totalSize - (totalChunks - 1) * chunkSize ≤ chunkSize)
    (positive : 1 ≤ totalSize - (totalChunks - 1) * chunkSize) (small : chunkSize ≤ maxChunkSize)
    {i : ℕ} (inside : (i : ℤ) < totalChunks) :
    (placeholder totalSize chunkSize totalChunks i).byteLength =
      min ((i + 1) * chunkSize) totalSize - i * chunkSize := by
  unfold maxChunkSize at small
  by_cases final : (i : ℤ) = totalChunks - 1
  · have narrowed : asI32 (totalSize - i * chunkSize) = totalSize - i * chunkSize := by
      rw [final]
      exact asI32_of_lt (by omega) (by omega)
    have ends : totalSize ≤ (i + 1) * chunkSize := by
      rw [final]
      linarith
    simp only [placeholder, final, ↓reduceIte]
    rw [← final, narrowed, min_eq_right ends]
  · have more : ((i : ℤ) + 1) * chunkSize ≤ (totalChunks - 1) * chunkSize :=
      mul_le_mul_of_nonneg_right (by omega) (by omega)
    simp only [placeholder, final, ↓reduceIte]
    rw [min_eq_left (by omega)]
    ring

theorem placeholders_tile (nonempty : 1 ≤ chunkSize) (small : chunkSize ≤ maxChunkSize)
    (some : 0 < totalChunks) (below : (totalChunks - 1) * chunkSize < totalSize)
    (above : totalSize ≤ totalChunks * chunkSize) :
    Tiles ChunkRow.byteOffset ChunkRow.byteLength
      (placeholders totalSize chunkSize totalChunks) 0 totalSize := by
  have before {i : ℕ} (inside : (i : ℤ) < totalChunks) : i * chunkSize < totalSize := by
    have step : (i : ℤ) * chunkSize ≤ (totalChunks - 1) * chunkSize :=
      mul_le_mul_of_nonneg_right (by omega) (by omega)
    omega
  let cut (i : ℕ) : ℤ := min (i * chunkSize) totalSize
  have starts : ∀ i < totalChunks.toNat,
      (placeholder totalSize chunkSize totalChunks i).byteOffset = cut i := by
    intro i _
    exact (min_eq_left (before (by omega)).le).symm
  have ends : ∀ i < totalChunks.toNat,
      (placeholder totalSize chunkSize totalChunks i).byteLength = cut (i + 1) - cut i := by
    intro i _
    have here : cut i = i * chunkSize := min_eq_left (before (by omega)).le
    rw [placeholder_byteLength (by linarith) (by omega) small (by omega), here]
    simp only [cut, Nat.cast_add, Nat.cast_one]
  have tiles := tiles_map_range totalChunks.toNat starts ends
  have first : cut 0 = 0 := by
    have start := before (i := 0) (by simpa using some)
    simp only [cut, Nat.cast_zero, zero_mul] at start ⊢
    exact min_eq_left start.le
  have last : cut totalChunks.toNat = totalSize := by
    simp only [cut]
    rw [Int.toNat_of_nonneg some.le]
    exact min_eq_right above
  rwa [first, last] at tiles

theorem placeholders_lengths (nonempty : 1 ≤ chunkSize) (small : chunkSize ≤ maxChunkSize)
    (below : (totalChunks - 1) * chunkSize < totalSize)
    (above : totalSize ≤ totalChunks * chunkSize) :
    ∀ row ∈ placeholders totalSize chunkSize totalChunks,
      1 ≤ row.byteLength ∧ row.byteLength ≤ chunkSize := by
  intro _ mem
  simp only [placeholders, mem_map, mem_range] at mem
  obtain ⟨i, _, rfl⟩ := mem
  have step : (i : ℤ) * chunkSize ≤ (totalChunks - 1) * chunkSize :=
    mul_le_mul_of_nonneg_right (by omega) (by omega)
  have next : ((i : ℤ) + 1) * chunkSize = i * chunkSize + chunkSize := by ring
  rw [placeholder_byteLength (by linarith) (by omega) small (by omega), next]
  omega

/-- The rows partition the upload exactly when their number fits in an `i32`. -/
theorem chunks_partition_iff (created : createSession p now = .ok (session, chunks)) :
    (session.totalChunks = chunks.length ∧
      Partitions chunks (p.chunkSize.getD defaultChunkSize) p.totalSize) ↔
    p.totalSize ≤ (2 ^ 31 - 1) * p.chunkSize.getD defaultChunkSize := by
  obtain ⟨positive, total, size, large, small, count⟩ := createSession_admits created
  obtain ⟨-, -, -, -, rows⟩ := createSession_ok created
  rw [← size, ← total]
  rw [← total] at positive
  have nonempty : 1 ≤ session.chunkSize := by
    unfold minChunkSize at large
    omega
  constructor
  · rintro ⟨counted, partition⟩
    have reach := partition.adjacent.le_mul fun row mem => (partition.lengths row mem).2
    have narrow : (chunks.length : ℤ) ≤ 2 ^ 31 - 1 := by
      rw [← counted, count]
      exact asI32_lt _
    have grow := mul_le_mul_of_nonneg_right narrow (show 0 ≤ session.chunkSize by omega)
    omega
  · intro fits
    obtain ⟨below, above⟩ := chunkCount_bounds positive nonempty small fits
    rw [← count] at below above
    have some : 0 < session.totalChunks :=
      pos_of_mul_pos_left (by omega : 0 < session.totalChunks * session.chunkSize) (by omega)
    have length : ((placeholders session.totalSize session.chunkSize session.totalChunks).length : ℤ) =
        session.totalChunks := placeholders_length some.le
    have lengths := placeholders_lengths nonempty small below above
    have tiles := placeholders_tile nonempty small some below above
    rw [rows]
    refine ⟨length.symm, ⟨?_, lengths, tiles, fun k from_zero before => ?_⟩⟩
    · rw [placeholders_chunkIndex]
      congr 2
      omega
    · exact tiles.existsUnique (fun row mem => (lengths row mem).1) from_zero before

/-- An upload of two chunks and a byte. -/
theorem chunks_partition_iff_three : ∃ session chunks,
    createSession ⟨0, 2097153, 10737418240, some 1048576⟩ 0 = .ok (session, chunks) ∧
      session.totalChunks = 3 ∧ session.totalChunks = chunks.length ∧
      Partitions chunks 1048576 2097153 := by
  have created : createSession ⟨0, 2097153, 10737418240, some 1048576⟩ 0 = .ok
      (⟨0, 2097153, 1048576, 3, 0, 0, .pending, none, none, true, none, seconds (24 * 3600)⟩,
        placeholders 2097153 1048576 3) := rfl
  exact ⟨_, _, created, rfl, (chunks_partition_iff created).2 (by decide)⟩

/-- Without a size limit an upload of 2⁵² bytes in chunks of 2²⁰ is admitted: its 2³² chunks are
counted as none. -/
theorem four_pebibytes_unchunked : ∃ session,
    createSession ⟨0, 2 ^ 52, 0, some (2 ^ 20)⟩ 0 = .ok (session, []) ∧ session.totalChunks = 0 ∧
      ¬ Partitions [] (2 ^ 20) (2 ^ 52) := by
  refine ⟨⟨0, 2 ^ 52, 2 ^ 20, 0, 0, 0, .pending, none, none, true, none, seconds (24 * 3600)⟩,
    rfl, rfl, fun partition => ?_⟩
  have empty : (0 : ℤ) = 2 ^ 52 := partition.adjacent
  omega

end ArtifactKeeper.Upload
