import ArtifactKeeper.Library.Binary64
import ArtifactKeeper.Library.Rows
import ArtifactKeeper.Library.StepSystem
import ArtifactKeeper.Library.Text
import Mathlib.Data.List.Sort
import ArtifactKeeper.Library.Tiling

/-!
# Swarm transfer sessions

`init_transfer` cuts an artifact into chunk rows and upserts the session of the artifact and the
peer; the other calls move single chunk rows between statuses and keep the counter of the session.
-/

namespace ArtifactKeeper.Transfer

inductive SyncStatus
  | pending
  | inProgress
  | completed
  | failed
  | cancelled
  deriving DecidableEq

structure Artifact where
  sizeBytes : ℕ
  checksumSha256 : Text
  deriving DecidableEq

structure Session where
  (id artifactId requestingPeerId totalSize chunkSize totalChunks completedChunks : ℕ)
  checksumAlgo : Text
  artifactChecksum : Text
  status : SyncStatus
  errorMessage : Option Text
  startedAt : Option ℤ
  completedAt : Option ℤ
  deriving DecidableEq

structure Chunk where
  sessionId : ℕ
  chunkIndex : ℤ
  byteOffset : ℤ
  byteLength : ℤ
  checksum : Text
  status : SyncStatus
  sourcePeerId : Option ℕ
  attempts : ℕ
  lastError : Option Text
  downloadedAt : Option ℤ
  deriving DecidableEq

structure Db where
  sessions : List Session
  chunks : List Chunk
  deriving DecidableEq

inductive AppError
  | notFound (message : Text)
  | validation (message : Text)
  /-- The generated id is taken. -/
  | database
  deriving DecidableEq

structure PositiveI32 where
  val : ℕ
  positive : 0 < val
  bounded : val < 2 ^ 31

structure InitTransferRequest where
  artifactId : ℕ
  requestingPeerId : ℕ
  chunkSize : Option PositiveI32

def InitTransferRequest.chunkBytes (req : InitTransferRequest) : ℕ :=
  match req.chunkSize with
  | some size => size.val
  | none => 1048576

theorem InitTransferRequest.chunkBytes_pos (req : InitTransferRequest) : 0 < req.chunkBytes := by
  unfold chunkBytes
  split
  · next size _ => exact size.positive
  · omega

theorem InitTransferRequest.chunkBytes_lt (req : InitTransferRequest) :
    req.chunkBytes < 2 ^ 31 := by
  unfold chunkBytes
  split
  · next size _ => exact size.bounded
  · omega

/-! ### Starting a session -/

/-- `((total_size as f64) / (chunk_size as f64)).ceil() as i32`; the last cast saturates. -/
def countChunks (totalSize chunkSize : ℕ) : ℕ :=
  min ((Binary64.ofNat totalSize).div (Binary64.ofNat chunkSize)).ceil (2 ^ 31 - 1)

/-- The chunk row `i` that `init_transfer` inserts; the cast of the last length wraps. -/
def newChunk (sessionId totalSize chunkSize totalChunks i : ℕ) : Chunk where
  sessionId := sessionId
  chunkIndex := i
  byteOffset := i * chunkSize
  byteLength :=
    if i + 1 = totalChunks then ((totalSize : ℤ) - i * chunkSize).bmod (2 ^ 32) else chunkSize
  checksum := []
  status := .pending
  sourcePeerId := none
  attempts := 0
  lastError := none
  downloadedAt := none

/-- `INSERT … ON CONFLICT (session_id, chunk_index) DO NOTHING`. -/
def insertChunk (chunks : List Chunk) (row : Chunk) : List Chunk :=
  if chunks.any fun c => c.sessionId == row.sessionId && c.chunkIndex == row.chunkIndex then chunks
  else chunks ++ [row]

variable (s : Session)

/-- The update of an existing session. -/
def Session.restart : Session :=
  { s with
    status := .pending
    completedChunks := 0
    startedAt := none
    completedAt := none
    errorMessage := none }

def Db.sessionFor (db : Db) (artifactId peerId : ℕ) : Option Session :=
  db.sessions.find? fun s => s.artifactId == artifactId && s.requestingPeerId == peerId

def createChunks (sessionId totalSize chunkSize totalChunks : ℕ) (chunks : List Chunk) :
    List Chunk :=
  (List.range totalChunks).foldl
    (fun rows i => insertChunk rows (newChunk sessionId totalSize chunkSize totalChunks i)) chunks

variable (artifacts : ℕ → Option Artifact)

/-- `newId` is the id that `gen_random_uuid` draws for a new session. -/
def initTransfer (req : InitTransferRequest) (newId : ℕ) (db : Db) :
    Except AppError (Session × Db) :=
  match artifacts req.artifactId with
  | none => .error (.notFound "Artifact not found")
  | some artifact =>
    let totalSize := artifact.sizeBytes
    let totalChunks := countChunks totalSize req.chunkBytes
    match db.sessionFor req.artifactId req.requestingPeerId with
    | some s =>
      .ok (s.restart,
        ⟨Rows.update Session.id s.id Session.restart db.sessions,
          createChunks s.id totalSize req.chunkBytes totalChunks db.chunks⟩)
    | none =>
      if db.sessions.any fun s => s.id == newId then .error .database
      else
        let session : Session :=
          { id := newId
            artifactId := req.artifactId
            requestingPeerId := req.requestingPeerId
            totalSize := totalSize
            chunkSize := req.chunkBytes
            totalChunks := totalChunks
            completedChunks := 0
            checksumAlgo := "sha256"
            artifactChecksum := artifact.checksumSha256
            status := .pending
            errorMessage := none
            startedAt := none
            completedAt := none }
        .ok (session,
          ⟨db.sessions ++ [session],
            createChunks newId totalSize req.chunkBytes totalChunks db.chunks⟩)

/-! ### Moving chunks -/

variable (sessionId : ℕ) (chunkIndex : ℤ)

def Chunk.at (c : Chunk) : Bool :=
  c.sessionId == sessionId && c.chunkIndex == chunkIndex

def completedCount (chunks : List Chunk) : ℕ :=
  chunks.countP fun c => c.sessionId == sessionId && c.status == .completed

def completeChunk (checksum : Text) (sourcePeerId : Option ℕ) (now : ℤ) (db : Db) :
    Except AppError Db :=
  let isOpen := fun c : Chunk => c.at sessionId chunkIndex && c.status != .completed
  if !db.chunks.any isOpen then .ok db
  else
    let chunks := Rows.updateWhere isOpen
      (fun c => { c with
        status := .completed, checksum := checksum, sourcePeerId := sourcePeerId,
        downloadedAt := some now, attempts := c.attempts + 1 }) db.chunks
    .ok ⟨Rows.update Session.id sessionId
      (fun s => { s with
        completedChunks := completedCount sessionId chunks
        startedAt := s.startedAt.orElse fun _ => some now }) db.sessions, chunks⟩

def failChunk (error : Text) (db : Db) : Except AppError Db :=
  .ok { db with
    chunks := Rows.updateWhere (Chunk.at sessionId chunkIndex)
      (fun c => { c with status := .failed, lastError := some error, attempts := c.attempts + 1 })
      db.chunks }

def retryChunk (db : Db) : Except AppError Db :=
  .ok { db with
    chunks := Rows.updateWhere (fun c => c.at sessionId chunkIndex && c.status == .failed)
      (fun c => { c with status := .pending, sourcePeerId := none }) db.chunks }

/-! ### Closing a session -/

def completeSession (now : ℤ) (db : Db) : Except AppError Db :=
  let pending := db.chunks.countP fun c => c.sessionId == sessionId && c.status != .completed
  if 0 < pending then
    .error (.validation (Text.decimal pending ++ " chunks still pending/failed"))
  else
    .ok { db with
      sessions := Rows.update Session.id sessionId
        (fun s => { s with status := .completed, completedAt := some now }) db.sessions }

def failSession (error : Text) (now : ℤ) (db : Db) : Except AppError Db :=
  .ok { db with
    sessions := Rows.update Session.id sessionId
      (fun s => { s with status := .failed, errorMessage := some error, completedAt := some now })
      db.sessions }

/-- `ORDER BY chunk_index`. -/
def getChunkManifest (db : Db) : List Chunk :=
  (db.chunks.filter fun c => c.sessionId == sessionId).insertionSort
    fun a b => a.chunkIndex ≤ b.chunkIndex

/-! ### Runs -/

inductive Call
  | initTransfer (req : InitTransferRequest) (newId : ℕ)
  | completeChunk (sessionId : ℕ) (chunkIndex : ℤ) (checksum : Text) (sourcePeerId : Option ℕ)
      (now : ℤ)
  | failChunk (sessionId : ℕ) (chunkIndex : ℤ) (error : Text)
  | retryChunk (sessionId : ℕ) (chunkIndex : ℤ)
  | completeSession (sessionId : ℕ) (now : ℤ)
  | failSession (sessionId : ℕ) (error : Text) (now : ℤ)

def Call.exec (db : Db) : Call → Except AppError Db
  | .initTransfer req newId => (Transfer.initTransfer artifacts req newId db).map Prod.snd
  | .completeChunk sid i checksum source now => Transfer.completeChunk sid i checksum source now db
  | .failChunk sid i error => Transfer.failChunk sid i error db
  | .retryChunk sid i => Transfer.retryChunk sid i db
  | .completeSession sid now => Transfer.completeSession sid now db
  | .failSession sid error now => Transfer.failSession sid error now db

def step (db : Db) (call : Call) : Option Db :=
  some <| match call.exec artifacts db with
    | .ok db' => db'
    | .error _ => db

def empty : Db := ⟨[], []⟩

open StepSystem Tiling List Bool Except Rows Reach Chunk

/-! ### The property -/

structure Partitions (rows : List Chunk) (s : Session) : Prop where
  tiles : Tiles byteOffset byteLength rows 0 s.totalSize
  nonempty : ∀ c ∈ rows, 1 ≤ c.byteLength
  count : rows.length = s.totalChunks

def Consistent (db : Db) : Prop :=
  ∀ s ∈ db.sessions,
    Partitions (getChunkManifest s.id db) s ∧ s.completedChunks = completedCount s.id db.chunks

instance (rows : List Chunk) (s : Session) : Decidable (Partitions rows s) :=
  decidable_of_iff
    (Tiles byteOffset byteLength rows 0 s.totalSize ∧
      (∀ c ∈ rows, 1 ≤ c.byteLength) ∧ rows.length = s.totalChunks)
    ⟨fun ⟨tiles, nonempty, count⟩ => ⟨tiles, nonempty, count⟩,
      fun h => ⟨h.tiles, h.nonempty, h.count⟩⟩

instance (db : Db) : Decidable (Consistent db) :=
  inferInstanceAs (Decidable (∀ s ∈ db.sessions, _ ∧ _))

/-! ### The condition -/

/-- The number of chunks of a new session is computed exactly and fits an `i32`. -/
def Small (size chunkSize : ℕ) : Prop := size < 2 ^ 53 ∧ size ≤ (2 ^ 31 - 1) * chunkSize

def Careful (db : Db) : Call → Prop
  | .initTransfer req _ =>
    ∀ artifact, artifacts req.artifactId = some artifact →
      match db.sessionFor req.artifactId req.requestingPeerId with
      | none => Small artifact.sizeBytes req.chunkBytes
      | some s =>
        completedCount s.id db.chunks = 0 ∧ artifact.sizeBytes ≤ s.totalChunks * req.chunkBytes
  | .failChunk sessionId chunkIndex _ =>
    ∀ c ∈ db.chunks, c.at sessionId chunkIndex = true → c.status ≠ .completed
  | _ => True

/-! ### Layout -/

/-- What a chunk row says about bytes. -/
structure Layout where
  chunkIndex : ℤ
  byteOffset : ℤ
  byteLength : ℤ

def Chunk.layout (c : Chunk) : Layout := ⟨c.chunkIndex, c.byteOffset, c.byteLength⟩

def layoutOf (chunks : List Chunk) : List Layout :=
  (chunks.filter fun c => c.sessionId == sessionId).map layout

def Session.rows : List Chunk :=
  (range s.totalChunks).map (newChunk s.id s.totalSize s.chunkSize s.totalChunks)

/-- The number of chunks is the least that covers the bytes. -/
structure Session.Fits : Prop where
  size : s.totalSize < 2 ^ 53
  bounded : s.chunkSize < 2 ^ 31
  covers : s.totalSize ≤ s.totalChunks * s.chunkSize
  least : s.totalChunks * s.chunkSize < s.totalSize + s.chunkSize

variable {artifacts} {db db' : Db} {s} {chunks : List Chunk} {s' : Session}

/-- The end of the chunk before `i`. -/
def Session.cut (s : Session) (i : ℕ) : ℤ := min (i * s.chunkSize : ℕ) s.totalSize

theorem Session.Fits.cut_of_lt (fits : s.Fits) {i : ℕ} (less : i < s.totalChunks) :
    s.cut i = i * s.chunkSize ∧ (i * s.chunkSize : ℤ) < s.totalSize := by
  have before : (i + 1) * s.chunkSize ≤ s.totalChunks * s.chunkSize :=
    Nat.mul_le_mul_right _ less
  have least := fits.least
  rw [Nat.succ_mul] at before
  have here : i * s.chunkSize < s.totalSize := by omega
  refine ⟨?_, by exact_mod_cast here⟩
  unfold cut
  rw [Nat.cast_mul, min_eq_left (by exact_mod_cast here.le)]

theorem Session.Fits.byteLength (fits : s.Fits) {i : ℕ} (less : i < s.totalChunks) :
    (newChunk s.id s.totalSize s.chunkSize s.totalChunks i).byteLength = s.cut (i + 1) - s.cut i ∧
      s.cut i < s.cut (i + 1) := by
  obtain ⟨here, inside⟩ := fits.cut_of_lt less
  have bounded := fits.bounded
  have covers := fits.covers
  have positive : 0 < s.chunkSize := by
    rcases Nat.eq_zero_or_pos s.chunkSize with none | some
    · rw [none] at inside covers
      omega
    · exact some
  have next : ((i + 1 : ℕ) * s.chunkSize : ℤ) = i * s.chunkSize + s.chunkSize := by
    push_cast
    ring
  rw [here]
  by_cases last : i + 1 = s.totalChunks
  · have final : s.cut (i + 1) = s.totalSize := by
      unfold cut
      rw [last, min_eq_right (by exact_mod_cast covers)]
    have short : (s.totalSize : ℤ) ≤ i * s.chunkSize + s.chunkSize := by
      rw [← last] at covers
      omega
    rw [final]
    refine ⟨?_, inside⟩
    show (if i + 1 = s.totalChunks then _ else _ : ℤ) = _
    rw [if_pos last, Int.bmod_eq_of_le (by omega) (by omega)]
  · have further := (fits.cut_of_lt (i := i + 1) (by omega)).1
    rw [further, next]
    refine ⟨?_, by omega⟩
    show (if i + 1 = s.totalChunks then _ else _ : ℤ) = _
    rw [if_neg last]
    omega

theorem Session.Fits.partitions (fits : s.Fits) : Partitions s.rows s := by
  have first : s.cut 0 = 0 := by simp [cut]
  have last : s.cut s.totalChunks = s.totalSize := by
    unfold cut
    rw [min_eq_right (by exact_mod_cast fits.covers)]
  refine ⟨?_, ?_, by simp [rows]⟩
  · rw [← first, ← last]
    exact tiles_map_range s.totalChunks (fun i less => (fits.cut_of_lt less).1.symm)
      fun i less => (fits.byteLength less).1
  · intro c mem
    obtain ⟨i, less, rfl⟩ := mem_map.1 mem
    have length := fits.byteLength (mem_range.1 less)
    omega

theorem Partitions.of_layout {rows rows' : List Chunk} (h : Partitions rows s)
    (same : rows'.map layout = rows.map layout) : Partitions rows' s := by
  refine ⟨?_, ?_, ?_⟩
  · have tiles : ∀ rows,
        Tiles Layout.byteOffset Layout.byteLength (rows.map layout) 0 s.totalSize ↔
          Tiles byteOffset byteLength rows 0 s.totalSize := fun rows => tiles_map rows
    exact (tiles rows').1 (same ▸ (tiles rows).2 h.tiles)
  · intro c mem
    have found : c.layout ∈ rows.map layout := same ▸ mem_map_of_mem mem
    obtain ⟨c', mem', eq⟩ := mem_map.1 found
    have length : c'.byteLength = c.byteLength := congrArg Layout.byteLength eq
    exact length ▸ h.nonempty c' mem'
  · rw [← h.count]
    simpa using congrArg length same

/-! ### The invariant -/

/-- Each session belongs to an artifact of its size and has the rows it was created with. -/
structure Laid (artifacts : ℕ → Option Artifact) (db : Db) : Prop where
  ids : (db.sessions.map Session.id).Nodup
  owned : ∀ c ∈ db.chunks, ∃ s ∈ db.sessions, s.id = c.sessionId
  artifact : ∀ s ∈ db.sessions, ∃ a, artifacts s.artifactId = some a ∧ s.totalSize = a.sizeBytes
  fits : ∀ s ∈ db.sessions, s.Fits
  layout : ∀ s ∈ db.sessions, layoutOf s.id db.chunks = s.rows.map layout

def Counted (db : Db) : Prop :=
  ∀ s ∈ db.sessions, s.completedChunks = completedCount s.id db.chunks

theorem manifest_eq (layout : layoutOf s.id db.chunks = s.rows.map layout) :
    getChunkManifest s.id db = db.chunks.filter fun c => c.sessionId == s.id := by
  refine Pairwise.insertionSort_eq ?_
  have indices : (db.chunks.filter fun c => c.sessionId == s.id).map chunkIndex =
      (range s.totalChunks).map Nat.cast := by
    have cast := congrArg (map Layout.chunkIndex) layout
    unfold layoutOf Session.rows at cast
    simp only [map_map] at cast
    exact cast
  have sorted : ((range s.totalChunks).map (Nat.cast : ℕ → ℤ)).Pairwise (· ≤ ·) := by
    rw [pairwise_map]
    exact pairwise_le_range.imp fun le => by exact_mod_cast le
  rw [← indices, pairwise_map] at sorted
  exact sorted

theorem Laid.consistent (laid : Laid artifacts db) (counted : Counted db) : Consistent db := by
  intro s mem
  refine ⟨?_, counted s mem⟩
  rw [manifest_eq (laid.layout s mem)]
  exact (laid.fits s mem).partitions.of_layout (laid.layout s mem)

/-! ### Updates -/

/-- The two rows of a session agree on what never changes. -/
structure Session.Same (s s' : Session) : Prop where
  id : s'.id = s.id
  artifactId : s'.artifactId = s.artifactId
  totalSize : s'.totalSize = s.totalSize
  chunkSize : s'.chunkSize = s.chunkSize
  totalChunks : s'.totalChunks = s.totalChunks

theorem Session.Same.fits (same : s.Same s') (fits : s.Fits) : s'.Fits := by
  obtain ⟨-, -, size, chunk, count⟩ := same
  exact ⟨size ▸ fits.size, chunk ▸ fits.bounded, size ▸ chunk ▸ count ▸ fits.covers,
    size ▸ chunk ▸ count ▸ fits.least⟩

theorem Session.Same.rows (same : s.Same s') : s'.rows = s.rows := by
  unfold Session.rows
  rw [same.id, same.totalSize, same.chunkSize, same.totalChunks]

variable {chunk sid : ℕ} {g : Session → Session} {p : Chunk → Bool} {f : Chunk → Chunk}

theorem exists_of_mem_update (same : ∀ s : Session, s.Same (g s)) {sessions : List Session}
    (mem : s' ∈ update Session.id sid g sessions) : ∃ s ∈ sessions, s.Same s' := by
  rcases mem_update mem with ⟨old, -⟩ | ⟨old, found, -, rfl⟩
  · exact ⟨s', old, rfl, rfl, rfl, rfl, rfl⟩
  · exact ⟨old, found, same old⟩

theorem Laid.updateSession (laid : Laid artifacts db) (same : ∀ s : Session, s.Same (g s)) :
    Laid artifacts { db with sessions := update Session.id sid g db.sessions } := by
  have ids : (update Session.id sid g db.sessions).map Session.id =
      db.sessions.map Session.id := map_update sid (fun s => (same s).id) _
  refine ⟨ids ▸ laid.ids, ?_, ?_, ?_, ?_⟩
  · intro c mem
    obtain ⟨s, found, owner⟩ := laid.owned c mem
    have listed : c.sessionId ∈ (update Session.id sid g db.sessions).map Session.id :=
      ids ▸ mem_map.2 ⟨s, found, owner⟩
    exact mem_map.1 listed
  · intro _ mem
    obtain ⟨s, found, eq⟩ := exists_of_mem_update same mem
    rw [eq.artifactId, eq.totalSize]
    exact laid.artifact s found
  · intro _ mem
    obtain ⟨s, found, eq⟩ := exists_of_mem_update same mem
    exact eq.fits (laid.fits s found)
  · intro _ mem
    obtain ⟨s, found, eq⟩ := exists_of_mem_update same mem
    rw [eq.rows, eq.id]
    exact laid.layout s found

/-- The update keeps the place of a row. -/
def Keeps (f : Chunk → Chunk) : Prop :=
  ∀ c, (f c).sessionId = c.sessionId ∧ (f c).layout = c.layout

theorem layoutOf_updateWhere (keeps : Keeps f) (sid : ℕ) :
    layoutOf sid (updateWhere p f chunks) = layoutOf sid chunks := by
  unfold layoutOf
  induction chunks with
  | nil => rfl
  | cons c _ ih =>
    have here : (if p c then f c else c).sessionId = c.sessionId ∧
        (if p c then f c else c).layout = c.layout := by
      split
      · exact keeps c
      · exact ⟨rfl, rfl⟩
    simp only [updateWhere, map_cons, filter_cons, here.1] at ih ⊢
    split
    · rw [map_cons, map_cons, here.2, ih]
    · exact ih

theorem Laid.moveChunks (laid : Laid artifacts db)
    (keeps : Keeps f) : Laid artifacts { db with chunks := updateWhere p f db.chunks } := by
  refine ⟨laid.ids, ?_, laid.artifact, laid.fits, fun s mem => ?_⟩
  · intro c mem
    rcases mem_updateWhere mem with ⟨old, -⟩ | ⟨old, found, -, rfl⟩
    · exact laid.owned c old
    · rw [(keeps old).1]
      exact laid.owned old found
  · rw [← laid.layout s mem]
    exact layoutOf_updateWhere keeps s.id

theorem completedCount_updateWhere
    (keeps : Keeps f)
    (status : ∀ c ∈ chunks, p c = true → c.sessionId = sid →
      (f c).status ≠ .completed ∧ c.status ≠ .completed) :
    completedCount sid (updateWhere p f chunks) = completedCount sid chunks := by
  unfold completedCount updateWhere
  rw [countP_map]
  refine countP_congr fun c mem => ?_
  by_cases moved : p c = true
  · by_cases own : c.sessionId = sid
    · have := status c mem moved own
      simp [moved, this]
    · simp [moved, (keeps c).1, own]
  · simp [moved]

/-! ### Creating rows -/

theorem insertChunk_of_conflict {row : Chunk}
    (conflict : ∃ c ∈ chunks, c.sessionId = row.sessionId ∧ c.chunkIndex = row.chunkIndex) :
    insertChunk chunks row = chunks := by
  obtain ⟨c, mem, sid, index⟩ := conflict
  exact if_pos (any_eq_true.2 ⟨c, mem, by simp [sid, index]⟩)

theorem insertChunk_of_new {row : Chunk}
    (new : ∀ c ∈ chunks, c.sessionId = row.sessionId → c.chunkIndex ≠ row.chunkIndex) :
    insertChunk chunks row = chunks ++ [row] := by
  refine if_neg ?_
  simpa using new

section

variable {n : ℕ} {r : ℕ → Chunk} (keys : ∀ i, (r i).sessionId = sid ∧ (r i).chunkIndex = i)
include keys

theorem insertChunks_of_existing
    (existing : ∀ i < n, ∃ c ∈ chunks, c.sessionId = sid ∧ c.chunkIndex = i) :
    (range n).foldl (fun rows i => insertChunk rows (r i)) chunks = chunks := by
  induction n with
  | zero => rfl
  | succ n ih =>
    rw [range_succ, foldl_append, ih fun i less => existing i (by omega)]
    refine insertChunk_of_conflict ?_
    rw [(keys n).1, (keys n).2]
    exact existing n (by omega)

/-- A session without rows gets all of them, in order. -/
theorem insertChunks_of_fresh (fresh : ∀ c ∈ chunks, c.sessionId ≠ sid) :
    (range n).foldl (fun rows i => insertChunk rows (r i)) chunks = chunks ++ (range n).map r := by
  induction n with
  | zero => simp
  | succ n ih =>
    rw [range_succ, foldl_append, ih, map_append]
    show insertChunk _ (r n) = _
    rw [insertChunk_of_new, append_assoc, map_singleton]
    intro c mem same
    rw [(keys n).1] at same
    rw [(keys n).2]
    rcases mem_append.1 mem with old | new
    · exact absurd same (fresh c old)
    · obtain ⟨i, less, rfl⟩ := mem_map.1 new
      rw [(keys i).2]
      have := mem_range.1 less
      omega

end

variable {size n : ℕ}

theorem countChunks_le (positive : 0 < chunk) (bounded : chunk < 2 ^ 31) (small : size < 2 ^ 53)
    (enough : size ≤ n * chunk) : countChunks size chunk ≤ n := by
  unfold countChunks
  rw [Binary64.ceil_div positive small (by omega)]
  refine (min_le_left _ _).trans ?_
  rw [Nat.div_le_iff_le_mul positive]
  omega

theorem countChunks_eq (positive : 0 < chunk) (bounded : chunk < 2 ^ 31)
    (small : Small size chunk) : countChunks size chunk = (size + chunk - 1) / chunk := by
  unfold countChunks
  rw [Binary64.ceil_div positive small.1 (by omega), min_eq_left]
  rw [Nat.div_le_iff_le_mul positive]
  have := small.2
  omega

/-! ### The calls -/

def Sound (artifacts : ℕ → Option Artifact) (db : Db) : Prop := Laid artifacts db ∧ Counted db

theorem Sound.restart {a : Artifact} (sound : Sound artifacts db)
    (mem : s ∈ db.sessions) (found : artifacts s.artifactId = some a) (positive : 0 < chunk)
    (bounded : chunk < 2 ^ 31) (unfinished : completedCount s.id db.chunks = 0)
    (enough : a.sizeBytes ≤ s.totalChunks * chunk) :
    Sound artifacts ⟨update Session.id s.id Session.restart db.sessions,
      createChunks s.id a.sizeBytes chunk (countChunks a.sizeBytes chunk) db.chunks⟩ := by
  obtain ⟨laid, counted⟩ := sound
  obtain ⟨a', found', size⟩ := laid.artifact s mem
  obtain rfl : a = a' := Option.some.inj (found.symm.trans found')
  have few : countChunks a.sizeBytes chunk ≤ s.totalChunks :=
    countChunks_le positive bounded (size ▸ (laid.fits s mem).size) enough
  have existing : ∀ i < countChunks a.sizeBytes chunk, ∃ c ∈ db.chunks,
      c.sessionId = s.id ∧ c.chunkIndex = i := by
    intro i _
    have planned : (newChunk s.id s.totalSize s.chunkSize s.totalChunks i).layout ∈
        layoutOf s.id db.chunks := by
      rw [laid.layout s mem]
      exact mem_map_of_mem (mem_map_of_mem (mem_range.2 (by omega)))
    obtain ⟨c, inside, eq⟩ := mem_map.1 planned
    obtain ⟨listed, own⟩ := mem_filter.1 inside
    exact ⟨c, listed, by simpa using own, congrArg Layout.chunkIndex eq⟩
  rw [createChunks, insertChunks_of_existing (r := newChunk _ _ _ _) (fun _ => ⟨rfl, rfl⟩) existing]
  refine ⟨laid.updateSession fun s => ⟨rfl, rfl, rfl, rfl, rfl⟩, ?_⟩
  intro s' mem'
  rcases mem_update mem' with ⟨old, -⟩ | ⟨old, -, own, rfl⟩
  · exact counted s' old
  · show 0 = completedCount old.id db.chunks
    rw [own, unfinished]

theorem completedCount_append (sid : ℕ) (rows rows' : List Chunk) :
    completedCount sid (rows ++ rows') = completedCount sid rows + completedCount sid rows' :=
  countP_append

theorem layoutOf_append (sid : ℕ) (rows rows' : List Chunk) :
    layoutOf sid (rows ++ rows') = layoutOf sid rows ++ layoutOf sid rows' := by
  simp [layoutOf]

theorem layoutOf_of_other (other : ∀ c ∈ chunks, c.sessionId ≠ sid) : layoutOf sid chunks = [] := by
  unfold layoutOf
  rw [map_eq_nil_iff, filter_eq_nil_iff]
  simpa using other

theorem Session.mem_rows {c : Chunk} (mem : c ∈ s.rows) :
    c.sessionId = s.id ∧ c.status = .pending := by
  obtain ⟨i, -, rfl⟩ := mem_map.1 mem
  exact ⟨rfl, rfl⟩

theorem Laid.unused (laid : Laid artifacts db) (fresh : ∀ t ∈ db.sessions, t.id ≠ sid) :
    ∀ c ∈ db.chunks, c.sessionId ≠ sid := by
  intro c mem same
  obtain ⟨t, listed, owner⟩ := laid.owned c mem
  exact fresh t listed (owner.trans same)

section

variable (sound : Sound artifacts db)
include sound

theorem Sound.create {a : Artifact} (fresh : ∀ t ∈ db.sessions, t.id ≠ s.id)
    (found : artifacts s.artifactId = some a) (size : s.totalSize = a.sizeBytes) (fits : s.Fits)
    (zero : s.completedChunks = 0) :
    Sound artifacts ⟨db.sessions ++ [s], db.chunks ++ s.rows⟩ := by
  obtain ⟨laid, counted⟩ := sound
  have unused := laid.unused fresh
  have foreign : ∀ t ∈ db.sessions, ∀ c ∈ s.rows, c.sessionId ≠ t.id := by
    intro t listed c mem same
    exact fresh t listed (same.symm.trans (Session.mem_rows mem).1)
  have none : ∀ sid, completedCount sid s.rows = 0 := by
    intro _
    refine countP_eq_zero.2 fun c mem => ?_
    simp [(Session.mem_rows mem).2]
  refine ⟨⟨?_, ?_, ?_, ?_, ?_⟩, ?_⟩
  · rw [map_append, map_singleton, ← concat_eq_append]
    refine laid.ids.concat fun listed => ?_
    obtain ⟨t, mem, same⟩ := mem_map.1 listed
    exact fresh t mem same
  · intro c mem
    rcases mem_append.1 mem with old | new
    · obtain ⟨t, listed, owner⟩ := laid.owned c old
      exact ⟨t, mem_append_left _ listed, owner⟩
    · exact ⟨s, by simp, (Session.mem_rows new).1.symm⟩
  · intro t mem
    rcases mem_append.1 mem with old | new
    · exact laid.artifact t old
    · obtain rfl := mem_singleton.1 new
      exact ⟨a, found, size⟩
  · intro t mem
    rcases mem_append.1 mem with old | new
    · exact laid.fits t old
    · obtain rfl := mem_singleton.1 new
      exact fits
  · intro t mem
    rw [layoutOf_append]
    rcases mem_append.1 mem with old | new
    · rw [laid.layout t old, layoutOf_of_other (foreign t old), append_nil]
    · obtain rfl := mem_singleton.1 new
      rw [layoutOf_of_other unused, nil_append]
      unfold layoutOf
      rw [filter_eq_self.2 fun c mem => by simp [(Session.mem_rows mem).1]]
  · intro t mem
    rw [completedCount_append, none, Nat.add_zero]
    rcases mem_append.1 mem with old | new
    · exact counted t old
    · obtain rfl := mem_singleton.1 new
      rw [zero]
      refine (countP_eq_zero.2 fun c listed => ?_).symm
      simp [unused c listed]

theorem Sound.initTransfer {req : InitTransferRequest} {newId : ℕ}
    (careful : Careful artifacts db (.initTransfer req newId))
    (done : Transfer.initTransfer artifacts req newId db = .ok (s, db')) : Sound artifacts db' := by
  unfold Transfer.initTransfer at done
  cases artifact : artifacts req.artifactId with
  | none => simp [artifact] at done
  | some a =>
    have condition := careful a artifact
    simp only [artifact] at done
    cases existing : db.sessionFor req.artifactId req.requestingPeerId with
    | some s =>
      simp only [existing] at done condition
      obtain ⟨-, rfl⟩ := done
      have key := find?_some existing
      simp only [and_eq_true, beq_iff_eq] at key
      exact sound.restart (mem_of_find?_eq_some existing) (key.1 ▸ artifact)
        req.chunkBytes_pos req.chunkBytes_lt condition.1 condition.2
    | none =>
      simp only [existing] at done condition
      split_ifs at done with taken
      simp only [ok.injEq] at done
      obtain ⟨rfl, rfl⟩ := done
      have fresh : ∀ t ∈ db.sessions, t.id ≠ newId := by simpa using taken
      rw [createChunks, insertChunks_of_fresh (r := newChunk _ _ _ _) (fun _ => ⟨rfl, rfl⟩)
        (sound.1.unused fresh)]
      refine sound.create fresh artifact rfl ?_ rfl
      have positive := req.chunkBytes_pos
      have parts := Nat.div_add_mod' (a.sizeBytes + req.chunkBytes - 1) req.chunkBytes
      have rest := Nat.mod_lt (a.sizeBytes + req.chunkBytes - 1) positive
      have count := countChunks_eq positive req.chunkBytes_lt condition
      refine ⟨condition.1, req.chunkBytes_lt, ?_, ?_⟩
      · show a.sizeBytes ≤ countChunks a.sizeBytes req.chunkBytes * req.chunkBytes
        rw [count]
        omega
      · show countChunks a.sizeBytes req.chunkBytes * req.chunkBytes <
          a.sizeBytes + req.chunkBytes
        rw [count]
        omega

theorem Sound.completeChunk {i now : ℤ} {checksum : Text} {source : Option ℕ}
    (done : Transfer.completeChunk sid i checksum source now db = .ok db') :
    Sound artifacts db' := by
  obtain ⟨laid, counted⟩ := sound
  unfold Transfer.completeChunk at done
  simp only at done
  split_ifs at done with none
  · obtain rfl := ok.inj done
    exact ⟨laid, counted⟩
  · obtain rfl := ok.inj done
    have keeps : Keeps fun c : Chunk => { c with
        status := .completed, checksum := checksum, sourcePeerId := source,
        downloadedAt := some now, attempts := c.attempts + 1 } := fun c => ⟨rfl, rfl⟩
    refine ⟨(laid.moveChunks keeps).updateSession fun s => ⟨rfl, rfl, rfl, rfl, rfl⟩, ?_⟩
    intro s mem
    rcases mem_update mem with ⟨old, other⟩ | ⟨old, -, own, rfl⟩
    · rw [counted s old]
      refine (completedCount_updateWhere keeps fun c _ moved same => absurd same ?_).symm
      simp only [Chunk.at, and_eq_true, beq_iff_eq] at moved
      exact fun same => other (same.symm.trans moved.1.1)
    · show completedCount sid _ = completedCount old.id _
      rw [own]

theorem Sound.moveChunks (keeps : Keeps f)
    (status : ∀ c ∈ db.chunks, p c = true → (f c).status ≠ .completed ∧ c.status ≠ .completed) :
    Sound artifacts { db with chunks := updateWhere p f db.chunks } := by
  refine ⟨sound.1.moveChunks keeps, fun s mem => ?_⟩
  exact (sound.2 s mem).trans
    (completedCount_updateWhere keeps fun c listed moved _ => status c listed moved).symm

theorem Sound.updateSession (same : ∀ s : Session, s.Same (g s))
    (counter : ∀ s, (g s).completedChunks = s.completedChunks) :
    Sound artifacts { db with sessions := update Session.id sid g db.sessions } := by
  refine ⟨sound.1.updateSession same, fun s mem => ?_⟩
  rcases mem_update mem with ⟨old, -⟩ | ⟨old, found, -, rfl⟩
  · exact sound.2 s old
  · rw [counter, (same old).id]
    exact sound.2 old found

theorem Sound.exec {call : Call} (careful : Careful artifacts db call)
    (done : call.exec artifacts db = .ok db') : Sound artifacts db' := by
  cases call with
  | initTransfer req newId =>
    simp only [Call.exec] at done
    cases result : Transfer.initTransfer artifacts req newId db with
    | error e => simp [result, Except.map] at done
    | ok _ =>
      simp only [result, Except.map, Except.ok.injEq] at done
      exact done ▸ sound.initTransfer careful result
  | completeChunk => exact sound.completeChunk done
  | failChunk =>
    obtain rfl := ok.inj done
    exact sound.moveChunks (fun c => ⟨rfl, rfl⟩) fun c mem moved => ⟨nofun, careful c mem moved⟩
  | retryChunk =>
    obtain rfl := ok.inj done
    refine sound.moveChunks (fun c => ⟨rfl, rfl⟩) fun c _ moved => ⟨nofun, ?_⟩
    simp only [and_eq_true, beq_iff_eq] at moved
    rw [moved.2]
    nofun
  | completeSession =>
    simp only [Call.exec, Transfer.completeSession] at done
    split_ifs at done
    obtain rfl := ok.inj done
    exact sound.updateSession (fun s => ⟨rfl, rfl, rfl, rfl, rfl⟩) fun s => rfl
  | failSession =>
    obtain rfl := ok.inj done
    exact sound.updateSession (fun s => ⟨rfl, rfl, rfl, rfl, rfl⟩) fun s => rfl

end

theorem Sound.empty : Sound artifacts empty := by
  have sessions : ∀ s, s ∉ Transfer.empty.sessions := fun _ => not_mem_nil
  have chunks : ∀ c, c ∉ Transfer.empty.chunks := fun _ => not_mem_nil
  refine ⟨⟨nodup_nil, fun c mem => ?_, fun s mem => ?_, fun s mem => ?_, fun s mem => ?_⟩,
    fun s mem => ?_⟩
  · exact absurd mem (chunks c)
  all_goals exact absurd mem (sessions s)

/-- Careful runs keep the books of every session. -/
theorem consistent_of_careful (reached : Reach (step artifacts) (· = empty) (Careful artifacts) db) :
    Consistent db := by
  have sound : Sound artifacts db := by
    refine reached.invariant (fun _ start => start ▸ Sound.empty) ?_
    intro _ _ _ sound careful taken
    simp only [step, Option.some.injEq] at taken
    split at taken
    · next _ done => exact taken ▸ sound.exec careful done
    · exact taken ▸ sound
  exact sound.1.consistent sound.2

/-! ### Runs -/

def tenBytes (id : ℕ) : Option Artifact := if id = 1 then some ⟨10, []⟩ else none

def request (chunkSize : PositiveI32) : InitTransferRequest := ⟨1, 2, some chunkSize⟩

def four : PositiveI32 := ⟨4, by decide, by decide⟩

def ten : PositiveI32 := ⟨10, by decide, by decide⟩

/-- Chunks of four bytes, asked for twice; one is completed, one fails and is retried. -/
theorem consistent_of_careful_ten :
    ∃ db, Reach (step tenBytes) (· = empty) (Careful tenBytes) db ∧
      db.chunks.map byteLength = [4, 4, 2] ∧
      db.sessions.map Session.completedChunks = [1] ∧ Consistent db := by
  have only : ∀ artifact, tenBytes 1 = some artifact → ⟨10, []⟩ = artifact :=
    fun _ found => Option.some.inj found
  have start : Reach (step tenBytes) (· = empty) (Careful tenBytes) _ :=
    .next (e := .initTransfer (request four) 7) (.start rfl)
      (fun a found => only a found ▸ ⟨by decide, by decide⟩) rfl
  have again := next (e := .initTransfer (request ten) 8) start
    (by intro a found; exact only a found ▸ ⟨by decide, by decide⟩) rfl
  have completed := next (e := .completeChunk 7 1 [] none 0) again (by trivial) rfl
  have failed := next (e := .failChunk 7 2 []) completed (by unfold Careful; decide) rfl
  have retried := next (e := .retryChunk 7 2) failed (by trivial) rfl
  exact ⟨_, retried, by decide, by decide, consistent_of_careful retried⟩

/-- A session initialised again forgets its completed chunks or gains rows; a chunk that fails after
it was completed is still counted. -/
theorem inconsistent_runs :
    (∃ db, Reach (step tenBytes) (· = empty) Any db ∧ ¬ Consistent db ∧
      ∃ s ∈ db.sessions, s.completedChunks < completedCount s.id db.chunks) ∧
    (∃ db, Reach (step tenBytes) (· = empty) Any db ∧ ¬ Consistent db ∧
      ∃ s ∈ db.sessions, s.totalChunks < (getChunkManifest s.id db).length) ∧
    (∃ db, Reach (step tenBytes) (· = empty) Any db ∧ ¬ Consistent db ∧
      ∃ s ∈ db.sessions, completedCount s.id db.chunks < s.completedChunks) := by
  have runs : ∀ calls, ∀ p, [DecidablePred p] →
      (run unchecked (step tenBytes) empty calls).any (fun db => decide (p db)) = true →
      ∃ db, Reach (step tenBytes) (· = empty) Any db ∧ p db :=
    fun calls p _ ends => exists_of_free _ (· = empty) empty rfl calls p ends
  refine ⟨runs [.initTransfer (request four) 7, .completeChunk 7 0 [] none 0,
      .initTransfer (request four) 8] _ (by decide +kernel),
    runs [.initTransfer (request ten) 7, .initTransfer (request four) 8] _ (by decide +kernel),
    runs [.initTransfer (request four) 7, .completeChunk 7 0 [] none 0, .failChunk 7 0 []] _
      (by decide +kernel)⟩

end ArtifactKeeper.Transfer
