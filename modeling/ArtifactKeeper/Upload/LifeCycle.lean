import ArtifactKeeper.Upload.Requests

/-!
# Counters of an upload session

`completed_chunks` and `bytes_received` are the number and the total length of the completed chunk
rows, and no chunk was credited twice (`Accounted`).
-/

namespace ArtifactKeeper.Upload

open StepSystem List Protocol Rows ChunkRow

def completedRows (chunks : List ChunkRow) : List ChunkRow :=
  chunks.filter fun row => row.status = .completed

variable (st : Store)

structure Accounted : Prop where
  unique : (st.chunks.map chunkIndex).Nodup
  count : st.session.completedChunks = (completedRows st.chunks).length
  bytes : st.session.bytesReceived = ((completedRows st.chunks).map byteLength).sum
  credited : st.credited.Perm ((completedRows st.chunks).map chunkIndex)

/-- The chunk row of an upload is open and has the length of its data. -/
def Pending (u : ChunkUpload) : Prop :=
  ∃ row ∈ st.chunks, row.chunkIndex = u.chunkIndex ∧ row.status ≠ .completed ∧
    row.byteLength = u.data.length

def UploadOpen : Request → Prop
  | .claimed u _ _ | .staged u _ _ => Pending st u
  | .counted u _ _ c b => Pending st u ∧ st.session.acceptsChunks ∧
      c = st.session.completedChunks + 1 ∧ b = st.session.bytesReceived + u.data.length
  | _ => True

variable {st} {q : Request} {o : Statement} {ok : World Store Request Lock → ℕ × Action → Prop}
  {w : Effect}

/-! ### The completing write -/

theorem completedRows_update {chunks : List ChunkRow} {row : ChunkRow} {t : ℤ}
    (unique : (chunks.map chunkIndex).Nodup) (mem : row ∈ chunks)
    (isOpen : row.status ≠ .completed) :
    ∃ before after, completedRows chunks = before ++ after ∧
      completedRows (update chunkIndex row.chunkIndex (.complete t) chunks) =
        before ++ row.complete t :: after := by
  obtain ⟨before, after, split, updated⟩ := update_split (f := .complete t) unique mem
  refine ⟨completedRows before, completedRows after, ?_, ?_⟩
  · rw [split]; simp [completedRows, isOpen]
  · rw [updated]; simp [completedRows, complete]

theorem Accounted.completeChunk {u : ChunkUpload} {t : ℤ} (acc : Accounted st) (pending : Pending st u) :
    Accounted ((Effect.completeChunk u t).apply st) := by
  obtain ⟨row, mem, index, isOpen, _⟩ := pending
  have rows := completedRows_update (t := t) acc.unique mem isOpen
  rw [index] at rows
  obtain ⟨_, _, old, new⟩ := rows
  refine ⟨?_, ?_, ?_, ?_⟩
  · have keys : (update chunkIndex u.chunkIndex (.complete t) st.chunks).map
        chunkIndex = st.chunks.map chunkIndex :=
      map_update _ (by intro _; rfl) _
    exact keys ▸ acc.unique
  · have count := acc.count
    simp only [Effect.apply, Session.countChunk, old, new, length_append, length_cons]
      at count ⊢
    omega
  · have bytes := acc.bytes
    simp only [Effect.apply, Session.countChunk, old, new, map_append, map_cons,
      sum_append, sum_cons, complete] at bytes ⊢
    omega
  · have credited := acc.credited
    simp only [Effect.apply, old, new, map_append, complete, index]
      at credited ⊢
    exact (credited.cons _).trans perm_middle.symm

/-! ### Frames -/

theorem apply_counters (st : Store) (other : ∀ u t, w ≠ .completeChunk u t) :
    (w.apply st).chunks = st.chunks ∧ (w.apply st).credited = st.credited ∧
      (w.apply st).session.completedChunks = st.session.completedChunks ∧
      (w.apply st).session.bytesReceived = st.session.bytesReceived := by
  cases w
  case completeChunk u t => exact absurd rfl (other u t)
  all_goals exact ⟨rfl, rfl, rfl, rfl⟩

theorem Accounted.of_frame (acc : Accounted st) (other : ∀ u t, w ≠ .completeChunk u t) :
    Accounted (w.apply st) := by
  obtain ⟨chunks, credited, count, bytes⟩ := apply_counters st other
  exact ⟨chunks ▸ acc.unique, by rw [count, chunks]; exact acc.count,
    by rw [bytes, chunks]; exact acc.bytes, by rw [credited, chunks]; exact acc.credited⟩

/-- An open chunk stays open while nobody who has locked it moves. -/
theorem Pending.apply {u : ChunkUpload} (pending : Pending st u) (warranted : Warranted st q w)
    (apart : .chunk u.chunkIndex ∉ q.holds) :
    Pending (w.apply st) u := by
  obtain ⟨row, mem, index, rest⟩ := pending
  cases w
  case completeChunk v t =>
    obtain ⟨s, c, b, rfl⟩ := warranted
    refine ⟨row, mem_update_of_ne mem fun same => apart ?_, index, rest⟩
    simp [Request.holds, ← index, same]
  all_goals exact ⟨row, mem, index, rest⟩

/-! ### Steps -/

theorem uploadOpen_of_passive (h : UploadOpen st q) (passive : w.passive) :
    UploadOpen (w.apply st) q := by
  cases w <;> simp only [Effect.passive, Bool.false_eq_true] at passive <;>
    cases q <;> exact h

theorem uploadOpen_of_arrival {next : Request} (h : UploadOpen st q)
    (arrival : Arrival st q w next) : UploadOpen (w.apply st) next := by
  cases next with
  | claimed =>
    obtain ⟨rfl, row, found⟩ := arrival
    exact ⟨row, found⟩
  | staged =>
    obtain ⟨rfl, rfl⟩ := arrival
    exact h
  | counted =>
    obtain ⟨rfl, rfl, accepts, count, bytes⟩ := arrival
    exact ⟨h, accepts, count, bytes⟩
  | _ => trivial

theorem accounted_own : service.Own ok Accounted UploadOpen := by
  intro w e o holds _ coded
  have sound := code_sound coded
  have mover := holds.procs e.1
  constructor
  · by_cases completing : ∃ u t, o.effect = .completeChunk u t
    · obtain ⟨u, t, effect⟩ := completing
      have warranted := sound.warranted
      rw [effect] at warranted
      obtain ⟨s, c, b, phase⟩ := warranted
      rw [phase] at mover
      show Accounted (o.effect.apply w.store)
      rw [effect]
      exact holds.store.completeChunk mover.1
    · exact holds.store.of_frame fun u t effect => completing ⟨u, t, effect⟩
  · rcases sound.arrival with ⟨stays, passive⟩ | arrival
    · rw [stays]; exact uploadOpen_of_passive mover passive
    · exact uploadOpen_of_arrival mover arrival

theorem accounted_others : service.Others ok Accounted UploadOpen := by
  intro w e o j holds _ coded _ apart
  have sound := code_sound coded
  have mine := holds.procs j
  change ∀ k ∈ (w.pool.proc j).holds, _ at apart
  change UploadOpen (o.effect.apply w.store) (w.pool.proc j)
  cases phase : w.pool.proc j with
  | claimed u | staged u =>
    rw [phase] at mine apart
    exact Pending.apply mine sound.warranted (apart (.chunk u.chunkIndex) (by simp [Request.holds])).2.2
  | counted u =>
    rw [phase] at mine apart
    obtain ⟨untouched, _, unlocked⟩ := apart .session (by simp [Request.holds])
    have frame : (o.effect.apply w.store).session = w.store.session := by
      rcases sound.frame with touched | locked | frame
      · exact absurd touched untouched
      · exact absurd locked unlocked
      · exact frame
    refine ⟨Pending.apply mine.1 sound.warranted
      (apart (.chunk u.chunkIndex) (by simp [Request.holds])).2.2, ?_⟩
    rw [frame]
    exact mine.2
  | _ => trivial

theorem completedRows_placeholders (totalSize chunkSize totalChunks : ℤ) :
    completedRows (placeholders totalSize chunkSize totalChunks) = [] := by
  simp [completedRows, placeholders, placeholder]

theorem accounted_fresh {w} (fresh : Fresh w) : service.Holds Accounted UploadOpen w := by
  obtain ⟨p, _, _, _, made, rfl⟩ := fresh.created
  obtain ⟨count, bytes, _, _, rfl⟩ := createSession_ok made
  refine ⟨⟨?_, ?_, ?_, ?_⟩, fun _ => trivial, Pool.coherent_idle _ rfl⟩
  · simp only [Store.created, placeholders_chunkIndex]
    exact nodup_range.map fun _ _ => Int.ofNat.inj
  · simp [Store.created, completedRows_placeholders, count]
  · simp [Store.created, completedRows_placeholders, bytes]
  · simp [Store.created, completedRows_placeholders]

/-- The counters agree with the rows in every reached state, whatever restricts the run. -/
theorem accounted {w} (h : Reach service.step Fresh ok w) : service.Holds Accounted UploadOpen w :=
  invariant accounted_own accounted_others (fun _ => accounted_fresh) h

/-- In every reachable state `completed_chunks` counts the completed rows, `bytes_received` is their
total length, and the credited chunks are the completed ones, each credited once. -/
theorem counters_exact {w} (h : Reach service.step Fresh Any w) :
    w.store.session.completedChunks = (completedRows w.store.chunks).length ∧
      w.store.session.bytesReceived = ((completedRows w.store.chunks).map byteLength).sum ∧
      w.store.credited.Nodup ∧
      w.store.credited.Perm ((completedRows w.store.chunks).map chunkIndex) := by
  have acc := (accounted h).store
  refine ⟨acc.count, acc.bytes, ?_, acc.credited⟩
  rw [acc.credited.nodup_iff]
  exact acc.unique.sublist (filter_sublist.map _)

/-- One upload of the only chunk of a three-byte session, and a duplicate of it. -/
def duplicateUpload : List (ℕ × Action) :=
  let u : ChunkUpload := ⟨0, 0, [1, 2, 3], 1⟩
  [(0, .uploadChunk u), (1, .uploadChunk u), (0, .lockChunk), (0, .putChunk), (0, .countChunk),
    (0, .commitChunk), (1, .lockChunk)]

theorem counters_exact_duplicate :
    ∃ w, Reach service.step Fresh Any w ∧ w.store.session.completedChunks = 1 ∧
      w.store.session.completedChunks = (completedRows w.store.chunks).length := by
  obtain ⟨w, reach, ends⟩ : ∃ w, Reach service.step Fresh Any w ∧
      w.store.session.completedChunks = 1 :=
    Reach.exists_of_run (fun w e (_ : unchecked w e = true) => trivial)
      (freshWorld ⟨1, 3, 0, none⟩ 0) duplicateUpload _
      (fun _ made => .start ⟨_, _, made⟩) (by decide)
  exact ⟨w, reach, ends, (counters_exact reach).1⟩

/-! ### Life cycle of an upload session -/

def Status.next : Status → List Status
  | pending => [inProgress, committing, cancelled]
  | inProgress => [committing, cancelled]
  | committing => [committing, inProgress, completed, failed, cancelled]
  | completed | failed | cancelled => []

theorem Status.next_of_terminal {s : Status} (h : s.terminal) : s.next = [] := by
  cases s <;> first | rfl | cases h

variable (st)

def AllCompleted : Prop := ∀ row ∈ st.chunks, row.status = .completed

/-- Tokens are fresh, the chunk rows are those of the session, and at most one finalize took effect.
-/
structure Leases : Prop where
  fresh : ∀ t, st.session.stateToken = some t → t < st.nextToken
  rows : st.chunks.map chunkIndex = chunkIndices st.session.totalChunks
  once : st.finalized.length ≤ 1
  last : st.finalized ≠ [] → st.session.status = .completed

/-- The token of a returned session row was drawn earlier. -/
def Drawn (s : Session) : Prop := ∃ t, s.stateToken = some t ∧ t < st.nextToken

/-- What a completer knows. -/
def LeaseOpen : Request → Prop
  | .leased s | .releasing s _ | .failing s _ => Drawn st s
  | .verified s => Drawn st s ∧ (st.session.stateToken = s.stateToken → AllCompleted st)
  | _ => True

variable {st}

/-! ### One write -/

variable {s : Session}

theorem claimable_status {userId : ℕ} {now : ℤ} (h : s.claimable userId now) :
    s.status = .pending ∨ s.status = .inProgress ∨ s.status = .committing := by
  cases hs : s.status <;> simp_all [Session.claimable, Session.acceptsChunks]

theorem acceptsChunks_status (h : s.acceptsChunks) :
    s.status = .pending ∨ s.status = .inProgress := by
  simpa [Session.acceptsChunks] using h

/-- Every write follows the life cycle. -/
theorem status_apply (warranted : Warranted st q w) (mover : UploadOpen st q) :
    (w.apply st).session.status = st.session.status ∨
      (w.apply st).session.status ∈ st.session.status.next := by
  cases w with
  | claim =>
    obtain ⟨_, _, claimable⟩ := warranted
    rcases claimable_status claimable with hs | hs | hs <;>
      simp [Effect.apply, Session.claim, hs, Status.next]
  | release | fail =>
    obtain ⟨s, e, _, held⟩ := warranted
    simp [Effect.apply, Session.settle, (heldBy_committing held).1, Status.next]
  | finalize =>
    obtain ⟨s, _, _, held⟩ := warranted
    simp [Effect.apply, Session.settle, (heldBy_committing held).1, Status.next]
  | cancel =>
    cases hs : st.session.status <;> simp [Warranted, hs, Status.terminal] at warranted <;>
      simp [Effect.apply, Session.settle, Status.next]
  | completeChunk =>
    obtain ⟨s, c, b, rfl⟩ := warranted
    rcases acceptsChunks_status mover.2.1 with hs | hs <;>
      simp [Effect.apply, Session.countChunk, hs, Status.next]
  | _ => exact .inl rfl

theorem allCompleted_apply (all : AllCompleted st) : AllCompleted (w.apply st) := by
  cases w with
  | completeChunk =>
    intro row mem
    rcases mem_update mem with ⟨old, _⟩ | ⟨old, _, _, rfl⟩
    · exact all row old
    · rfl
  | _ => exact all

theorem drawn_apply (drawn : Drawn st s) : Drawn (w.apply st) s := by
  obtain ⟨t, token, lt⟩ := drawn
  refine ⟨t, token, ?_⟩
  cases w with
  | claim => exact Nat.lt_succ_of_lt lt
  | _ => exact lt

/-- A write gives the row no token that was drawn before, unless it leaves the token alone. -/
theorem stateToken_apply {t : ℕ} (lt : t < st.nextToken)
    (token : (w.apply st).session.stateToken = some t) : st.session.stateToken = some t := by
  cases w with
  | claim =>
    have : st.nextToken = t := Option.some.inj token
    omega
  | release | fail | cancel | finalize token => cases token
  | _ => exact token

theorem verified_apply (h : LeaseOpen st (.verified s)) : LeaseOpen (w.apply st) (.verified s) := by
  obtain ⟨drawn, all⟩ := h
  refine ⟨drawn_apply drawn, fun same => allCompleted_apply (all ?_)⟩
  obtain ⟨t, token, lt⟩ := drawn
  rw [token] at same ⊢
  exact stateToken_apply lt same

/-! ### Steps -/

theorem leaseOpen_apply (h : LeaseOpen st q) : LeaseOpen (w.apply st) q := by
  cases q with
  | leased | releasing | failing => exact drawn_apply h
  | verified => exact verified_apply h
  | _ => trivial

theorem leaseOpen_of_arrival {next : Request} (h : LeaseOpen st q) (arrival : Arrival st q w next) :
    LeaseOpen (w.apply st) next := by
  cases next with
  | leased =>
    obtain ⟨rfl, rfl⟩ := arrival
    exact ⟨st.nextToken, rfl, Nat.lt_succ_self _⟩
  | verified =>
    obtain ⟨rfl, rfl, none⟩ := arrival
    refine ⟨h, fun _ row mem => ?_⟩
    have := List.countP_eq_zero.1 none row mem
    simpa using this
  | releasing =>
    obtain ⟨rfl, rfl | rfl⟩ := arrival
    · exact h
    · exact h.1
  | failing =>
    obtain rfl := arrival
    exact drawn_apply h.1
  | _ => trivial

theorem leases_apply (leases : Leases st) (warranted : Warranted st q w) (mover : UploadOpen st q) :
    Leases (w.apply st) := by
  constructor
  · intro t token
    cases w with
    | claim => obtain rfl := Option.some.inj token; exact Nat.lt_succ_self _
    | release | fail | cancel | finalize token => cases token
    | _ => exact leases.fresh t token
  · cases w with
    | completeChunk u t =>
      have keys : (update chunkIndex u.chunkIndex (.complete t) st.chunks).map
          chunkIndex = st.chunks.map chunkIndex :=
        map_update _ (by intro _; rfl) _
      exact keys.trans leases.rows
    | _ => exact leases.rows
  · cases w with
    | finalize =>
      obtain ⟨s, _, _, held⟩ := warranted
      have committing := (heldBy_committing held).1
      have : st.finalized = [] := by
        by_contra some
        rw [leases.last some] at committing
        cases committing
      simp [Effect.apply, this]
    | _ => exact leases.once
  · intro some
    have status := status_apply warranted mover
    cases w with
    | finalize => rfl
    | _ =>
      have completed := leases.last some
      rw [completed] at status
      simpa [Status.next] using status

/-- A side condition that also grants the facts about uploads. -/
def Known (ok : World Store Request Lock → ℕ × Action → Prop) (w : World Store Request Lock)
    (e : ℕ × Action) : Prop :=
  service.Holds Accounted UploadOpen w ∧ ok w e

theorem leases_own : service.Own (Known ok) Leases LeaseOpen := by
  intro w e o holds ⟨uploads, _⟩ coded
  have sound := code_sound coded
  refine ⟨leases_apply holds.store sound.warranted (uploads.procs e.1), ?_⟩
  rcases sound.arrival with ⟨stays, _⟩ | arrival
  · rw [stays]; exact leaseOpen_apply (holds.procs e.1)
  · exact leaseOpen_of_arrival (holds.procs e.1) arrival

theorem leases_others : service.Others (Known ok) Leases LeaseOpen :=
  fun _ _ _ j holds _ _ _ _ => leaseOpen_apply (holds.procs j)

theorem leases_fresh {w} (fresh : Fresh w) : service.Holds Leases LeaseOpen w := by
  obtain ⟨p, _, _, _, made, rfl⟩ := fresh.created
  obtain ⟨_, _, _, token, rfl⟩ := createSession_ok made
  refine ⟨⟨?_, ?_, ?_, ?_⟩, fun _ => trivial, Pool.coherent_idle _ rfl⟩
  · simp [Store.created, token]
  · simp only [Store.created, placeholders_chunkIndex, chunkIndices]
  · simp [Store.created]
  · simp [Store.created]

theorem leases {w} (h : Reach service.step Fresh ok w) : service.Holds Leases LeaseOpen w :=
  invariant leases_own leases_others (fun _ => leases_fresh) (h.strengthen fun _ => accounted)

/-! ### Whole runs -/

variable {w' : World Store Request Lock} {e : ℕ × Action}

theorem status_step {w} (h : Reach service.step Fresh ok w) (taken : service.step w e = some w') :
    w'.store.session.status = w.store.session.status ∨
      w'.store.session.status ∈ w.store.session.status.next := by
  obtain ⟨o, coded, _, _, rfl⟩ := step_eq_some taken
  exact status_apply (code_sound coded).warranted ((accounted h).procs e.1)

theorem terminal_kept {w} (h : Reach service.step Fresh Any w)
    (later : Reach service.step (· = w) Any w') (terminal : w.store.session.status.terminal) :
    w'.store.session.status = w.store.session.status := by
  induction later with
  | start initial => rw [initial]
  | next before _ taken ih =>
    rcases status_step (h.trans before) taken with same | next
    · rw [same, ih]
    · rw [ih, Status.next_of_terminal terminal] at next
      cases next

/-- The write that enters `completed`. -/
theorem enters_completed {w} (taken : service.step w e = some w')
    (before : w.store.session.status ≠ .completed) (after : w'.store.session.status = .completed) :
    ∃ s, w.pool.proc e.1 = .verified s ∧ w.store.session.heldBy s.stateToken := by
  obtain ⟨o, coded, _, _, rfl⟩ := step_eq_some taken
  have warranted := (code_sound coded).warranted
  change (o.effect.apply w.store).session.status = .completed at after
  cases effect : o.effect with
  | finalize =>
    rw [effect] at warranted
    obtain ⟨s, phase, _, held⟩ := warranted
    exact ⟨s, phase, held⟩
  | completeChunk =>
    rw [effect] at after
    by_cases pending : w.store.session.status = .pending <;>
      simp [Effect.apply, Session.countChunk, pending] at after
    exact absurd after before
  | claim | release | fail | cancel => rw [effect] at after; cases after
  | _ => rw [effect] at after; exact absurd after before

/-- The life cycle of a session: terminal statuses are final, at most one finalize takes effect and
only for the token in the row, and `completed` is entered from `committing` with all chunks
completed. -/
theorem life_cycle {w} (h : Reach service.step Fresh Any w) :
    (∀ w', Reach service.step (· = w) Any w' → w.store.session.status.terminal →
      w'.store.session.status = w.store.session.status) ∧
    w.store.finalized.length ≤ 1 ∧
    (∀ e w' token, service.step w e = some w' → w'.store.finalized = token :: w.store.finalized →
      w.store.session.status = .committing ∧ w.store.session.stateToken = token ∧
        ∃ s, w.pool.proc e.1 = .verified s ∧ s.stateToken = token ∧ token.isSome) ∧
    (∀ e w', service.step w e = some w' → w.store.session.status ≠ .completed →
      w'.store.session.status = .completed → w.store.session.status = .committing ∧
        w.store.chunks.map chunkIndex = chunkIndices w.store.session.totalChunks ∧
        ∀ row ∈ w.store.chunks, row.status = .completed) := by
  refine ⟨fun w' later terminal => terminal_kept h later terminal, (leases h).store.once, ?_, ?_⟩
  · intro e _ token taken recorded
    obtain ⟨o, coded, _, _, rfl⟩ := step_eq_some taken
    have warranted := (code_sound coded).warranted
    change (o.effect.apply w.store).finalized = _ at recorded
    cases effect : o.effect with
    | finalize =>
      rw [effect] at warranted recorded
      obtain ⟨s, phase, rfl, held⟩ := warranted
      obtain ⟨committing, some, stored⟩ := heldBy_committing held
      obtain rfl : s.stateToken = token := (List.cons.inj recorded).1
      exact ⟨committing, stored, s, phase, rfl, some⟩
    | _ => rw [effect] at recorded; exact absurd recorded (by simp [Effect.apply])
  · intro e _ taken before after
    obtain ⟨s, phase, held⟩ := enters_completed taken before after
    obtain ⟨committing, _, stored⟩ := heldBy_committing held
    have completer := (leases h).procs e.1
    rw [phase] at completer
    exact ⟨committing, (leases h).store.rows, completer.2 stored⟩

def uploadAndComplete : List (ℕ × Action) :=
  [(0, .uploadChunk ⟨0, 0, [1, 2, 3], 1⟩), (0, .lockChunk), (0, .putChunk), (0, .countChunk),
    (0, .commitChunk), (1, .completeSession 1), (1, .claimLease), (1, .countIncomplete),
    (1, .finalizeCompleted)]

theorem life_cycle_completed :
    ∃ w, Reach service.step Fresh Any w ∧ w.store.session.status = .completed ∧
      ∀ w', Reach service.step (· = w) Any w' → w'.store.session.status = .completed := by
  obtain ⟨w, reach, completed⟩ : ∃ w, Reach service.step Fresh Any w ∧
      w.store.session.status = .completed :=
    Reach.exists_of_run (fun w e (_ : unchecked w e = true) => trivial)
      (freshWorld ⟨1, 3, 0, none⟩ 0) uploadAndComplete _
      (fun _ made => .start ⟨_, _, made⟩) (by decide)
  refine ⟨w, reach, completed, fun w' later => ?_⟩
  rw [← completed]
  exact (life_cycle reach).1 w' later (by rw [completed]; rfl)

end ArtifactKeeper.Upload
