import ArtifactKeeper.BlobGc.Requests

/-!
# The grace window of an upload

An upload that commits a blob at time `t` should keep its row and its object until `t` plus the
minimum blob age.  The age is counted from `created_at`, the begin of the transaction that inserted the
row; in `grace_window_broken` a re-upload keeps it, so the next pass marks and sweeps the row at once.
-/

namespace ArtifactKeeper.BlobGc

open StepSystem Bool Protocol Reach Pool
open Option hiding map_map mem_map

variable (cfg : Config) (st : Store) (w w' : World Store Request Lock) (e : ℕ × Action)

/-- No other row of the object store is for the blob of an upload, and rows are marked that are past the
minimum age since the last commit of their upload, not only since `created_at`. -/
def Timely : Prop :=
  match e.2, w.pool.proc e.1 with
  | .commitBlob, .began r d _ =>
    ∀ s, cfg.root s = cfg.root r → s ≠ r → w.store.blobs s d = none
  | .stamp, .confirmed .mark r d _ =>
    ∀ t, w.store.lastCommit r d = some t → t + cfg.minAge ≤ w.store.now
  | _, _ => True

/-- The last upload of a blob into an object store is that of its row, and a marked row is past the
window of every upload. -/
structure Graced : Prop where
  past : ∀ r d t, st.lastCommit r d = some t → t ≤ st.now
  latest : ∀ r d row s t, st.blobs r d = some row → cfg.root s = cfg.root r →
    st.lastCommit s d = some t → ∃ t', st.lastCommit r d = some t' ∧ t ≤ t'
  marked : ∀ r d row s t, st.blobs r d = some row → row.pendingDeleteAt.isSome →
    cfg.root s = cfg.root r → st.lastCommit s d = some t → t + cfg.minAge ≤ st.now

def Unstarted : Prop := Quiescent w ∧ ∀ r d, w.store.lastCommit r d = none

/-- The step removes the row of `r` for `d`, or the object it stands for. -/
def Removes (r : Repo) (d : Digest) : Prop :=
  ((w.store.blobs r d).isSome ∧ w'.store.blobs r d = none) ∨
    (w.store.objects (cfg.root r) d = true ∧ w'.store.objects (cfg.root r) d = false)

/-- A sweep past its re-check works on a marked row. -/
def SweepOpen : Request → Prop
  | .confirmed .sweep r d _ | .emptied r d =>
    ∃ row, st.blobs r d = some row ∧ row.pendingDeleteAt.isSome
  | _ => True

variable {cfg st} {q : Request} {a : Action} {o : Statement} {w : Effect}

/-! ### Which action writes what -/

theorem warranted_of (h : code cfg st q a = some o) (effect : o.effect = w) : Warranted q w := by
  rw [← effect]
  exact (code_sound h).warranted

variable {r r' : Repo} {d d' : Digest}

/-- The phase and the action behind a write. -/
def Comes (q : Request) (a : Action) : Effect → Prop
  | .upsertBlob r d t => q = .began r d t ∧ a = .commitBlob
  | .markBlob r d t => q = .confirmed .mark r d t ∧ a = .stamp
  | .persist p seen cleared => q = .ready p seen cleared ∧ a = .commitPush
  | _ => True

theorem comes (h : code cfg st q a = some o) (effect : o.effect = w) : Comes q a w := by
  cases w with
  | upsertBlob | markBlob | persist =>
    obtain rfl : q = _ := warranted_of h effect
    refine ⟨rfl, ?_⟩
    cases a <;> simp [code] at h ⊢ <;> subst h <;> cases effect
  | _ => trivial

variable {t t' : ℤ}

/-! ### Steps -/

theorem lastCommit_apply (cfg : Config) (w : Effect) (st : Store) (r : Repo) (d : Digest) :
    (w.apply cfg st).lastCommit r d = st.lastCommit r d ∨
      (∃ b, w = .upsertBlob r d b) ∧ (w.apply cfg st).lastCommit r d = some st.now := by
  cases w with
  | upsertBlob r₀ d₀ b =>
    by_cases same : r = r₀ ∧ d = d₀
    · obtain ⟨rfl, rfl⟩ := same
      exact .inr ⟨⟨b, rfl⟩, setAt_self ..⟩
    · exact .inl (setAt_of_ne same)
  | deleteManifest =>
    left
    simp only [Effect.apply, Store.deleteManifest]
    split_ifs <;> rfl
  | _ => exact .inl rfl

theorem Graced.lastCommit (graced : Graced cfg st) (h : st.lastCommit r d = some t) :
    ∃ t', (w.apply cfg st).lastCommit r d = some t' ∧ t ≤ t' := by
  rcases lastCommit_apply cfg w st r d with same | ⟨-, now⟩
  · exact ⟨t, same.trans h, Int.le_refl _⟩
  · exact ⟨_, now, graced.past r d t h⟩

theorem upsertBlob_row {b : ℤ} {row : BlobRow} (found : (st.upsertBlob r d b).blobs r d = some row) :
    row.pendingDeleteAt = none := by
  simp only [Store.upsertBlob, setAt_self, some.injEq] at found
  rw [← found]
  split <;> rfl

theorem graced_apply (graced : Graced cfg st)
    (alone : ∀ r d b, w = .upsertBlob r d b → ∀ s, cfg.root s = cfg.root r → s ≠ r →
      st.blobs s d = none)
    (aged : ∀ r d t, w = .markBlob r d t → ∀ t, st.lastCommit r d = some t →
      t + cfg.minAge ≤ st.now) : Graced cfg (w.apply cfg st) := by
  have later : st.now ≤ (w.apply cfg st).now := apply_now
  refine ⟨?_, ?_, ?_⟩
  · intro r d t committed
    rcases lastCommit_apply cfg w st r d with same | ⟨-, now⟩
    · exact Int.le_trans (graced.past r d t (same.symm.trans committed)) later
    · cases now.symm.trans committed
      exact later
  · intro r d _ s t found same committed
    rcases lastCommit_apply cfg w st s d with old | ⟨⟨b, upsert⟩, now⟩
    · rw [old] at committed
      rcases apply_blobs found with ⟨row₀, found₀, -⟩ | ⟨b, rfl, -⟩
      · obtain ⟨t', committed', before⟩ := graced.latest r d row₀ s t found₀ same committed
        obtain ⟨t'', committed'', after⟩ := graced.lastCommit (w := w) committed'
        exact ⟨t'', committed'', Int.le_trans before after⟩
      · exact ⟨_, setAt_self .., graced.past s d t committed⟩
    · by_cases own : r = s
      · exact ⟨t, own ▸ committed, Int.le_refl _⟩
      · rcases apply_blobs found with ⟨_, found₀, -⟩ | ⟨_, rfl, -⟩
        · cases (alone s d b upsert r same.symm own).symm.trans found₀
        · cases upsert
          exact absurd rfl own
  · intro r d _ s t found mark same committed
    rcases lastCommit_apply cfg w st s d with old | ⟨⟨b, rfl⟩, now⟩
    · rw [old] at committed
      rcases apply_blobs found with ⟨row₀, found₀, _, _, marks⟩ | ⟨_, _, _, rfl⟩
      · rcases marks mark with was | ⟨t', stamps⟩
        · exact Int.le_trans (graced.marked r d row₀ s t found₀ was same committed) later
        · obtain ⟨t'', committed', before⟩ := graced.latest r d row₀ s t found₀ same committed
          have past := aged r d t' stamps t'' committed'
          omega
      · cases mark
    · by_cases own : r = s
      · subst own
        rw [upsertBlob_row found] at mark
        cases mark
      · rcases apply_blobs found with ⟨_, found₀, -⟩ | ⟨_, upsert, -⟩
        · cases (alone s d b rfl r same.symm own).symm.trans found₀
        · cases upsert
          exact absurd rfl own

/-- A sweep keeps its row while the rows it has locked are left alone. -/
theorem sweepOpen_apply (h : SweepOpen st q)
    (kept : ∀ r d, .blob r d ∈ q.holds → (w.apply cfg st).blobs r d = st.blobs r d) :
    SweepOpen (w.apply cfg st) q := by
  cases q with
  | confirmed phase r d =>
    cases phase with
    | mark => trivial
    | sweep =>
      obtain ⟨row, found, mark⟩ := h
      exact ⟨row, (kept r d (by simp [Request.holds])).trans found, mark⟩
  | emptied r d =>
    obtain ⟨row, found, mark⟩ := h
    exact ⟨row, (kept r d (by simp [Request.holds])).trans found, mark⟩
  | _ => trivial

theorem sweepOpen_of_arrival {next : Request} (h : SweepOpen st q)
    (arrival : Arrival cfg st q w next) : SweepOpen (w.apply cfg st) next := by
  cases next with
  | confirmed phase =>
    cases phase with
    | mark => trivial
    | sweep =>
      obtain ⟨rfl, _, orphan⟩ := arrival
      unfold stillOrphan at orphan
      split at orphan
      · next row found =>
        simp only [and_eq_true] at orphan
        exact ⟨row, found, orphan.1⟩
      · cases orphan
  | emptied =>
    obtain ⟨rfl, t, rfl⟩ := arrival
    exact h
  | _ => trivial

theorem graced_own : (service cfg).Own (Timely cfg) (Graced cfg) SweepOpen := by
  intro v e o holds timely coded
  constructor
  · refine graced_apply holds.store (fun r d b effect => ?_) fun r d t effect => ?_
    · obtain ⟨phase, action⟩ := comes coded effect
      simpa only [Timely, action, phase] using timely
    · obtain ⟨phase, action⟩ := comes coded effect
      simpa only [Timely, action, phase] using timely
  · rcases (code_sound coded).arrival with ⟨stays, _, effect⟩ | arrival
    · rw [stays]
      refine sweepOpen_apply (holds.procs e.1) fun r d _ => ?_
      rw [effect]
      rfl
    · exact sweepOpen_of_arrival (holds.procs e.1) arrival

theorem graced_others : (service cfg).Others (Timely cfg) (Graced cfg) SweepOpen := by
  intro v e o j holds _ coded _ apart
  refine sweepOpen_apply (holds.procs j) fun r d mine => ?_
  obtain ⟨untouched, _, unlocked⟩ := apart _ mine
  exact (code_sound coded).frame r d untouched unlocked

theorem graced {w} (h : Reach (service cfg).step Unstarted (Timely cfg) w) :
    (service cfg).Holds (Graced cfg) SweepOpen w := by
  refine invariant graced_own graced_others (fun w ⟨quiet, unused⟩ => ?_) h
  refine .of_idle quiet rfl ⟨?_, ?_, ?_⟩ trivial
  · intro r d t committed; rw [unused] at committed; cases committed
  · intro r d _ s t _ _ committed; rw [unused] at committed; cases committed
  · intro r d _ s t _ _ _ committed; rw [unused] at committed; cases committed

def sharedBackend : Config where
  location _ := ⟨"s3", ""⟩
  minBlobAgeSecs := 60

def dayOld (repos : List Repo) : World Store Request Lock where
  store :=
    { blobs := fun r d => if r ∈ repos ∧ d = 7 then some ⟨r, 0, none⟩ else none
      refs := []
      tags := []
      children := []
      objects := fun _ d => d = 7
      now := Machine.seconds (24 * 3600)
      nextId := 100
      lastCommit := fun _ _ => none }
  pool := .idle .idle

def markAndSweep (r : Repo) : List (ℕ × Action) :=
  [(1, .pickOrphan r 7), (1, .lockCandidate), (1, .recheck), (1, .stamp), (2, .tick 1),
    (2, .pickMarked r 7 0), (2, .lockCandidate), (2, .recheck)]

/-- The sweep of repository 0 is about to delete its object. -/
def sweeps (w : World Store Request Lock) : Bool :=
  w.store.objects (sharedBackend.root 0) 7 &&
    ((service sharedBackend).step w (2, .deleteObject)).any fun w' =>
      !w'.store.objects (sharedBackend.root 0) 7

/-- The part of `Timely` that a run can check. -/
def timelyCheck (cfg : Config) (w : World Store Request Lock) (e : ℕ × Action) : Bool :=
  match e.2, w.pool.proc e.1 with
  | .commitBlob, _ => false
  | .stamp, .confirmed .mark r d _ =>
    (w.store.lastCommit r d).all fun t => t + cfg.minAge ≤ w.store.now
  | _, _ => true

theorem timely_of_check (w e) (h : timelyCheck cfg w e = true) : Timely cfg w e := by
  unfold Timely
  unfold timelyCheck at h
  split
  · simp_all
  · next action phase =>
    intro _ found
    simpa [action, phase, found] using h
  · trivial

theorem firstUpload_reached (w)
    (h : ((service sharedBackend).step (dayOld []) (0, .putBlob 0 7)).bind
      (fun w => ((service sharedBackend).step w (0, .beginBlob)).bind
        fun w => (service sharedBackend).step w (0, .commitBlob)) = some w) :
    Reach (service sharedBackend).step Unstarted (Timely sharedBackend) w := by
  obtain ⟨_, put, h⟩ := bind_eq_some_iff.1 h
  obtain ⟨_, began, commit⟩ := bind_eq_some_iff.1 h
  have start : Unstarted (dayOld []) := ⟨rfl, fun _ _ => rfl⟩
  have harmless : Timely sharedBackend (dayOld []) (0, .putBlob 0 7) := trivial
  have harmless' (w) : Timely sharedBackend w (0, .beginBlob) := trivial
  refine .next (.next (.next (.start start) harmless put) (harmless' _) began) ?_ commit
  obtain ⟨_, coded, _, _, rfl⟩ := step_eq_some put
  cases coded
  obtain ⟨_, coded, _, _, rfl⟩ := step_eq_some began
  cases coded
  exact fun s _ _ => by simp [service, Effect.apply, dayOld]

variable (cfg st) (w : World Store Request Lock) (e : ℕ × Action)

def Aged (row : BlobRow) : Prop := row.createdAt + cfg.minAge ≤ st.now

/-- Every other repository of the same object store has at most an old, unreferenced row for `d`. -/
def Spared (r : Repo) (d : Digest) : Prop :=
  ∀ s row, s ≠ r → cfg.root s = cfg.root r → st.blobs s d = some row →
    Aged cfg st row ∧ ¬Referenced st s d

/-- Some sweep of another repository than `s` stands before its delete of the object `s` has for
`d`. -/
def Sweeping (s : Repo) (d : Digest) : Prop :=
  ∃ j r t, w.pool.proc j = .confirmed .sweep r d t ∧ s ≠ r ∧ cfg.root s = cfg.root r

/-- No sweep passes its re-check next to a young sibling row, and no sibling inserts a row or
commits a reference to its row while a sweep stands before its delete. -/
def Separate : Prop :=
  match e.2, w.pool.proc e.1 with
  | .recheck, .locked .sweep r d _ =>
    stillOrphan cfg w.store r d true → ∀ s row, s ≠ r → cfg.root s = cfg.root r → w.store.blobs s d = some row →
      Aged cfg w.store row
  | .commitBlob, .began s d _ => w.store.blobs s d = none → ¬Sweeping cfg w s d
  | .commitPush, .ready p _ _ =>
    ∀ d ∈ p.cls.blobDigests, (w.store.blobs p.repo d).isSome → ¬Sweeping cfg w p.repo d
  | _, _ => True

/-- What a sweep knows between its re-check and its delete. -/
def SweepSpares : Request → Prop
  | .confirmed .sweep r d _ => Spared cfg st r d
  | _ => True

variable {cfg st} {w : Effect}

theorem locked_confirms {phase phase' : Phase} (h : code cfg st (.locked phase r d t) a = some o)
    (next : o.next = .confirmed phase' r' d' t') : a = .recheck := by
  cases a <;> simp [code] at h ⊢ <;> subst h <;> cases next

/-- Sibling rows stay old and unreferenced under writes that neither insert nor reference them. -/
theorem spared_apply (spared : Spared cfg st r d)
    (inserts : ∀ s b, w = .upsertBlob s d b → s ≠ r → cfg.root s = cfg.root r → st.blobs s d ≠ none)
    (references : ∀ p seen cleared, w = .persist p seen cleared → d ∈ p.cls.blobDigests →
      p.repo ≠ r → cfg.root p.repo = cfg.root r → st.blobs p.repo d = none) :
    Spared cfg (w.apply cfg st) r d := by
  intro s _ other same found
  rcases apply_blobs found with ⟨row₀, found₀, _⟩ | ⟨b, effect, none, _⟩
  · obtain ⟨aged, unreferenced⟩ := spared s row₀ other same found₀
    refine ⟨?_, fun ⟨ref, mem, repo, blob⟩ => ?_⟩
    · have later : st.now ≤ (w.apply cfg st).now := apply_now
      unfold Aged at aged ⊢
      omega
    · rcases apply_refs mem with old | ⟨p, seen, cleared, effect, new⟩
      · exact unreferenced ⟨ref, old, repo, blob⟩
      · obtain ⟨owner, names, _⟩ := mem_newRefs new
        rw [repo] at owner
        subst owner
        rw [references p seen cleared effect (blob ▸ names) other same] at found₀
        cases found₀
  · exact absurd none (inserts s b effect other same)

theorem spared_own : (service cfg).Own (Separate cfg) (fun _ => True) (SweepSpares cfg) := by
  intro v e o holds separate coded
  have sound := code_sound coded
  refine ⟨trivial, ?_⟩
  change SweepSpares cfg (o.effect.apply cfg v.store) o.next
  cases next : o.next with
  | confirmed phase =>
    cases phase with
    | mark => trivial
    | sweep =>
      rcases sound.arrival with ⟨stays, _, effect⟩ | arrival
      · have spared := holds.procs e.1
        rw [← stays, next] at spared
        rw [effect]
        exact spared_apply spared (fun _ _ upsert => by cases upsert) fun _ _ _ push => by cases push
      · rw [next] at arrival
        obtain ⟨effect, phase, orphan⟩ := arrival
        rw [phase] at coded
        have action := locked_confirms coded next
        simp only [Separate, action, phase] at separate
        rw [effect]
        exact fun s row other same found =>
          ⟨separate orphan s row other same found, unreferenced_of_orphan orphan same⟩
  | _ => trivial

theorem spared_others : (service cfg).Others (Separate cfg) (fun _ => True) (SweepSpares cfg) := by
  intro v e o j holds separate coded _ _
  have spared := holds.procs j
  change SweepSpares cfg (o.effect.apply cfg v.store) (v.pool.proc j)
  cases phase : v.pool.proc j with
  | confirmed phase' r d t =>
    rw [phase] at spared
    cases phase' with
    | mark => trivial
    | sweep =>
      refine spared_apply spared (fun s b effect other same => ?_)
        fun p seen cleared effect names other same => ?_
      · obtain ⟨mover, action⟩ := comes coded effect
        simp only [Separate, action, mover] at separate
        exact fun none => separate none ⟨j, r, t, phase, other, same⟩
      · obtain ⟨mover, action⟩ := comes coded effect
        simp only [Separate, action, mover] at separate
        by_contra present
        exact separate d names (isSome_iff_ne_none.2 present) ⟨j, r, t, phase, other, same⟩
  | _ => trivial

theorem spared {w} (h : Reach (service cfg).step Quiescent (Separate cfg) w) :
    (service cfg).Holds (fun _ => True) (SweepSpares cfg) w := by
  refine invariant spared_own spared_others (fun w quiet => ?_) h
  exact .of_idle quiet rfl trivial trivial

/-- In every run of separate steps, an object is removed by the sweep of some repository, and only
while every other repository of the same object store has at most an old, unreferenced row for
it. -/
theorem sweep_spares_siblings {w w' e} (h : Reach (service cfg).step Quiescent (Separate cfg) w)
    (taken : (service cfg).step w e = some w') {loc : StorageLocation} {d : Digest}
    (before : w.store.objects loc d = true) (after : w'.store.objects loc d = false) :
    ∃ r t, w.pool.proc e.1 = .confirmed .sweep r d t ∧ cfg.root r = loc ∧
      Spared cfg w.store r d := by
  obtain ⟨o, coded, _, _, rfl⟩ := step_eq_some taken
  obtain ⟨r, effect, same⟩ := removes_object before after
  obtain ⟨t, phase⟩ := warranted_of coded effect
  have knows := (spared h).procs e.1
  rw [phase] at knows
  exact ⟨r, t, phase, same, knows⟩

/-! ### A run that is separate -/

/-- Steps that neither upload nor push. -/
def Collecting (_ : World Store Request Lock) (e : ℕ × Action) : Prop :=
  (e.2 != .commitBlob && e.2 != .commitPush) = true

structure OldRows (cfg : Config) (w : World Store Request Lock) : Prop where
  quiet : Quiescent w
  aged : ∀ r d row, w.store.blobs r d = some row → Aged cfg w.store row

theorem rows_stay_old {w} (h : Reach (service cfg).step (OldRows cfg) Collecting w) :
    ∀ r d row, w.store.blobs r d = some row → Aged cfg w.store row := by
  induction h with
  | start initial => exact initial.aged
  | @next v _ e _ collecting taken old =>
    intro r d row found
    obtain ⟨o, coded, _, _, rfl⟩ := step_eq_some taken
    rcases apply_blobs found with ⟨row₀, found₀, _⟩ | ⟨_, effect, _⟩
    · have aged := old r d row₀ found₀
      have later : v.store.now ≤ (o.effect.apply cfg v.store).now := apply_now
      unfold Aged at aged ⊢
      change row.createdAt + cfg.minAge ≤ (o.effect.apply cfg v.store).now
      omega
    · obtain ⟨-, action⟩ := comes coded effect
      simp [Collecting, action] at collecting

theorem separate_of_collecting {w} (h : Reach (service cfg).step (OldRows cfg) Collecting w) :
    Reach (service cfg).step Quiescent (Separate cfg) w := by
  refine (h.strengthen fun _ => rows_stay_old).mono (fun _ initial => initial.quiet) ?_
  rintro v e ⟨old, _⟩
  unfold Separate
  split
  · exact fun _ s row _ _ found => old s _ row found
  · simp_all [Collecting]
  · simp_all [Collecting]
  · trivial

/-- Two repositories share a day-old blob; the row of the first is swept. -/
theorem sweep_spares_siblings_old_rows :
    ∃ w w', Reach (service sharedBackend).step Quiescent (Separate sharedBackend) w ∧
        (service sharedBackend).step w (2, .deleteObject) = some w' ∧
        (w.store.blobs 1 7).isSome ∧ w.store.objects (sharedBackend.root 0) 7 = true ∧
        w'.store.objects (sharedBackend.root 0) 7 = false ∧
        ∃ r t, w.pool.proc 2 = .confirmed .sweep r 7 t ∧ Spared sharedBackend w.store r 7 := by
  have old : OldRows sharedBackend (dayOld [0, 1]) := by
    refine ⟨rfl, fun r d row found => ?_⟩
    simp only [dayOld] at found
    split_ifs at found
    cases found
    change (0 : ℤ) + sharedBackend.minAge ≤ (dayOld [0, 1]).store.now
    decide
  obtain ⟨w, reach, ends⟩ :=
    exists_of_start (service sharedBackend).step _ (fun w e => @id (Collecting w e)) _ old
      (markAndSweep 0)
      (fun w => (sweeps w && (w.store.blobs 1 7).isSome) = true) (by decide)
  simp only [sweeps, and_eq_true, any_eq_true, not_eq_true'] at ends
  obtain ⟨⟨before, w', taken, after⟩, sibling⟩ := ends
  have separate := separate_of_collecting reach
  obtain ⟨r, t, phase, _, spared⟩ := sweep_spares_siblings separate taken before after
  exact ⟨w, w', separate, taken, sibling, before, after, r, t, phase, spared⟩

/-! ### A swept sibling -/

/-- The sweep of repository 0 deletes the object of a blob that repository 1 has just uploaded. -/
theorem shared_object_swept :
    ∃ cfg w w' e r s d t row,
      Reach (service cfg).step Quiescent Any w ∧ (service cfg).step w e = some w' ∧
        w.pool.proc e.1 = .confirmed .sweep r d t ∧ w.store.objects (cfg.root r) d = true ∧
        w'.store.objects (cfg.root r) d = false ∧ s ≠ r ∧ cfg.root s = cfg.root r ∧
        w.store.blobs s d = some row ∧ ¬Aged cfg w.store row := by
  obtain ⟨w, reach, ends⟩ :=
    exists_of_free (service sharedBackend).step Quiescent (dayOld [0]) rfl
      ((0, .putBlob 1 7) :: (0, .beginBlob) :: (0, .commitBlob) :: markAndSweep 0)
      (fun w => (sweeps w && w.pool.proc 2 == .confirmed .sweep 0 7 86400000001 &&
        (w.store.blobs 1 7).any fun row =>
          ¬row.createdAt + sharedBackend.minAge ≤ w.store.now) = true) (by decide)
  simp only [sweeps, and_eq_true, any_eq_true, not_eq_true', decide_eq_true_eq, beq_iff_eq] at ends
  obtain ⟨⟨⟨before, w', taken, after⟩, phase⟩, row, found, young⟩ := ends
  exact ⟨_, w, w', _, 0, 1, 7, _, row, reach, taken, phase, before, after, by decide, rfl, found,
    young⟩

/-! ### Pushes against the sweep -/

open List

variable (cfg st r) (w : World Store Request Lock) (e : ℕ × Action)

/-- A sweep in `r` that has deleted the object also deletes the row, a delete of the object that
reports an error has not landed, and an upload into `r` commits while its object is there. -/
def Clean : Prop :=
  match e.2, w.pool.proc e.1 with
  | .drop, .emptied s _ => s ≠ r
  | .deleteRowFailed false, .emptied s _ => s ≠ r
  | .deleteObjectFailed true, .confirmed .sweep s _ _ => s ≠ r
  | .commitBlob, .began s d _ => s = r → w.store.objects (cfg.root s) d = true
  | _, _ => True

/-- Every reference of `r` whose push had locked a row still has that row and its object. -/
def Anchored : Prop :=
  ∀ ref ∈ st.refs, ref.repo = r → ∀ id, ref.saw = some id →
    (∃ row, st.blobs r ref.blob = some row ∧ row.id = id) ∧ st.objects (cfg.root r) ref.blob = true

/-- A row of `r` without its object is being swept. -/
def Backed : Prop :=
  ∀ d, (w.store.blobs r d).isSome → w.store.objects (cfg.root r) d = false →
    ∃ j, w.pool.proc j = .emptied r d

/-- No reference to the blob of `r` comes from a push that had locked its row. -/
def Unseen (d : Digest) : Prop :=
  ∀ ref ∈ st.refs, ref.repo = r → ref.blob = d → ref.saw = none

/-- The rows a push has locked are in place. -/
def InPlace (seen : List (Digest × ℕ)) : Prop :=
  ∀ d id, (d, id) ∈ seen → ∃ row, st.blobs r d = some row ∧ row.id = id

/-- What pushes and sweeps know under their locks. -/
def Knows : Request → Prop
  | .locking p _ seen | .ready p seen _ => InPlace st p.repo seen
  | .confirmed .sweep r d _ | .emptied r d => Unseen st r d
  | _ => True

variable {cfg st r} {w : Effect}

/-! ### Which action leads where -/

theorem confirmed_empties (h : code cfg st (.confirmed .sweep r d t) a = some o)
    (effect : o.effect = .deleteObject r' d') :
    o.next = .emptied r d ∨ a = .deleteObjectFailed true := by
  cases a with
  | deleteObjectFailed landed => cases landed <;> cases h <;> simp_all
  | _ => simp [code] at h <;> subst h <;> simp_all

theorem emptied_leaves (h : code cfg st (.emptied r d) a = some o) :
    o.next = .emptied r d ∨ o.effect = .deleteBlob r d ∨ a = .drop ∨
      a = .deleteRowFailed false := by
  cases a with
  | deleteRowFailed landed => cases landed <;> cases h <;> simp
  | _ => simp [code] at h ⊢ <;> subst h <;> simp

/-! ### Rows and objects -/

theorem keeps_row {row : BlobRow} (found : st.blobs r d = some row) (kept : w ≠ .deleteBlob r d) :
    ∃ row', (w.apply cfg st).blobs r d = some row' ∧ row'.id = row.id := by
  cases after : (w.apply cfg st).blobs r d with
  | none => exact absurd (removes_blob (by rw [found]; rfl) after) kept
  | some row' =>
    rcases apply_blobs after with ⟨_, found₀, same, _⟩ | ⟨_, _, missing, _⟩
    · rw [found] at found₀
      cases found₀
      exact ⟨row', rfl, same⟩
    · rw [found] at missing
      cases missing

theorem backed_step (own : ∀ s, cfg.root s = cfg.root r → s = r)
    {v v' e} (backed : Backed cfg r v) (clean : Clean cfg r v e) (taken : (service cfg).step v e = some v') : Backed cfg r v' := by
  obtain ⟨o, coded, _, _, rfl⟩ := step_eq_some taken
  intro d present missing
  by_cases before : v.store.objects (cfg.root r) d = true
  · obtain ⟨s, effect, same⟩ := removes_object before missing
    obtain rfl := own s same
    obtain ⟨t, phase⟩ := warranted_of coded effect
    rw [phase] at coded
    rcases confirmed_empties coded effect with next | action
    · exact ⟨e.1, by rw [← next]; exact move_proc_self _ _ _ _⟩
    · simp [Clean, action, phase] at clean
  · obtain ⟨_, found⟩ := isSome_iff_exists.1 present
    rcases apply_blobs found with ⟨_, found₀, _⟩ | ⟨_, effect, _⟩
    · obtain ⟨j, swept⟩ := backed d (by rw [found₀]; rfl) (by simpa using before)
      refine ⟨j, ?_⟩
      by_cases mover : j = e.1
      · subst mover
        rw [swept] at coded
        rcases emptied_leaves coded with next | effect | action | action
        · rw [← next]; exact move_proc_self _ _ _ _
        · rw [effect] at found
          simp [service, Effect.apply] at found
        · simp [Clean, action, swept] at clean
        · simp [Clean, action, swept] at clean
      · exact (move_proc_ne _ _ _ mover).trans swept
    · obtain ⟨phase, action⟩ := comes coded effect
      simp only [Clean, action, phase] at clean
      exact absurd (clean trivial) before

/-- A quiescent start in which every row of `r` has its object, and the references of `r` their
rows. -/
structure Intact (cfg : Config) (r : Repo) (w : World Store Request Lock) : Prop where
  quiet : Quiescent w
  anchored : Anchored cfg w.store r
  stored : ∀ d, (w.store.blobs r d).isSome → w.store.objects (cfg.root r) d = true

theorem backed (own : ∀ s, cfg.root s = cfg.root r → s = r)
    (w) (h : Reach (service cfg).step (Intact cfg r) (Clean cfg r) w) :
    Backed cfg r w := by
  refine h.invariant (fun v intact d present missing => ?_) fun v e v' => backed_step own
  rw [intact.stored d present] at missing
  cases missing

/-! ### What pushes and sweeps know -/

variable {seen : List (Digest × ℕ)} {id : ℕ}

theorem ready_locks {p : Push} {cleared : List Digest} (mem : (d, id) ∈ seen) :
    .blob p.repo d ∈ (Request.ready p seen cleared).holds := by
  simp only [Request.holds, Push.blobLocks, mem_cons, mem_map, mem_append]
  exact .inr ⟨d, .inl ⟨(d, id), mem, rfl⟩, rfl⟩

theorem unseen_apply (unseen : Unseen st r d)
    (foreign : ∀ p seen cleared id, w = .persist p seen cleared → p.repo = r →
      (d, id) ∉ seen) : Unseen (w.apply cfg st) r d := by
  intro ref mem repo blob
  rcases apply_refs mem with old | ⟨p, seen, cleared, effect, new⟩
  · exact unseen ref old repo blob
  · obtain ⟨owner, _, saw⟩ := mem_newRefs new
    rw [saw, blob, lookup_eq_none_iff]
    rintro ⟨_, id⟩ locked
    rw [bne_iff_ne]
    rintro rfl
    exact foreign p seen cleared id effect (owner.symm.trans repo) locked

/-- What a request knows is kept while the rows it has locked are left alone and no push holds the
row it sweeps. -/
theorem knows_apply (knows : Knows st q)
    (kept : ∀ r d, .blob r d ∈ q.holds → (w.apply cfg st).blobs r d = st.blobs r d)
    (foreign : ∀ p seen cleared r d id, w = .persist p seen cleared → p.repo = r →
      .blob r d ∈ q.holds → (d, id) ∉ seen) : Knows (w.apply cfg st) q := by
  have inPlace (p : Push) (seen : List (Digest × ℕ)) (h : InPlace st p.repo seen)
      (locks : ∀ d id, (d, id) ∈ seen → .blob p.repo d ∈ q.holds) :
      InPlace (w.apply cfg st) p.repo seen := by
    intro d id mem
    rw [kept p.repo d (locks d id mem)]
    exact h d id mem
  cases q with
  | locking p _ seen =>
    refine inPlace p seen knows fun d id mem => ?_
    simp only [Request.holds, Push.blobLocks, map_map, mem_cons, mem_map]
    exact .inr ⟨(d, id), mem, rfl⟩
  | ready p seen => exact inPlace p seen knows fun d id mem => ready_locks mem
  | confirmed phase r d =>
    cases phase with
    | mark => trivial
    | sweep =>
      exact unseen_apply knows fun p seen cleared id effect same =>
        foreign p seen cleared r d id effect same (by simp [Request.holds])
  | emptied r d =>
    exact unseen_apply knows fun p seen cleared id effect same =>
      foreign p seen cleared r d id effect same (by simp [Request.holds])
  | _ => trivial

theorem knows_of_arrival {next : Request} (knows : Knows st q)
    (arrival : Arrival cfg st q w next) : Knows (w.apply cfg st) next := by
  cases next with
  | locking =>
    obtain ⟨rfl, rfl | ⟨_, rfl⟩ | ⟨d, id, _, row, rfl, rfl, found, same⟩⟩ := arrival
    · exact fun d id mem => absurd mem (not_mem_nil)
    · exact knows
    · intro d' id' mem
      rcases mem_cons.1 mem with head | tail
      · cases head
        exact ⟨row, found, same⟩
      · exact knows d' id' tail
  | ready =>
    obtain ⟨rfl, rfl⟩ := arrival
    exact knows
  | confirmed phase =>
    cases phase with
    | mark => trivial
    | sweep =>
      obtain ⟨rfl, _, orphan⟩ := arrival
      exact fun ref mem repo blob =>
        absurd ⟨ref, mem, repo, blob⟩ (unreferenced_of_orphan orphan rfl)
  | emptied =>
    obtain ⟨rfl, t, rfl⟩ := arrival
    exact knows
  | _ => trivial

theorem mem_of_lookup (h : seen.lookup d = some id) : (d, id) ∈ seen := by
  obtain ⟨_, _, rfl, _⟩ := lookup_eq_some_iff.1 h
  simp

/-! ### Runs -/

theorem stored_of_locked {v i} (locks : v.pool.Coherent (service cfg).holds) (backed : Backed cfg r v)
    (present : (v.store.blobs r d).isSome) (locked : .blob r d ∈ (v.pool.proc i).holds)
    (pushing : v.pool.proc i ≠ .emptied r d) : v.store.objects (cfg.root r) d = true := by
  by_contra missing
  obtain ⟨j, swept⟩ := backed d present (eq_false_iff.2 missing)
  have owned := (locks (.blob r d) i).2 locked
  have swept' : .blob r d ∈ (v.pool.proc j).holds := by simp [swept, Request.holds]
  rw [(locks (.blob r d) j).2 swept'] at owned
  cases owned
  exact pushing swept

/-- A write keeps old references anchored unless it takes their row or object, which the sweep does
only after its re-check. -/
theorem anchored_old (own : ∀ s, cfg.root s = cfg.root r → s = r) (anchored : Anchored cfg st r)
    (warranted : Warranted q w) (knows : Knows st q) {ref : BlobRef} (mem : ref ∈ st.refs)
    (repo : ref.repo = r) (saw : ref.saw = some id) :
    (∃ row, (w.apply cfg st).blobs r ref.blob = some row ∧ row.id = id) ∧
      (w.apply cfg st).objects (cfg.root r) ref.blob = true := by
  have seen (unseen : Unseen st r ref.blob) : False := by
    rw [unseen ref mem repo rfl] at saw
    cases saw
  obtain ⟨⟨_, found, same⟩, object⟩ := anchored ref mem repo id saw
  constructor
  · have kept : w ≠ .deleteBlob r ref.blob := by
      rintro rfl
      obtain rfl : q = .emptied r ref.blob := warranted
      exact seen knows
    obtain ⟨row', found', same'⟩ := keeps_row found kept
    exact ⟨row', found', same'.trans same⟩
  · by_contra missing
    obtain ⟨s, rfl, shared⟩ := removes_object object (eq_false_iff.2 missing)
    obtain rfl := own s shared
    obtain ⟨t, rfl⟩ := warranted
    exact seen knows

theorem anchored_own (own : ∀ s, cfg.root s = cfg.root r → s = r) :
    (service cfg).Own (fun w e => Backed cfg r w ∧ Clean cfg r w e) (fun st => Anchored cfg st r)
      Knows := by
  intro v e o holds ⟨backed, _⟩ coded
  have sound := code_sound coded
  have warranted := sound.warranted
  constructor
  · intro ref mem repo _ saw
    rcases apply_refs mem with old | ⟨p, _, _, effect, new⟩
    · exact anchored_old own holds.store warranted (holds.procs e.1) old repo saw
    · obtain ⟨owner, _, locked⟩ := mem_newRefs new
      obtain rfl : r = p.repo := repo.symm.trans owner
      have inSeen := mem_of_lookup (locked.symm.trans saw)
      obtain ⟨phase, -⟩ := comes coded effect
      have knows := holds.procs e.1
      rw [phase] at knows
      obtain ⟨_, found, same⟩ := knows _ _ inSeen
      have kept : o.effect ≠ .deleteBlob p.repo ref.blob := by rw [effect]; nofun
      obtain ⟨row', found', same'⟩ := keeps_row found kept
      refine ⟨⟨row', found', same'.trans same⟩, ?_⟩
      have object : v.store.objects (cfg.root p.repo) ref.blob = true := by
        have locked : .blob p.repo ref.blob ∈ (v.pool.proc e.1).holds := by
          rw [phase]; exact ready_locks inSeen
        exact stored_of_locked holds.locks backed (by rw [found]; rfl) locked (by simp [phase])
      change (o.effect.apply cfg v.store).objects (cfg.root p.repo) ref.blob = true
      rw [effect]
      exact object
  · rcases sound.arrival with ⟨stays, _, effect⟩ | arrival
    · rw [stays]
      refine knows_apply (holds.procs e.1) (fun r d _ => ?_) fun p seen cleared r d id push => ?_
      · rw [effect]
        rfl
      · rw [effect] at push
        cases push
    · exact knows_of_arrival (holds.procs e.1) arrival

theorem anchored_others :
    (service cfg).Others (fun w e => Backed cfg r w ∧ Clean cfg r w e)
      (fun st => Anchored cfg st r) Knows := by
  intro v e o j holds _ coded _ apart
  have sound := code_sound coded
  refine knows_apply (holds.procs j) (fun s d mine => ?_)
    fun p seen cleared s d id effect same mine locked => ?_
  · obtain ⟨untouched, _, unlocked⟩ := apart _ mine
    exact sound.frame s d untouched unlocked
  · obtain ⟨phase, -⟩ := comes coded effect
    have unlocked := (apart _ mine).2.2
    rw [phase, ← same] at unlocked
    exact unlocked (ready_locks locked)

/-- In a repository with its own storage, and in every run of clean steps, a reference whose push
had locked the blob's row keeps that row and its object. -/
theorem locked_references_stay (own : ∀ s, cfg.root s = cfg.root r → s = r)
    {w} (h : Reach (service cfg).step (Intact cfg r) (Clean cfg r) w) : Anchored cfg w.store r := by
  have holds := invariant (anchored_own own) anchored_others (fun w intact => ?_)
    (h.strengthen (backed own))
  · exact holds.store
  · exact .of_idle intact.quiet rfl intact.anchored trivial

/-! ### A clean run -/

def ownDirectory : Config where
  location s := if s = 0 then ⟨"filesystem", "/data/0"⟩ else ⟨"s3", ""⟩
  minBlobAgeSecs := 60

theorem ownDirectory_own (s : Repo) (same : ownDirectory.root s = ownDirectory.root 0) : s = 0 := by
  by_contra other
  simp only [ownDirectory, Config.root, if_neg other] at same
  revert same
  decide

theorem dayOld_intact : Intact ownDirectory 0 (dayOld [0]) := by
  refine ⟨rfl, fun ref mem => (not_mem_nil mem).elim, fun d present => ?_⟩
  simp only [dayOld] at present ⊢
  split_ifs at present with row
  · simpa using row.2
  · cases present

def pushImage : List (ℕ × Action) :=
  [(3, .beginPush ⟨0, 1, 1, 9, .image [7]⟩), (3, .scanBlobs), (3, .lockBlob), (3, .clearMarks),
    (3, .commitPush)]

def hasSeen (st : Store) : Bool := st.refs.any fun ref => ref.repo = 0 && ref.saw.isSome

def cleanCheck (_ : World Store Request Lock) (e : ℕ × Action) : Bool :=
  e.2 != .drop && e.2 != .deleteRowFailed false && e.2 != .deleteObjectFailed true &&
    e.2 != .commitBlob

theorem clean_of_check (w e) (h : cleanCheck w e = true) : Clean cfg r w e := by
  unfold Clean
  split <;> simp_all [cleanCheck]

/-- A push references a marked blob before the sweep takes it. -/
theorem locked_references_stay_resurrected :
    ∃ w, Reach (service ownDirectory).step (Intact ownDirectory 0) (Clean ownDirectory 0) w ∧
        hasSeen w.store ∧ Anchored ownDirectory w.store 0 := by
  obtain ⟨w, reach, seen, -⟩ :=
    exists_of_start (service ownDirectory).step _ clean_of_check _ dayOld_intact
      ((markAndSweep 0).take 6 ++ pushImage ++ (markAndSweep 0).drop 6)
      (fun w => hasSeen w.store ∧ w.pool.proc 2 = .finished) (by decide)
  exact ⟨w, reach, seen, locked_references_stay ownDirectory_own reach⟩

/-! ### A dangling reference -/

/-- A sweep deletes the object and fails to delete the row; a push then references the blob. -/
theorem dangling_reference :
    ∃ cfg r w ref id, (∀ s, cfg.root s = cfg.root r → s = r) ∧
        Reach (service cfg).step (Intact cfg r) Any w ∧ ref ∈ w.store.refs ∧ ref.repo = r ∧
        ref.saw = some id ∧ w.store.objects (cfg.root r) ref.blob = false := by
  obtain ⟨w, reach, ref, mem, repo, saw, missing⟩ :=
    exists_of_free (service ownDirectory).step _ _ dayOld_intact
      (markAndSweep 0 ++ [(2, .deleteObject), (2, .deleteRowFailed false)] ++ pushImage)
      (fun w => ∃ ref ∈ w.store.refs, ref.repo = 0 ∧ ref.saw.isSome ∧
        w.store.objects (ownDirectory.root 0) ref.blob = false) (by decide)
  obtain ⟨id, saw⟩ := isSome_iff_exists.1 saw
  exact ⟨_, 0, w, ref, id, ownDirectory_own, reach, mem, repo, saw, missing⟩

end ArtifactKeeper.BlobGc
