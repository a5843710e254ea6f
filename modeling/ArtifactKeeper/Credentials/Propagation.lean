import ArtifactKeeper.Credentials.Requests

/-!
# How long a check can be out of date

A commit may come with levels: watermarks that the row of its user has reached for good (`Level`,
`Upheld`).
-/

namespace ArtifactKeeper.Credentials

open Machine StepSystem Option Function Protocol Int

variable {st : Store} {q : Request} {a : Action} {o : Statement}

variable (user d : ℕ) (Level : Commit → ℤ → Prop) (w : World Store Request ℕ) (e : ℕ × Action)

def Timely : Prop :=
  ∀ c row, e.2 = .settle → w.pool.proc e.1 = .fetched c row → w.store.now ≤ c.started + d

def effect : Option Effect :=
  (code w.store (w.pool.proc e.1) e.2).map Outcome.effect

/-- A local invalidation of the user that raises or inserts an entry brings it up to the row. -/
def Abreast : Prop :=
  ∀ replica watermark, effect w e = some (.invalidate replica user watermark) →
    w.store.Raises replica user watermark →
    ∀ row, w.store.users user = some row → row.watermark ≤ watermark

theorem effect_of_code {w e}
    (coded : code w.store (w.pool.proc e.1) e.2 = some o) : effect w e = some o.effect := by
  rw [effect, coded, map_some]

/-- From the commit on nothing below the level is recorded, and from the end of the lifetime on
nothing below it is accepted. -/
structure Settled (st : Store) (m : Commit) (level : ℤ) : Prop where
  entries : ∀ r e, st.invalidations r m.user = some e →
    level ≤ e.watermark ∨ e.recorded ≤ m.committed + d
  verdicts : ∀ v ∈ st.verdicts, v.user = m.user →
    m.committed + seconds cacheTtlSecs + d ≤ v.started → v.rejected = false → level ≤ v.iat

section Levels

def Upheld (st : Store) : Prop :=
  ∀ m ∈ st.commits, m.user = user → ∀ level, Level m level →
    ∃ row, st.users user = some row ∧ level ≤ row.watermark

/-- The levels are settled, and what was observed lies in the past. -/
structure Fresh (st : Store) : Prop where
  recorded : ∀ r u e, st.invalidations r u = some e → e.recorded ≤ st.now
  judged : ∀ v ∈ st.verdicts, v.started ≤ st.now
  settled : ∀ m ∈ st.commits, m.user = user → ∀ level, Level m level → Settled d st m level

/-- A lookup has read the levels, unless it began before the commit. -/
def Clear (st : Store) : Request → Prop
  | .checking c => c.started ≤ st.now
  | .fetched c row => c.started ≤ st.now ∧ (c.user = user → ∀ m ∈ st.commits, m.user = user →
      ∀ level, Level m level → (∃ r, row = some r ∧ level ≤ r.watermark) ∨ c.started ≤ m.committed)
  | _ => True

structure Prompt : Prop where
  upheld : Upheld user Level w.store
  timely : Timely d w e
  abreast : Abreast user w e

/-! ### Recorded watermarks -/

variable {user d Level} {w : Effect} {v : Verdict} {r : ℕ} {watermark : ℤ}

theorem row_of_records {row : Option UserRow}
    (h : (Effect.judge v ((row.filter (·.isActive)).map UserRow.watermark)).records =
      some (r, user, watermark)) :
    ∃ found, row = some found ∧ v.user = user ∧ watermark = found.watermark := by
  obtain ⟨x, recorded, same⟩ := map_eq_some_iff.1 h
  obtain ⟨-, mine, rfl⟩ : v.replica = r ∧ v.user = user ∧ x = watermark := by simpa using same
  obtain ⟨found, kept, rfl⟩ := map_eq_some_iff.1 recorded
  exact ⟨found, (filter_eq_some_iff.1 kept).1, mine, rfl⟩

theorem watermark_le_of_accepted {r : UserRow} {iat : ℤ}
    (h : isTokenInvalidated (some r.credentials) iat = false) : r.watermark ≤ iat := by
  simp only [isTokenInvalidated, Bool.or_eq_false_iff] at h
  exact not_lt.1 (of_decide_eq_false h.2)

variable {next : Request} {m : Commit} {level : ℤ}

section

variable (does : Does st q a w next) (clear : Clear user Level st q)
include does clear

theorem recorded_in_time (upheld : Upheld user Level st)
    (timely : ∀ c row, a = .settle → q = .fetched c row → st.now ≤ c.started + d)
    (abreast : ∀ r x, w = .invalidate r user x → st.Raises r user x →
      ∀ row, st.users user = some row → row.watermark ≤ x) (mem : m ∈ st.commits)
    (mine : m.user = user) (leveled : Level m level)
    (records : w.records = some (r, user, watermark)) (raises : st.Raises r user watermark) :
    level ≤ watermark ∨ st.now ≤ m.committed + d := by
  have localOne (x : ℤ) (invalidates : w = .invalidate r user x) (same : x = watermark) :
      level ≤ watermark := by
    obtain ⟨row, found, reached⟩ := upheld m mem mine level leveled
    subst same
    exact le_trans reached (abreast r x invalidates raises row found)
  cases does with
  | settle c =>
    obtain ⟨_, rfl, same, rfl⟩ := row_of_records records
    rcases clear.2 same m mem mine level leveled with ⟨_, same, reached⟩ | _
    · cases same
      exact .inl reached
    · have soon := timely c _ rfl rfl
      exact .inr (by omega)
  | invalidate | invalidateOthers => cases records; exact .inl (localOne _ rfl rfl)
  | _ => cases records

theorem accepted_above (fresh : Fresh user d Level st) (mem : m ∈ st.commits)
    (mine : m.user = user) (leveled : Level m level) (judged : w.judged = some v)
    (same : v.user = m.user) (late : m.committed + seconds cacheTtlSecs + d ≤ v.started)
    (accepted : v.rejected = false) :
    level ≤ v.iat := by
  cases does with
  | hit a c e starts found =>
    cases judged
    have reached : c.started = st.now := starts.now
    simp only [Check.verdict] at late same accepted ⊢
    rw [same] at found
    rcases (fresh.settled m mem mine level leveled).entries _ e found with above | _
    · exact le_trans above (not_lt.1 (of_decide_eq_false accepted))
    · omega
  | settle =>
    cases judged
    simp only [Check.verdict, seconds, cacheTtlSecs] at late same accepted ⊢
    rcases clear.2 (same.trans mine) m mem mine level leveled with ⟨r, rfl, above⟩ | _
    · exact le_trans above (watermark_le_of_accepted accepted)
    · omega
  | _ => cases judged

/-! ### Steps -/

theorem Does.judged_past (judged : w.judged = some v) : v.started ≤ st.now := by
  cases does with
  | hit a c e starts => cases judged; exact le_of_eq starts.now
  | settle => cases judged; exact clear.1
  | _ => cases judged

theorem Does.fresh (fresh : Fresh user d Level st) (upheld : Upheld user Level st)
    (timely : ∀ c row, a = .settle → q = .fetched c row → st.now ≤ c.started + d)
    (abreast : ∀ r x, w = .invalidate r user x → st.Raises r user x →
      ∀ row, st.users user = some row → row.watermark ≤ x) : Fresh user d Level (w.apply st) := by
  have later := apply_now w st
  have recorded (r u : ℕ) (e : Entry) (found : (w.apply st).invalidations r u = some e) :
      e.recorded ≤ st.now := by
    rcases entry_of_apply found with before | ⟨-, at_, -⟩
    · exact fresh.recorded r u e before
    · exact le_of_eq at_
  have judged (v : Verdict) (mem : v ∈ (w.apply st).verdicts) : v.started ≤ st.now := by
    rcases mem_verdicts.1 mem with now | before
    · exact does.judged_past clear now
    · exact fresh.judged v before
  refine ⟨fun r u e found => le_trans (recorded r u e found) later,
    fun v mem => le_trans (judged v mem) later, fun m mem mine level leveled => ?_⟩
  rcases mem_commits.1 mem with new | old
  · -- whatever is there was recorded and judged before the commit
    have at_ := (does.commits new).1
    refine ⟨fun r e found => .inr ?_, fun v mem' _ late _ => ?_⟩
    · have before := recorded r _ e found
      omega
    · have before := judged v mem'
      simp only [seconds, cacheTtlSecs] at late
      omega
  · refine ⟨fun r e found => ?_, fun v mem' same late accepted => ?_⟩
    · rcases entry_of_apply found with before | ⟨records, at_, raises⟩
      · exact (fresh.settled m old mine level leveled).entries r e before
      · rw [mine] at records raises
        rw [at_]
        exact recorded_in_time does clear upheld timely abreast old mine leveled records raises
    · rcases mem_verdicts.1 mem' with now | before
      · exact accepted_above does clear fresh old mine leveled now same late accepted
      · exact (fresh.settled m old mine level leveled).verdicts v before same late accepted

end

/-- What a lookup has read stays current, as commits only follow it. -/
theorem Clear.apply (clear : Clear user Level st q)
    (stamped : ∀ m, w.committed = some m → m.committed = st.now) :
    Clear user Level (w.apply st) q := by
  have later := apply_now w st
  cases q with
  | checking => exact le_trans clear later
  | fetched =>
    refine ⟨le_trans clear.1 later, fun same m mem mine level leveled => ?_⟩
    rcases mem_commits.1 mem with new | old
    · exact .inr (stamped m new ▸ clear.1)
    · exact clear.2 same m old mine level leveled
  | _ => trivial

theorem clear_next (c : Check) (rejected : Bool) : Clear user Level st (c.next rejected) := by
  rcases c.next_cases rejected with done | ⟨k, -, -, opened⟩
  · rw [done]
    trivial
  · rw [opened]
    trivial

theorem Does.clear (does : Does st q a w next) (clear : Clear user Level st q)
    (upheld : Upheld user Level st) : Clear user Level (w.apply st) next := by
  have kept : Clear user Level (w.apply st) q := clear.apply fun m new => (does.commits new).1
  cases does with
  | tick | setClock | setDbClock | setActive => exact kept
  | miss a c starts => exact le_of_eq starts.now
  | query =>
    refine ⟨clear, fun same m mem mine level leveled => .inl ?_⟩
    rw [same]
    exact upheld m mem mine level leveled
  | hit | settle => exact clear_next _ _
  | invalidateOthers _ _ _ m => cases m <;> trivial
  | _ => trivial

/-! ### Runs -/

theorem fresh_own : service.Own (Prompt user d Level) (Fresh user d Level) (Clear user Level) := by
  intro w e o before known coded
  have does := code_does coded
  have clear := before.procs e.1
  refine ⟨does.fresh clear before.store known.upheld known.timely ?_, does.clear clear known.upheld⟩
  exact fun r x invalidates => known.abreast r x (invalidates ▸ effect_of_code coded)

theorem fresh_others :
    service.Others (Prompt user d Level) (Fresh user d Level) (Clear user Level) := by
  intro w e o j before _ coded _ _
  exact (before.procs j).apply fun m new => ((code_does coded).commits new).1

/-- No request is under way, and nothing is cached or judged. -/
structure Started (w : World Store Request ℕ) : Prop where
  idle : w.pool = .idle .idle
  uncached : ∀ r u, w.store.invalidations r u = none
  unjudged : w.store.verdicts = []

theorem fresh {w} (h : Reach service.step Started (Prompt user d Level) w) :
    service.Holds (Fresh user d Level) (Clear user Level) w := by
  refine invariant fresh_own fresh_others (fun w start => ?_) h
  have absent {r u : ℕ} {e : Entry} : w.store.invalidations r u ≠ some e := by
    rw [start.uncached]
    exact nofun
  refine .of_idle start.idle rfl
    ⟨fun r u e found => absurd found absent, ?_, fun m _ _ level _ => ⟨?_, ?_⟩⟩ trivial
  · rw [start.unjudged]
    exact nofun
  · exact fun r e found => absurd found absent
  · rw [start.unjudged]
    exact nofun

end Levels

/-! ### Credential changes reach every replica -/

open Bool

def Raising : Prop :=
  ∀ row m before, effect w e = some (.commit row m) → m.user = user →
    w.store.users user = some before → before.changedAt ≤ row.changedAt

def StaysActive (_ : World Store Request ℕ) (e : ℕ × Action) : Prop :=
  e.2 ≠ .setActive user false

def Commit.watermark (m : Commit) : ℤ := applyDbClockSkewTolerance (timestampMillis m.changedAt)

/-! ### The row -/

/-- The user is active, and the row has the highest timestamp of the commits. -/
structure Stored (st : Store) (row : UserRow) : Prop where
  found : st.users user = some row
  active : row.isActive = true
  highest : ∀ m ∈ st.commits, m.user = user → m.changedAt ≤ row.changedAt
  reached : ∃ m ∈ st.commits, m.user = user ∧ m.changedAt = row.changedAt

variable {user d} {w : Effect} {next : Request} {row : UserRow}

theorem Does.commit_row {m : Commit} (does : Does st q a w next)
    (committed : w = .commit row m) : ∃ before, st.users m.user = some before ∧
      row.isActive = before.isActive ∧ m.changedAt = row.changedAt := by
  cases does with
  | commitChange _ _ column _ before found =>
    cases committed
    refine ⟨before, found, ?_, rfl⟩
    cases column <;> rfl
  | enable k at_ before found | disable k before found =>
    cases committed; exact ⟨before, found, rfl, rfl⟩
  | _ => cases committed

theorem Stored.apply (stored : Stored user st row)
    (does : Does st q a w next) (active : a ≠ .setActive user false)
    (raises : ∀ row' m, w = .commit row' m → m.user = user → row.changedAt ≤ row'.changedAt) :
    ∃ row', Stored user (w.apply st) row' := by
  obtain ⟨found, isActive, highest, reached⟩ := stored
  cases effect : w with
  | setActive u row' b =>
    subst effect
    cases does with
    | setActive q u b _ found' =>
      by_cases same : u = user
      · subst same
        cases found.symm.trans found'
        cases b with
        | true =>
          exact ⟨{ row with isActive := true }, update_self .., rfl, highest, reached⟩
        | false => exact absurd rfl active
      · exact ⟨row, (update_of_ne (Ne.symm same) ..).trans found, isActive, highest, reached⟩
  | commit row' m =>
    obtain ⟨_, found', keeps, changedAt⟩ := does.commit_row effect
    by_cases same : m.user = user
    · have above := raises row' m effect same
      rw [same, found] at found'
      cases found'
      refine ⟨row', ⟨?_, keeps.trans isActive, fun m' mem mine => ?_, ?_⟩⟩
      · simp only [Effect.apply, same, update_self]
      · rcases List.mem_cons.1 mem with rfl | old
        · exact le_of_eq changedAt
        · exact le_trans (highest m' old mine) above
      · exact ⟨m, .head _, same, changedAt⟩
    · refine ⟨row, ⟨?_, isActive, fun m' mem mine => ?_, ?_⟩⟩
      · exact (update_of_ne (Ne.symm same) ..).trans found
      · rcases List.mem_cons.1 mem with rfl | old
        · exact absurd mine same
        · exact highest m' old mine
      · obtain ⟨m', mem, rest⟩ := reached
        exact ⟨m', .tail _ mem, rest⟩
  | _ => exact ⟨row, found, isActive, highest, reached⟩

theorem Stored.upheld (stored : Stored user st row) :
    Upheld user (fun m level => level = m.watermark) st := by
  rintro m mem mine _ rfl
  have below := timestampMillis_mono (stored.highest m mem mine)
  refine ⟨row, stored.found, ?_⟩
  simp only [Commit.watermark, UserRow.watermark, applyDbClockSkewTolerance]
  omega

/-! ### Sources -/

/-- The watermark of a commit or of a local invalidation of the user. -/
def Source (user : ℕ) (st : Store) (x : ℤ) : Prop :=
  (∃ m ∈ st.commits, m.user = user ∧ x = m.watermark) ∨ (user, x) ∈ st.watermarks

/-- What is recorded has a source, and whatever is rejected was issued below one. -/
structure Sourced (user : ℕ) (st : Store) : Prop where
  entries : ∀ r e, st.invalidations r user = some e → Source user st e.watermark
  verdicts : ∀ v ∈ st.verdicts, v.user = user → v.rejected = true →
    ∃ x, Source user st x ∧ v.iat < x

def Backed (user : ℕ) (st : Store) : Request → Prop
  | .fetched c row => c.user = user →
      ∃ r, row = some r ∧ r.isActive = true ∧ Source user st r.watermark
  | _ => True

theorem Source.apply {x : ℤ} (source : Source user st x) : Source user (w.apply st) x := by
  rcases source with ⟨m, mem, mine⟩ | mem
  · exact .inl ⟨m, mem_commits.2 (.inr mem), mine⟩
  · refine .inr ?_
    cases w with
    | invalidate => exact .tail _ mem
    | _ => exact mem

theorem Stored.source (stored : Stored user st row) : Source user st row.watermark := by
  obtain ⟨m, mem, mine, same⟩ := stored.reached
  exact .inl ⟨m, mem, mine, by rw [Commit.watermark, same]; rfl⟩

theorem source_of_records {r : ℕ} {x : ℤ} (does : Does st q a w next)
    (backed : Backed user st q) (records : w.records = some (r, user, x)) :
    Source user (w.apply st) x := by
  cases does with
  | settle =>
    obtain ⟨_, rfl, mine, rfl⟩ := row_of_records records
    obtain ⟨_, same, -, source⟩ := backed mine
    cases same
    exact source.apply
  | invalidate | invalidateOthers => cases records; exact .inr (.head _)
  | _ => cases records

theorem source_of_rejected {v : Verdict} (does : Does st q a w next)
    (backed : Backed user st q) (sourced : Sourced user st) (judged : w.judged = some v)
    (mine : v.user = user) (rejected : v.rejected = true) : ∃ x, Source user st x ∧ v.iat < x := by
  cases does with
  | hit a c e _ found =>
    cases judged
    have same : c.user = user := mine
    exact ⟨e.watermark, sourced.entries _ e (same ▸ found), of_decide_eq_true rejected⟩
  | settle =>
    cases judged
    obtain ⟨r, rfl, active, source⟩ := backed mine
    refine ⟨r.watermark, source, ?_⟩
    simpa [Check.verdict, isTokenInvalidated, UserRow.credentials, active] using rejected
  | _ => cases judged

theorem Does.sourced (does : Does st q a w next) (backed : Backed user st q)
    (sourced : Sourced user st) : Sourced user (w.apply st) where
  entries r e found := by
    rcases entry_of_apply found with before | ⟨records, -, -⟩
    · exact (sourced.entries r e before).apply
    · exact source_of_records does backed records
  verdicts v mem mine rejected := by
    have earlier : ∃ x, Source user st x ∧ v.iat < x := by
      rcases mem_verdicts.1 mem with now | before
      · exact source_of_rejected does backed sourced now mine rejected
      · exact sourced.verdicts v before mine rejected
    obtain ⟨x, source, below⟩ := earlier
    exact ⟨x, source.apply, below⟩

theorem Backed.apply (backed : Backed user st q) : Backed user (w.apply st) q := by
  cases q with
  | fetched =>
    intro mine
    obtain ⟨r, same, active, source⟩ := backed mine
    exact ⟨r, same, active, source.apply⟩
  | _ => trivial

theorem backed_next (c : Check) (rejected : Bool) : Backed user st (c.next rejected) := by
  rcases c.next_cases rejected with done | ⟨k, -, -, opened⟩
  · rw [done]
    trivial
  · rw [opened]
    trivial

theorem Does.backed (does : Does st q a w next)
    (backed : Backed user st q) (stored : Stored user st row) : Backed user (w.apply st) next := by
  have kept : Backed user (w.apply st) q := backed.apply
  cases does with
  | tick | setClock | setDbClock | setActive => exact kept
  | query =>
    intro mine
    rw [mine]
    exact ⟨row, stored.found, stored.active, stored.source⟩
  | hit | settle => exact backed_next _ _
  | invalidateOthers _ _ _ m => cases m <;> trivial
  | _ => trivial

/-! ### Runs -/

variable (user d) (w : World Store Request ℕ) (e : ℕ × Action)

structure Supported : Prop where
  raising : Raising user w e
  active : StaysActive user w e
  timely : Timely d w e

/-- Nothing is cached, and the commits of the active user are those of its row. -/
structure ActiveStart : Prop where
  started : Started w
  stored : ∃ row, Stored user w.store row

variable {user d}

theorem stored {w} (h : Reach service.step (ActiveStart user) (Supported user d) w) :
    ∃ row, Stored user w.store row := by
  have base : ∀ w, ActiveStart user w → ∃ row, Stored user w.store row :=
    fun w start => start.stored
  refine Reach.invariant base (fun w e w' kept allowed taken => ?_) h
  obtain ⟨row, stored⟩ := kept
  obtain ⟨o, coded, -, -, rfl⟩ := step_eq_some taken
  exact stored.apply (code_does coded) allowed.active fun row' m commits mine =>
    allowed.raising row' m row (commits ▸ effect_of_code coded) mine stored.found

theorem sourced {w} (h : Reach service.step (ActiveStart user) (Supported user d) w) :
    service.Holds (Sourced user) (Backed user) w := by
  have known := h.strengthen fun v reached => stored reached
  refine invariant ?_ ?_ (fun w start => ?_) known
  · rintro w e o before ⟨⟨_, stored⟩, -⟩ coded
    have does := code_does coded
    exact ⟨does.sourced (before.procs e.1) before.store, does.backed (before.procs e.1) stored⟩
  · intro w e o j before _ _ _ _
    exact (before.procs j).apply
  · obtain ⟨idle, uncached, unjudged⟩ := start.started
    refine .of_idle idle rfl ⟨fun r e found => ?_, ?_⟩ trivial
    · rw [uncached] at found
      cases found
    · rw [unjudged]
      exact nofun

/-- Every check that starts five seconds and a lookup after a commit rejects each token that was
issued more than 2000 ms before its timestamp, and no check rejects a token that was issued at or
above all stored timestamps and all watermarks of local invalidations. -/
theorem credential_changes_propagate {w}
    (h : Reach service.step (ActiveStart user)
      (fun w e => Supported user d w e ∧ Abreast user w e) w) :
    (∀ m ∈ w.store.commits, m.user = user → ∀ v ∈ w.store.verdicts, v.user = user →
      m.committed + seconds cacheTtlSecs + d ≤ v.started →
      v.iat < timestampMillis m.changedAt - 2000 → v.rejected = true) ∧
    ∀ v ∈ w.store.verdicts, v.user = user →
      (∀ m ∈ w.store.commits, m.user = user → timestampMillis m.changedAt ≤ v.iat) →
      (∀ x, (user, x) ∈ w.store.watermarks → x ≤ v.iat) → v.rejected = false := by
  have supported {v : World Store Request ℕ} (h : Reach service.step (ActiveStart user)
      (fun w e => Supported user d w e ∧ Abreast user w e) v) :=
    h.mono (fun _ start => start) fun _ _ allowed => allowed.1
  have known := h.strengthen fun v reached => stored (supported reached)
  have prompt : Reach service.step Started
      (Prompt user d fun m level => level = m.watermark) w := by
    refine known.mono (fun _ start => start.started) ?_
    rintro v e ⟨⟨_, stored⟩, allowed, abreast⟩
    exact ⟨stored.upheld, allowed.timely, abreast⟩
  constructor
  · intro m mem mine v judged same late _
    have settled := (fresh prompt).store.settled m mem mine _ rfl
    cases verdict : v.rejected with
    | true => rfl
    | false =>
      have above := settled.verdicts v judged (same.trans mine.symm) late verdict
      simp only [Commit.watermark, applyDbClockSkewTolerance, clockSkewTolerance] at above
      omega
  · intro v judged mine timestamps locals
    cases verdict : v.rejected with
    | false => rfl
    | true =>
      obtain ⟨x, source, below⟩ := (sourced (supported h)).store.verdicts v judged mine verdict
      rcases source with ⟨m, mem, same, rfl⟩ | mem
      · have above := timestamps m mem same
        simp only [Commit.watermark, applyDbClockSkewTolerance, clockSkewTolerance] at below
        omega
      · exact absurd (locals x mem) (not_le.2 below)

/-! ### Runs of one user -/

def created : World Store Request ℕ where
  store :=
    { users := fun u => if u = 0 then some ⟨0, none, 0, true⟩ else none
      invalidations := fun _ _ => none
      now := 0
      clock := fun _ => 0
      dbClock := 0
      tokens := []
      commits := [⟨0, 0, 0, [], none⟩]
      watermarks := []
      verdicts := []
      returned := [] }
  pool := .idle .idle

theorem created_started : Started created := ⟨rfl, fun _ _ => rfl, rfl⟩

theorem created_active : ActiveStart 0 created where
  started := created_started
  stored := ⟨⟨0, none, 0, true⟩, rfl, rfl, by decide, by decide⟩

variable (user d)

def timelyCheck : Bool :=
  match e.2, w.pool.proc e.1 with
  | .settle, .fetched c _ => w.store.now ≤ c.started + d
  | _, _ => true

def supportedCheck : Bool :=
  timelyCheck d w e && decide (e.2 ≠ .setActive user false) &&
    match effect w e with
    | some (.commit row _) =>
      (w.store.users user).all fun before => before.changedAt ≤ row.changedAt
    | _ => true

def abreastCheck : Bool :=
  match effect w e with
  | some (.invalidate _ _ watermark) =>
    (w.store.users user).all fun row => row.watermark ≤ watermark
  | _ => true

variable {user d}

theorem timely_of_check (checked : timelyCheck d w e = true) : Timely d w e := by
  intro c _ action phase
  simpa [timelyCheck, action, phase] using checked

theorem supported_of_check (checked : supportedCheck user d w e = true) : Supported user d w e := by
  simp only [supportedCheck, and_eq_true, decide_eq_true_eq] at checked
  obtain ⟨⟨timely, active⟩, raising⟩ := checked
  refine ⟨?_, active, timely_of_check _ _ timely⟩
  intro _ m _ commits _ found
  simpa [commits, found] using raising

theorem abreast_of_check (checked : abreastCheck user w e = true) : Abreast user w e := by
  intro _ _ invalidates _ _ found
  simpa [abreastCheck, invalidates, found] using checked

/-- Replica 1 has looked the user up at 99 s; a password change commits at 100 s on replica 0, and
at 106 s replica 1 rejects a token that was issued at 60 s. -/
theorem credential_changes_propagate_password : ∃ w,
    Reach service.step (ActiveStart 0) (fun w e => Supported 0 1000000 w e ∧ Abreast 0 w e) w ∧
    ⟨0, 100000000, 100000000, [], none⟩ ∈ w.store.commits ∧
    ∃ v ∈ w.store.verdicts, v.started = 106000000 ∧ v.iat = 60000 ∧ v.rejected = true := by
  have sound (w : World Store Request ℕ) (e : ℕ × Action) (checked : (supportedCheck 0 1000000 w e &&
      abreastCheck 0 w e) = true) : Supported 0 1000000 w e ∧ Abreast 0 w e :=
    (and_eq_true_iff.1 checked).imp (supported_of_check w e) (abreast_of_check w e)
  obtain ⟨w, reached, commit, v, judged, mine, started, iat⟩ :=
    Reach.exists_of_start service.step _ sound _ created_active
      [(0, .tick 99000000), (0, .check 1 0 50000), (0, .query), (0, .settle), (0, .tick 1000000),
        (1, .change 0 0 .password), (1, .commit), (1, .invalidateOthers), (0, .tick 6000000),
        (2, .check 1 0 60000), (2, .query), (2, .settle)]
      (fun w => ⟨0, 100000000, 100000000, [], none⟩ ∈ w.store.commits ∧
        ∃ v ∈ w.store.verdicts, v.user = 0 ∧ v.started = 106000000 ∧ v.iat = 60000) (by decide)
  refine ⟨w, reached, commit, v, judged, started, iat, ?_⟩
  refine (credential_changes_propagate reached).1 _ commit rfl v judged mine ?_ ?_
  · rw [started]
    decide
  · rw [iat]
    decide

/-- The same change; at 103.9 s a call on replica 1 exempts its own token, issued at 50 s and
accepted at 99 s, which restarts the lifetime of the entry.  At 106 s the replica accepts a token
from 60 s. -/
theorem change_missed_by_replica : ∃ w, Reach service.step (ActiveStart 0) (Supported 0 1000000) w ∧
    ∃ m ∈ w.store.commits, m.user = 0 ∧ ∃ v ∈ w.store.verdicts, v.user = 0 ∧
      m.committed + seconds cacheTtlSecs + (1000000 : ℕ) ≤ v.started ∧
      v.iat < timestampMillis m.changedAt - 2000 ∧ v.rejected = false :=
  Reach.exists_of_start _ _ supported_of_check _ created_active
    [(0, .tick 99000000), (0, .check 1 0 50000), (0, .query), (0, .settle), (0, .tick 1000000),
      (1, .change 0 0 .password), (1, .commit), (1, .invalidateOthers), (0, .tick 3900000),
      (2, .invalidate 1 0 (some 50000)), (0, .tick 2100000), (3, .check 1 0 60000)] _ (by decide)

end ArtifactKeeper.Credentials
