import ArtifactKeeper.Credentials.Propagation

/-!
# TOTP changes and other sessions

A TOTP call ends another session only if that session is older than the timestamp the call leaves
behind, which is the issued-at of the caller's token or nothing.
-/

namespace ArtifactKeeper.Credentials

open Machine StepSystem List Bool Function Int

variable (user d : ℕ) (st : Store) (w : World Store Request ℕ) (e : ℕ × Action)

structure Call.Ends (k : Call) (t : Token) : Prop where
  user : t.user = k.user
  other : k.caller ≠ some t
  old : t.iat + 2000 < timestampMillis k.started

/-- The credential changes of the user follow each other: other changes raise the stored timestamp,
and a TOTP call starts after the previous one has committed. -/
def Sequential : Prop :=
  ∀ row m, effect w e = some (.commit row m) → m.user = user →
    match m.call with
    | none => ∀ before, w.store.users user = some before → before.changedAt ≤ row.changedAt
    | some k => ∀ m' ∈ w.store.commits, m'.user = user → m'.call.isSome → m'.committed ≤ k.started

/-- No clock is set. -/
def KeepsTime (_ : World Store Request ℕ) (e : ℕ × Action) : Prop :=
  (∀ replica at_, e.2 ≠ .setClock replica at_) ∧ ∀ at_, e.2 ≠ .setDbClock at_

/-- When a TOTP call of the user commits, the row still accepts its own token, and the tokens it has
to end were issued more than two seconds before the timestamp it leaves in the row. -/
def Ending : Prop :=
  ∀ row m k, effect w e = some (.commit row m) → m.user = user → m.call = some k →
    (∀ t before, k.caller = some t → w.store.users user = some before → before.watermark ≤ t.iat) ∧
      ∀ t ∈ w.store.tokens, k.Ends t → t.iat + 2000 < timestampMillis row.changedAt

/-- The levels of a TOTP call: just above the tokens it has to end. -/
def endedLevel (m : Commit) (level : ℤ) : Prop :=
  ∃ k t, m.call = some k ∧ t ∈ m.tokens ∧ k.Ends t ∧ level = t.iat + 1

/-! ### The log of calls -/

/-- The commits and returns of TOTP calls, on clocks that agree. -/
structure Logged : Prop where
  clock : ∀ r, st.clock r = st.now
  past : ∀ m ∈ st.commits, m.call.isSome → m.committed ≤ st.now
  tokens : ∀ m ∈ st.commits, m.call.isSome → m.tokens ⊆ st.tokens
  started : ∀ m ∈ st.commits, ∀ k, m.call = some k → k.started ≤ m.committed ∧ k.user = m.user
  issued : ∀ m ∈ st.commits, ∀ k, m.call = some k → ∀ t ∈ st.tokens, k.Ends t → t ∈ m.tokens
  returned : ∀ r ∈ st.returned, r.1 ∈ st.commits ∧ r.1.committed ≤ r.2

/-- Calls have started, and a call that waits for its return has committed. -/
def Begun : Request → Prop
  | .checking c | .fetched c _ => ∀ k, c.call = some k → k.started ≤ st.now
  | .totp k | .stamped k _ => k.started ≤ st.now
  | .invalidating _ _ _ (some m) | .returning m =>
    m ∈ st.commits ∧ m.committed ≤ st.now
  | _ => True

theorem le_mintIat (replica : ℕ) :
    timestampMillis (st.clock replica) ≤ mintIat st replica user := by
  rw [mintIat]
  split
  · split_ifs <;> omega
  · exact le_refl _

variable {user d st} {q : Request} {a : Action} {o : Statement} {w : Effect} {k : Call} {t : Token}

theorem Call.Ends.before {at_ : ℤ} (ends : k.Ends t) (issued : timestampMillis at_ ≤ t.iat) :
    at_ < k.started := by
  have old := ends.old
  by_contra late
  have := timestampMillis_mono (not_lt.1 late)
  omega

theorem Begun.apply (begun : Begun st q) : Begun (w.apply st) q := by
  have later := apply_now w st
  cases q with
  | checking | fetched => exact fun k opens => le_trans (begun k opens) later
  | totp | stamped => exact le_trans begun later
  | invalidating _ _ _ m =>
    cases m with
    | none => trivial
    | some m => exact ⟨mem_commits.2 (.inr begun.1), le_trans begun.2 later⟩
  | returning => exact ⟨mem_commits.2 (.inr begun.1), le_trans begun.2 later⟩
  | _ => trivial

theorem begun_next {c : Check} (begun : ∀ k, c.call = some k → k.started ≤ st.now)
    (rejected : Bool) : Begun st (c.next rejected) := by
  rcases c.next_cases rejected with done | ⟨k, opens, -, opened⟩
  · rw [done]
    trivial
  · rw [opened]
    exact begun k opens

variable {next : Request}

theorem Does.begun (does : Does st q a w next) (begun : Begun st q) : Begun (w.apply st) next := by
  have kept : Begun (w.apply st) q := begun.apply
  cases does with
  | tick | setClock | setDbClock | setActive | query | stamp => exact kept
  | hit a c e starts =>
    exact (begun_next (fun k opens => le_of_eq (starts.call k opens)) _).apply
  | miss a c starts => exact fun k opens => le_of_eq (starts.call k opens)
  | settle => exact (begun_next begun _).apply
  | call => exact le_refl _
  | enable | disable => exact ⟨.head _, le_refl _⟩
  | invalidateOthers _ _ _ m =>
    cases m with
    | none => trivial
    | some m => exact kept
  | _ => trivial

def Effect.minted : Effect → Option Token
  | .mint t => some t
  | _ => Option.none

theorem mem_tokens : t ∈ (w.apply st).tokens ↔ w.minted = some t ∨ t ∈ st.tokens := by
  cases w with
  | mint =>
    simp only [Effect.apply, Effect.minted, mem_cons, Option.some.injEq]
    exact or_congr_left eq_comm
  | _ => simp [Effect.apply, Effect.minted]

section

variable (does : Does st q a w next)
include does

theorem Does.mints (minted : w.minted = some t) : ∃ r, timestampMillis (st.clock r) ≤ t.iat := by
  cases does with
  | login replica user => cases minted; exact ⟨replica, le_mintIat user st replica⟩
  | _ => cases minted

theorem Does.commits_call {m : Commit} (begun : Begun st q) (committed : w.committed = some m)
    (called : m.call = some k) :
    k.started ≤ m.committed ∧ k.user = m.user := by
  cases does with
  | commitChange => cases committed; cases called
  | enable | disable => cases committed; cases called; exact ⟨begun, rfl⟩
  | _ => cases committed

theorem Does.clock (steady : ∀ replica at_, a ≠ .setClock replica at_)
    (agree : ∀ r, st.clock r = st.now) (r : ℕ) :
    (w.apply st).clock r = (w.apply st).now := by
  cases does with
  | tick => simp only [Effect.apply, agree]
  | setClock q replica at_ => exact absurd rfl (steady replica at_)
  | _ => exact agree r

theorem Does.returns (begun : Begun st q)
    (logged : ∀ r ∈ st.returned, r.1 ∈ st.commits ∧ r.1.committed ≤ r.2) :
    ∀ r ∈ (w.apply st).returned, r.1 ∈ (w.apply st).commits ∧ r.1.committed ≤ r.2 := by
  intro r mem
  have known : r.1 ∈ st.commits ∧ r.1.committed ≤ r.2 := by
    cases does with
    | return_ =>
      rcases mem_cons.1 mem with rfl | old
      · exact begun
      · exact logged r old
    | _ => exact logged r mem
  exact ⟨mem_commits.2 (.inr known.1), known.2⟩

theorem Does.logged (begun : Begun st q) (steady : ∀ replica at_, a ≠ .setClock replica at_)
    (logged : Logged st) :
    Logged (w.apply st) := by
  have later := apply_now w st
  constructor
  case clock => exact does.clock steady logged.clock
  case past =>
    intro m mem called
    rcases mem_commits.1 mem with new | old
    · exact (does.commits new).1 ▸ later
    · exact le_trans (logged.past m old called) later
  case tokens =>
    intro m mem called t issued
    rcases mem_commits.1 mem with new | old
    · exact mem_tokens.2 (.inr ((does.commits new).2 ▸ issued))
    · exact mem_tokens.2 (.inr (logged.tokens m old called issued))
  case started =>
    intro m mem k called
    rcases mem_commits.1 mem with new | old
    · exact does.commits_call begun new called
    · exact logged.started m old k called
  case issued =>
    intro m mem k called t issued ends
    rcases mem_tokens.1 issued with minted | before
    · -- the call had started when the token was minted
      obtain ⟨r, iat⟩ := does.mints minted
      rw [logged.clock] at iat
      have early := ends.before iat
      rcases mem_commits.1 mem with new | old
      · have begun := (does.commits_call begun new called).1
        have at_ := (does.commits new).1
        omega
      · have begun := (logged.started m old k called).1
        have past := logged.past m old (by rw [called]; rfl)
        omega
    · rcases mem_commits.1 mem with new | old
      · exact (does.commits new).2 ▸ before
      · exact logged.issued m old k called t before ends
  case returned => exact does.returns begun logged.returned

end

/-! ### Ended sessions -/

/-- The tokens that committed calls have to end are more than two seconds older than the row. -/
structure Ended (user : ℕ) (st : Store) (row : UserRow) : Prop where
  found : st.users user = some row
  ended : ∀ m ∈ st.commits, m.user = user → ∀ k, m.call = some k → ∀ t ∈ m.tokens, k.Ends t →
    t.iat + 2000 < timestampMillis row.changedAt

theorem Ended.upheld {row : UserRow} (ended : Ended user st row) : Upheld user endedLevel st := by
  rintro m mem mine _ ⟨k, t, called, issued, ends, rfl⟩
  have below := ended.ended m mem mine k called t issued ends
  refine ⟨row, ended.found, ?_⟩
  simp only [UserRow.watermark, applyDbClockSkewTolerance, clockSkewTolerance]
  omega

/-- What the commit of a TOTP call must not undo: it is not called with an ended token, and all
others are older than what it leaves in the row. -/
theorem Ended.commit {row row' : UserRow} (logged : Logged st) (ended : Ended user st row)
    (mine : k.user = user)
    (sequential : ∀ m' ∈ st.commits, m'.user = user → m'.call.isSome → m'.committed ≤ k.started)
    (accepted : ∀ t, k.caller = some t → row.watermark ≤ t.iat)
    (ending : ∀ t ∈ st.tokens, k.Ends t → t.iat + 2000 < timestampMillis row'.changedAt)
    {m' : Commit} (mem : m' ∈ st.commits) (same : m'.user = user) {k' : Call}
    (called : m'.call = some k') (issued : t ∈ m'.tokens) (ends : k'.Ends t) :
    t.iat + 2000 < timestampMillis row'.changedAt := by
  have isCall : m'.call.isSome := by rw [called]; rfl
  obtain ⟨started, user'⟩ := logged.started m' mem k' called
  have before := ended.ended m' mem same k' called t issued ends
  refine ending t (logged.tokens m' mem isCall issued) ⟨?_, fun caller => ?_, ?_⟩
  · rw [ends.user, user', same, mine]
  · have above := accepted t caller
    simp only [UserRow.watermark, applyDbClockSkewTolerance, clockSkewTolerance] at above
    omega
  · have later := timestampMillis_mono
      (le_trans started (sequential m' mem same isCall))
    have old := ends.old
    omega

theorem Ended.apply {row : UserRow} (ended : Ended user st row)
    (does : Does st q a w next) (logged : Logged st) (begun : Begun st q)
    (raises : ∀ row' m, w = .commit row' m → m.user = user → m.call = none →
      row.changedAt ≤ row'.changedAt)
    (sequential : ∀ row' m k, w = .commit row' m → m.user = user → m.call = some k →
      ∀ m' ∈ st.commits, m'.user = user → m'.call.isSome → m'.committed ≤ k.started)
    (ending : ∀ row' m k, w = .commit row' m → m.user = user → m.call = some k →
      (∀ t, k.caller = some t → row.watermark ≤ t.iat) ∧
        ∀ t ∈ st.tokens, k.Ends t → t.iat + 2000 < timestampMillis row'.changedAt) :
    ∃ row', Ended user (w.apply st) row' := by
  cases effect : w with
  | setActive u row' b =>
    subst effect
    cases does with
    | setActive q u b _ found' =>
      by_cases same : u = user
      · subst same
        cases ended.found.symm.trans found'
        exact ⟨{ row with isActive := b }, update_self .., ended.ended⟩
      · exact ⟨row, (update_of_ne (Ne.symm same) ..).trans ended.found, ended.ended⟩
  | commit row' m =>
    have committed : w.committed = some m := by rw [effect]; rfl
    by_cases same : m.user = user
    · refine ⟨row', ⟨?_, fun m' mem mine k called t issued ends => ?_⟩⟩
      · simp only [Effect.apply, same, update_self]
      · rcases mem_cons.1 mem with rfl | old
        · rw [(does.commits committed).2] at issued
          exact (ending row' m' k effect same called).2 t issued ends
        · cases kind : m.call with
          | none =>
            have above := timestampMillis_mono (raises row' m effect same kind)
            exact lt_of_lt_of_le (ended.ended m' old mine k called t issued ends) above
          | some k' =>
            obtain ⟨accepted, older⟩ := ending row' m k' effect same kind
            have own := (does.commits_call begun committed kind).2
            exact ended.commit logged (own.trans same) (sequential row' m k' effect same kind)
              accepted older old mine called issued ends
    · refine ⟨row, ⟨?_, fun m' mem mine => ?_⟩⟩
      · exact (update_of_ne (Ne.symm same) ..).trans ended.found
      · rcases mem_cons.1 mem with rfl | old
        · exact absurd mine same
        · exact ended.ended m' old mine
  | _ => exact ⟨row, ended.found, ended.ended⟩

/-! ### Runs -/

variable (user d) (w : World Store Request ℕ) (e : ℕ × Action)

/-- The user exists, all clocks agree and there has been no TOTP call. -/
structure AgreedStart : Prop where
  started : Started w
  found : ∃ row, w.store.users user = some row
  clock : ∀ r, w.store.clock r = w.store.now
  dbClock : w.store.dbClock = w.store.now
  uncalled : ∀ m ∈ w.store.commits, m.call = none
  unreturned : w.store.returned = []

/-- Credential changes in sequence on clocks that agree. -/
structure Orderly : Prop where
  sequential : Sequential user w e
  clocks : KeepsTime w e
  timely : Timely d w e

variable {user d}

theorem logged {w} (h : Reach service.step (AgreedStart user) (Orderly user d) w) :
    service.Holds Logged Begun w := by
  refine Protocol.invariant ?_ ?_ (fun w start => ?_) h
  · intro w e o before known coded
    have does := code_does coded
    have begun := before.procs e.1
    exact ⟨does.logged begun known.clocks.1 before.store, does.begun begun⟩
  · intro w e o j before _ _ _ _
    exact (before.procs j).apply
  · have uncalled {m : Commit} {k : Call} (mem : m ∈ w.store.commits) : m.call ≠ some k := by
      rw [start.uncalled m mem]
      exact nofun
    have unheard {m : Commit} (mem : m ∈ w.store.commits) : ¬m.call.isSome := by
      rw [start.uncalled m mem]
      exact nofun
    refine .of_idle start.started.idle rfl ⟨start.clock, ?_, ?_, ?_, ?_, ?_⟩ trivial
    · exact fun m mem called => absurd called (unheard mem)
    · exact fun m mem called => absurd called (unheard mem)
    · exact fun m mem k called => absurd called (uncalled mem)
    · exact fun m mem k called => absurd called (uncalled mem)
    · rw [start.unreturned]
      exact nofun

theorem ended {w}
    (h : Reach service.step (AgreedStart user)
      (fun w e => Orderly user d w e ∧ Ending user w e) w) :
    ∃ row, Ended user w.store row := by
  have known := h.strengthen fun v reached =>
    logged (reached.mono (fun _ start => start) fun _ _ allowed => allowed.1)
  have base : ∀ w, AgreedStart user w → ∃ row, Ended user w.store row := by
    intro w start
    obtain ⟨row, found⟩ := start.found
    refine ⟨row, found, fun m mem _ k called => ?_⟩
    rw [start.uncalled m mem] at called
    cases called
  refine Reach.invariant base (fun w e w' kept allowed taken => ?_) known
  obtain ⟨row, ended⟩ := kept
  obtain ⟨holds, orderly, ending⟩ := allowed
  obtain ⟨o, coded, -, -, rfl⟩ := Protocol.step_eq_some taken
  have effects := effect_of_code coded
  refine ended.apply (code_does coded) holds.store (holds.procs e.1) ?_ ?_ ?_
  · intro row' m commits mine called
    have raises := orderly.sequential row' m (commits ▸ effects) mine
    rw [called] at raises
    exact raises row ended.found
  · intro row' m k commits mine called
    have sequential := orderly.sequential row' m (commits ▸ effects) mine
    rw [called] at sequential
    exact sequential
  · intro row' m k commits mine called
    obtain ⟨accepted, older⟩ := ending row' m k (commits ▸ effects) mine called
    exact ⟨fun t caller => accepted t row caller ended.found, older⟩

/-- Once a TOTP call has returned, the tokens issued more than two seconds before the call, other
than the calling token, are rejected by every check that starts five seconds and a lookup later. -/
theorem totp_change_ends_sessions {w}
    (h : Reach service.step (AgreedStart user)
      (fun w e => (Orderly user d w e ∧ Ending user w e) ∧ Abreast user w e) w) :
    ∀ m returned k, (m, returned) ∈ w.store.returned → m.user = user → m.call = some k →
      ∀ t ∈ w.store.tokens, t.user = user → k.caller ≠ some t →
        t.iat + 2000 < timestampMillis k.started →
        ∀ v ∈ w.store.verdicts, v.user = user → v.iat = t.iat →
          returned + seconds cacheTtlSecs + d ≤ v.started → v.rejected = true := by
  have settling {v : World Store Request ℕ} (h : Reach service.step (AgreedStart user)
      (fun w e => (Orderly user d w e ∧ Ending user w e) ∧ Abreast user w e) v) :=
    h.mono (fun _ start => start) fun _ _ allowed => allowed.1
  have known := h.strengthen fun v reached => ended (settling reached)
  have prompt : Reach service.step Started (Prompt user d endedLevel) w := by
    refine known.mono (fun _ start => start.started) ?_
    rintro v e ⟨⟨_, ended⟩, ⟨orderly, -⟩, abreast⟩
    exact ⟨ended.upheld, orderly.timely, abreast⟩
  have log := (logged ((settling h).mono (fun _ start => start) fun _ _ allowed => allowed.1)).store
  intro m returned k recorded mine called t issued own other old v judged same iat _
  obtain ⟨mem, committed⟩ : m ∈ w.store.commits ∧ m.committed ≤ returned := log.returned _ recorded
  have ends : k.Ends t := ⟨by rw [own, (log.started m mem k called).2, mine], other, old⟩
  have level : endedLevel m (t.iat + 1) :=
    ⟨k, t, called, log.issued m mem k called t issued ends, ends, rfl⟩
  have settled := (fresh prompt).store.settled m mem mine _ level
  cases verdict : v.rejected with
  | true => rfl
  | false =>
    have above := settled.verdicts v judged (same.trans mine.symm) (by omega) verdict
    omega

/-! ### Runs of one user -/

theorem created_agreed : AgreedStart 0 created where
  started := created_started
  found := ⟨_, rfl⟩
  clock _ := rfl
  dbClock := rfl
  uncalled := by decide
  unreturned := rfl

def keepsTimeCheck : Bool :=
  match e.2 with
  | .setClock _ _ | .setDbClock _ => false
  | _ => true

variable (user d)

def sequentialCheck : Bool :=
  match effect w e with
  | some (.commit row m) =>
    match m.call with
    | none => (w.store.users user).all fun before => before.changedAt ≤ row.changedAt
    | some k => w.store.commits.all fun m' => m'.call.isNone || decide (m'.committed ≤ k.started)
  | _ => true

def orderlyCheck : Bool :=
  sequentialCheck user w e && keepsTimeCheck e && timelyCheck d w e

instance (k : Call) (t : Token) : Decidable (k.Ends t) :=
  decidable_of_iff (t.user = k.user ∧ k.caller ≠ some t ∧ t.iat + 2000 < timestampMillis k.started)
    ⟨fun h => ⟨h.1, h.2.1, h.2.2⟩, fun h => ⟨h.1, h.2, h.3⟩⟩

def endingCheck : Bool :=
  match effect w e with
  | some (.commit row m) => m.call.all fun k =>
      (k.caller.all fun t => (w.store.users user).all fun before => before.watermark ≤ t.iat) &&
        w.store.tokens.all fun t =>
          !decide (k.Ends t) || decide (t.iat + 2000 < timestampMillis row.changedAt)
  | _ => true

variable {user d}

theorem sequential_of_check (checked : sequentialCheck user w e = true) : Sequential user w e := by
  intro _ m commits _
  simp only [sequentialCheck, commits] at checked
  cases called : m.call with
  | none =>
    intro _ found
    simpa [called, found] using checked
  | some k =>
    intro m' mem _ isCall
    simp only [called, all_eq_true, or_eq_true, decide_eq_true_eq] at checked
    rcases checked m' mem with none | before
    · rw [Option.isNone_iff_eq_none] at none
      rw [none] at isCall
      cases isCall
    · exact before

theorem orderly_of_check (checked : orderlyCheck user d w e = true) : Orderly user d w e := by
  simp only [orderlyCheck, and_eq_true] at checked
  obtain ⟨⟨sequential, time⟩, timely⟩ := checked
  refine ⟨sequential_of_check _ _ sequential, ⟨fun r at_ set => ?_, fun at_ set => ?_⟩,
    timely_of_check _ _ timely⟩
  · simp [keepsTimeCheck, set] at time
  · simp [keepsTimeCheck, set] at time

theorem ending_of_check (checked : endingCheck user w e = true) : Ending user w e := by
  intro _ m k commits _ called
  simp only [endingCheck, commits, called, Option.all_some, and_eq_true, all_eq_true,
    or_eq_true, not_eq_true', decide_eq_false_iff_not, decide_eq_true_eq] at checked
  refine ⟨fun t before caller found => ?_, fun t issued ends => ?_⟩
  · simpa [caller, found] using checked.1
  · exact (checked.2 t issued).resolve_left (not_not_intro ends)

/-- Sessions open at 0 s and at 10 s; the later one enables TOTP at 20 s, and at 30 s the token of
the first is rejected. -/
theorem totp_change_ends_sessions_enabled : ∃ w,
    Reach service.step (AgreedStart 0)
      (fun w e => (Orderly 0 1000000 w e ∧ Ending 0 w e) ∧ Abreast 0 w e) w ∧
    w.store.returned.length = 1 ∧
    ∃ v ∈ w.store.verdicts, v.started = 30000000 ∧ v.iat = 0 ∧ v.rejected = true := by
  have sound (w : World Store Request ℕ) (e : ℕ × Action) (checked : (orderlyCheck 0 1000000 w e &&
      endingCheck 0 w e && abreastCheck 0 w e) = true) :
      (Orderly 0 1000000 w e ∧ Ending 0 w e) ∧ Abreast 0 w e := by
    simp only [and_eq_true] at checked
    exact ⟨⟨orderly_of_check w e checked.1.1, ending_of_check w e checked.1.2⟩,
      abreast_of_check w e checked.2⟩
  obtain ⟨w, reached, length, ⟨⟨m, returned⟩, recorded, mine, called, rfl⟩, issued, v, judged, same,
      started, iat⟩ :=
    Reach.exists_of_start service.step _ sound _ created_agreed
      [(0, .login 0 0), (1, .tick 10000000), (1, .login 0 0), (2, .tick 10000000),
        (2, .call 0 0 .enable (some ⟨1, 0, 10000⟩)), (2, .query), (2, .settle), (2, .stamp),
        (2, .commit), (2, .invalidateOthers), (2, .return_), (3, .tick 10000000),
        (3, .check 1 0 0), (3, .query), (3, .settle)]
      (fun w => w.store.returned.length = 1 ∧ (∃ r ∈ w.store.returned, r.1.user = 0 ∧
        r.1.call = some ⟨0, 0, .enable, some ⟨1, 0, 10000⟩, 20000000⟩ ∧ r.2 = 20000000) ∧
        ⟨0, 0, 0⟩ ∈ w.store.tokens ∧ ∃ v ∈ w.store.verdicts, v.user = 0 ∧ v.started = 30000000 ∧
        v.iat = 0) (by decide)
  refine ⟨w, reached, length, v, judged, started, iat, ?_⟩
  refine totp_change_ends_sessions reached m _ _ recorded mine called _ issued rfl (by decide)
    (by decide) v judged same iat ?_
  rw [started]
  decide

/-- The earlier session enables TOTP at 20 s; at 30 s the token of the later one, issued ten seconds
before the call, is accepted. -/
theorem session_survives_enabling : ∃ w, Reach service.step (AgreedStart 0) (Orderly 0 1000000) w ∧
    ∃ r ∈ w.store.returned, r.1.user = 0 ∧ ∃ k, r.1.call = some k ∧
      ∃ t ∈ w.store.tokens, t.user = 0 ∧ k.caller ≠ some t ∧
        t.iat + 2000 < timestampMillis k.started ∧
        ∃ v ∈ w.store.verdicts, v.user = 0 ∧ v.iat = t.iat ∧
          r.2 + seconds cacheTtlSecs + (1000000 : ℕ) ≤ v.started ∧ v.rejected = false := by
  obtain ⟨w, reached, r, recorded, mine, called, rest⟩ :=
    Reach.exists_of_start service.step _ (@orderly_of_check 0 1000000) _ created_agreed
      [(0, .login 0 0), (1, .tick 10000000), (1, .login 0 0), (2, .tick 10000000),
        (2, .call 0 0 .enable (some ⟨0, 0, 0⟩)), (2, .query), (2, .settle), (2, .stamp),
        (2, .commit), (2, .invalidateOthers), (2, .return_), (3, .tick 10000000),
        (3, .check 1 0 10000), (3, .query), (3, .settle)]
      (fun w => ∃ r ∈ w.store.returned, r.1.user = 0 ∧ r.1.call = some ⟨0, 0, .enable, some ⟨0, 0,
        0⟩, 20000000⟩ ∧ ∃ t ∈ w.store.tokens, t.user = 0 ∧ some (⟨0, 0, 0⟩ : Token) ≠ some t ∧
        t.iat + 2000 < timestampMillis 20000000 ∧ ∃ v ∈ w.store.verdicts, v.user = 0 ∧
        v.iat = t.iat ∧ r.2 + seconds cacheTtlSecs + (1000000 : ℕ) ≤ v.started ∧
        v.rejected = false) (by decide)
  exact ⟨w, reached, r, recorded, mine, _, called, rest⟩

end ArtifactKeeper.Credentials
