import ArtifactKeeper.ApiTokens.Requests

/-!
# Revoked tokens

The mark of a revoked token outlives every cache entry of the token.  A validation that has read the
row before the revocation started before the mark, so it inserts its entry less than one lifetime
after the mark, and the entry is used for less than another one; the mark is kept for two.
-/

namespace ArtifactKeeper.ApiTokens

open Machine StepSystem List Function Int
open Effect (apply)

variable (st : Store) (w : World Store Request ℕ) (e : ℕ × Action)

/-- Every validation takes less than the lifetime of a cache entry. -/
def Brief : Prop :=
  ∀ allowedRepoIds c row user, e.2 = .insert allowedRepoIds →
    w.pool.proc e.1 = .loaded c row user → w.store.now < c.started + seconds cacheTtlSecs

structure RevokedRow (id : ℕ) : Prop where
  found : ∃ row ∈ st.tokens, row.id = id
  revoked : ∀ row ∈ st.tokens, row.id = id → row.revokedAt.isSome

/-- The token is marked not much earlier than `at_`, or `at_` is more than `age` ago. -/
def Covered (id : ℕ) (at_ slack age : ℤ) : Prop :=
  (∃ m, st.revokedTokens id = some m ∧ at_ ≤ m + slack) ∨ at_ + age ≤ st.now

structure Dead : Prop where
  unique : ∀ row ∈ st.tokens, ∀ row' ∈ st.tokens, row.id = row'.id → row = row'
  cached : ∀ s raw e, st.cache s raw = some e → e.cachedAt ≤ st.now
  past : ∀ id m, st.revokedTokens id = some m → m ≤ st.now
  rows : ∀ id ∈ st.revoked, RevokedRow st id
  entries : ∀ s raw e, st.cache s raw = some e → e.tokenId ∈ st.revoked →
    Covered st e.tokenId e.cachedAt (seconds cacheTtlSecs) (seconds cacheTtlSecs)
  results : ∀ r ∈ st.results, r.tokenId ∉ r.revoked

/-- What a validation knows of a token whose row it has found unrevoked: it was not revoked before
the call, and if it is revoked by now, that was after the start of the call. -/
structure Alive (c : Call) (id : ℕ) : Prop where
  before : id ∉ c.revoked
  since : id ∈ st.revoked → Covered st id c.started 0 (seconds (cacheTtlSecs * 2))

def Aware : Request → Prop
  | .missed c => c.started ≤ st.now ∧ c.revoked ⊆ st.revoked
  | .found c row => c.started ≤ st.now ∧ ∀ r, row = some r → r.revokedAt = none → Alive st c r.id
  | .verified c row | .loaded c row _ => c.started ≤ st.now ∧ Alive st c row.id
  | .revoking id => RevokedRow st id
  | _ => True

/-! ### Marks and rows -/

variable {cfg : Config} {st} {q next : Request} {a : Action} {o : Statement} {w : Effect} {id : ℕ}
  {at_ slack age : ℤ}

theorem Covered.tick {st' : Store} (covered : Covered st id at_ slack age)
    (marks : st'.revokedTokens = st.revokedTokens) (later : st.now ≤ st'.now) :
    Covered st' id at_ slack age := by
  rcases covered with ⟨m, found, near⟩ | _
  · exact .inl ⟨m, marks ▸ found, near⟩
  · exact .inr (by omega)

/-- A mark that is forgotten is older than `slack` and `age` allow. -/
theorem Covered.apply (covered : Covered st id at_ slack age)
    (past : ∀ id m, st.revokedTokens id = some m → m ≤ st.now)
    (span : slack + age ≤ seconds (cacheTtlSecs * 2)) :
    Covered (w.apply cfg st) id at_ slack age := by
  rcases covered with ⟨m, found, _⟩ | old
  · rcases (renews_revokedTokens cfg w past).keeps id m found with ⟨m', kept, _⟩ | _
    · exact .inl ⟨m', kept, by omega⟩
    · exact .inr (by omega)
  · exact .inr (le_trans old (apply_now w st))

theorem TokenRow.revoke_id (row : TokenRow) (id user : ℕ) (utc : ℤ) :
    (row.revoke id user utc).id = row.id := by
  rw [TokenRow.revoke]
  split_ifs <;> rfl

theorem TokenRow.isSome_revoke {row : TokenRow} (id user : ℕ) (utc : ℤ)
    (revoked : row.revokedAt.isSome) : (row.revoke id user utc).revokedAt.isSome := by
  rw [TokenRow.revoke]
  split_ifs
  · rfl
  · exact revoked

theorem Does.tokens (does : Does st q a w next) (cfg : Config) :
    (w.apply cfg st).tokens = st.tokens ∨
      (∃ row, (w.apply cfg st).tokens = row :: st.tokens ∧ ∀ other ∈ st.tokens, other.id ≠ row.id) ∨
      ∃ id user, (w.apply cfg st).tokens = st.tokens.map fun row => row.revoke id user st.utc := by
  cases does with
  | create row free => exact .inr (.inl ⟨row, rfl, free⟩)
  | revoke id user => exact .inr (.inr ⟨id, user, rfl⟩)
  | _ => exact .inl rfl

theorem RevokedRow.apply (row : RevokedRow st id)
    (does : Does st q a w next) : RevokedRow (w.apply cfg st) id := by
  obtain ⟨⟨row, mem, same⟩, revoked⟩ := row
  rcases does.tokens cfg with tokens | ⟨_, tokens, free⟩ | ⟨id', user, tokens⟩
  · exact ⟨⟨row, tokens ▸ mem, same⟩, tokens ▸ revoked⟩
  · refine ⟨⟨row, tokens ▸ .tail _ mem, same⟩, fun other found mine => ?_⟩
    rw [tokens] at found
    rcases mem_cons.1 found with rfl | old
    · exact absurd (same.trans mine.symm) (free row mem)
    · exact revoked other old mine
  · refine ⟨⟨row.revoke id' user st.utc, ?_, (row.revoke_id ..).trans same⟩,
      fun other found mine => ?_⟩
    · rw [tokens]
      exact mem_map_of_mem mem
    · rw [tokens] at found
      obtain ⟨before, mem', rfl⟩ := mem_map.1 found
      rw [TokenRow.revoke_id] at mine
      exact TokenRow.isSome_revoke _ _ _ (revoked before mem' mine)

theorem Does.unique (does : Does st q a w next)
    (unique : ∀ row ∈ st.tokens, ∀ row' ∈ st.tokens, row.id = row'.id → row = row') :
    ∀ row ∈ (w.apply cfg st).tokens, ∀ row' ∈ (w.apply cfg st).tokens,
      row.id = row'.id → row = row' := by
  rcases does.tokens cfg with tokens | ⟨_, tokens, free⟩ | ⟨_, _, tokens⟩
  · rw [tokens]
    exact unique
  · rw [tokens]
    intro row mem row' mem' same
    rcases mem_cons.1 mem with rfl | old
    · rcases mem_cons.1 mem' with rfl | old'
      · rfl
      · exact absurd same.symm (free row' old')
    · rcases mem_cons.1 mem' with rfl | old'
      · exact absurd same (free row old)
      · exact unique row old row' old' same
  · rw [tokens]
    intro _ mem _ mem' same
    obtain ⟨before, old, rfl⟩ := mem_map.1 mem
    obtain ⟨before', old', rfl⟩ := mem_map.1 mem'
    rw [TokenRow.revoke_id, TokenRow.revoke_id] at same
    rw [unique before old before' old' same]

theorem revokedRow_of_revoke {user : ℕ} {row : TokenRow}
    (unique : ∀ row ∈ st.tokens, ∀ row' ∈ st.tokens, row.id = row'.id → row = row')
    (found : row ∈ st.tokens) (revocable : row.isRevocable id user = true) :
    RevokedRow ((Effect.revoke id user).apply cfg st) id := by
  have mine : row.id = id := by
    simp only [TokenRow.isRevocable, Bool.and_eq_true, decide_eq_true_eq] at revocable
    exact revocable.1.1
  refine ⟨⟨row.revoke id user st.utc, mem_map_of_mem found, (row.revoke_id ..).trans mine⟩,
    fun other mem same => ?_⟩
  obtain ⟨before, old, rfl⟩ := mem_map.1 mem
  have same' : before.id = id := (before.revoke_id ..).symm.trans same
  obtain rfl := unique before old row found (same'.trans mine.symm)
  rw [TokenRow.revoke, if_pos revocable]
  rfl

/-! ### Steps -/

theorem Alive.apply {c : Call} (alive : Alive st c id) (started : c.started ≤ st.now)
    (past : ∀ id m, st.revokedTokens id = some m → m ≤ st.now) :
    Alive (w.apply cfg st) c id where
  before := alive.before
  since mem := by
    by_cases old : id ∈ st.revoked
    · exact (alive.since old).apply past (by simp only [cacheTtlSecs]; omega)
    · cases w with
      | markRevoked =>
        rcases mem_cons.1 mem with rfl | before
        · exact .inl ⟨st.now, mark_self id, by omega⟩
        · exact absurd before old
      | _ => exact absurd mem old

theorem Aware.apply {q' : Request} (aware : Aware st q)
    (does : Does st q' a w next) (past : ∀ id m, st.revokedTokens id = some m → m ≤ st.now) :
    Aware (w.apply cfg st) q := by
  have later : st.now ≤ (w.apply cfg st).now := apply_now w st
  cases q with
  | missed =>
    refine ⟨le_trans aware.1 later, fun id mem => ?_⟩
    have known := aware.2 mem
    cases w with
    | markRevoked => exact .tail _ known
    | _ => exact known
  | found =>
    exact ⟨le_trans aware.1 later, fun r same unrevoked =>
      (aware.2 r same unrevoked).apply aware.1 past⟩
  | verified | loaded => exact ⟨le_trans aware.1 later, aware.2.apply aware.1 past⟩
  | revoking => exact RevokedRow.apply aware does
  | _ => trivial

theorem Does.aware (does : Does st q a w next) (dead : Dead st)
    (aware : Aware st q) : Aware (w.apply cfg st) next := by
  have kept : Aware (w.apply cfg st) q := aware.apply does dead.past
  cases does with
  | tick | setUtc => exact kept
  | miss a c starts => exact ⟨le_of_eq starts.started, fun id mem => starts.revoked ▸ mem⟩
  | readToken c _ _ found =>
    refine ⟨aware.1, fun r same unrevoked => ?_⟩
    have fresh : r.id ∉ st.revoked := by
      intro mem
      have revoked := (dead.rows r.id mem).revoked r (found r same) rfl
      rw [unrevoked] at revoked
      cases revoked
    exact ⟨fun mem => fresh (aware.2 mem), fun mem => absurd mem fresh⟩
  | verify c row unrevoked => exact ⟨aware.1, aware.2 row rfl unrevoked⟩
  | readUser => exact aware
  | revoke _ _ _ found revocable => exact revokedRow_of_revoke dead.unique found revocable
  | _ => trivial

theorem unrevoked_of_accepted {e : Entry} (dead : Dead st) {s : ℕ} {raw : Raw}
    (found : st.cache s raw = some e) (accepted : e.Accepted st) : e.tokenId ∉ st.revoked := by
  intro mem
  rcases dead.entries s raw e found mem with ⟨m, marked, -⟩ | _
  · rw [accepted.unrevoked] at marked
    cases marked
  · have current := accepted.current
    omega

/-- An entry is inserted less than one lifetime after the mark of its token. -/
theorem Alive.covers {c : Call} (alive : Alive st c id)
    (brief : st.now < c.started + seconds cacheTtlSecs) (revoked : id ∈ st.revoked) :
    Covered st id st.now (seconds cacheTtlSecs) (seconds cacheTtlSecs) := by
  rcases alive.since revoked with ⟨m, marked, _⟩ | old
  · exact .inl ⟨m, marked, by omega⟩
  · simp only [seconds, cacheTtlSecs] at old brief
    omega

theorem Does.cached (does : Does st q a w next)
    (cached : ∀ s raw e, st.cache s raw = some e → e.cachedAt ≤ st.now) (s : ℕ) (raw : Raw)
    (e : Entry) (found : (w.apply cfg st).cache s raw = some e) :
    e.cachedAt ≤ (w.apply cfg st).now := by
  rcases entry_of_apply found with before | ⟨_, rfl⟩
  · exact le_trans (cached s raw e before) (apply_now w st)
  · cases does with
    | insert => exact le_refl _

theorem Does.dead (does : Does st q a w next) (dead : Dead st)
    (aware : Aware st q) (brief : ∀ allowedRepoIds c row user, a = .insert allowedRepoIds →
      q = .loaded c row user → st.now < c.started + seconds cacheTtlSecs) :
    Dead (w.apply cfg st) := by
  have span : seconds cacheTtlSecs + seconds cacheTtlSecs ≤ seconds (cacheTtlSecs * 2) := by decide
  constructor
  case unique => exact does.unique dead.unique
  case cached => exact does.cached dead.cached
  case past => exact (renews_revokedTokens cfg w dead.past).past
  case rows =>
    intro id mem
    by_cases old : id ∈ st.revoked
    · exact (dead.rows id old).apply does
    · cases does with
      | markRevoked =>
        rcases mem_cons.1 mem with rfl | before
        · exact ⟨aware.found, aware.revoked⟩
        · exact absurd before old
      | _ => exact absurd mem old
  case entries =>
    intro s raw e found mem
    rcases entry_of_apply found with before | ⟨_, rfl⟩
    · by_cases old : e.tokenId ∈ st.revoked
      · exact (dead.entries s raw e before old).apply dead.past span
      · have soon := dead.cached s raw e before
        cases does with
        | markRevoked =>
          rcases mem_cons.1 mem with same | before
          · refine .inl ⟨st.now, same ▸ mark_self e.tokenId, ?_⟩
            simp only [seconds, cacheTtlSecs]
            omega
          · exact absurd before old
        | _ => exact absurd mem old
    · cases does with
      | insert c row user allowedRepoIds =>
        have covered := aware.2.covers (brief allowedRepoIds c row user rfl rfl) mem
        exact covered.tick rfl (le_refl _)
  case results =>
    intro r mem
    rcases mem_results.1 mem with logged | before
    · cases does with
      | hit a c e starts found accepted =>
        cases logged
        have fresh := unrevoked_of_accepted dead found accepted
        rw [← starts.revoked] at fresh
        exact fresh
      | insert => cases logged; exact aware.2.before
      | _ => cases logged
    · exact dead.results r before

/-! ### Runs -/

variable (w : World Store Request ℕ) (e : ℕ × Action)

/-- A process that has just started: no request is under way, its memory is empty, and the events
still to come belong to earlier updates. -/
structure Booted : Prop where
  idle : w.pool = .idle .idle
  uncached : ∀ s raw, w.store.cache s raw = none
  revokedTokens : ∀ id, w.store.revokedTokens id = none
  userInvalidations : ∀ user, w.store.userInvalidations user = none
  revoked : w.store.revoked = []
  results : w.store.results = []
  unbarred : ∀ b user, w.store.since b user = none ∧ w.store.barred b user = none
  earlier : ∀ user g, .userApiTokensInvalidated user g ∈ w.store.events → g < w.store.updates
  unique : ∀ row ∈ w.store.tokens, ∀ row' ∈ w.store.tokens, row.id = row'.id → row = row'

theorem dead {w} (h : Reach (service cfg).step Booted Brief w) :
    (service cfg).Holds Dead Aware w := by
  refine Protocol.invariant ?_ ?_ (fun w start => ?_) h
  · intro w e o before known coded
    have does := code_does coded
    have aware := before.procs e.1
    exact ⟨does.dead before.store aware known, does.aware before.store aware⟩
  · intro w e o j before _ coded _ _
    exact (before.procs j).apply (code_does coded) before.store.past
  · refine .of_idle start.idle rfl ⟨start.unique, fun s raw e found => ?_, fun id m found => ?_, ?_,
      fun s raw e found => ?_, ?_⟩ trivial
    · rw [start.uncached] at found
      cases found
    · rw [start.revokedTokens] at found
      cases found
    · rw [start.revoked]
      exact nofun
    · rw [start.uncached] at found
      cases found
    · rw [start.results]
      exact nofun

/-- No validation that starts after the revocation of a token has returned accepts the token. -/
theorem revoked_token_rejected {w} (h : Reach (service cfg).step Booted Brief w) :
    ∀ r ∈ w.store.results, r.tokenId ∉ r.revoked :=
  (dead h).store.results

/-! ### A run -/

def oneToken : World Store Request ℕ where
  store :=
    { tokens := [⟨0, 0, 0, 0, [], none, none⟩]
      users := fun u => if u = 0 then some ⟨true, true⟩ else none
      cache := fun _ _ => none
      revokedTokens := fun _ => none
      userInvalidations := fun _ => none
      events := []
      now := 0
      utc := 0
      revoked := []
      results := []
      updates := 0
      since := fun _ _ => none
      barred := fun _ _ => none }
  pool := .idle .idle

theorem oneToken_booted : Booted oneToken where
  idle := rfl
  uncached _ _ := rfl
  revokedTokens _ := rfl
  userInvalidations _ := rfl
  revoked := rfl
  results := rfl
  unbarred _ _ := ⟨rfl, rfl⟩
  earlier := nofun
  unique := by decide

def allRegistered : Config := ⟨fun _ => true⟩

def briefCheck : Bool :=
  match e.2, w.pool.proc e.1 with
  | .insert _, .loaded c _ _ => w.store.now < c.started + seconds cacheTtlSecs
  | _, _ => true

theorem brief_of_check (checked : briefCheck w e = true) : Brief w e := by
  intro _ c _ _ action phase
  simpa [briefCheck, action, phase] using checked

/-- A validation in flight caches its entry 299 s after the token is revoked; the entry is never
used, also when the mark is gone. -/
theorem revoked_token_rejected_in_flight : ∃ w,
    Reach (service allRegistered).step Booted Brief w ∧ w.store.revoked = [1, 0] ∧
      w.store.revokedTokens 0 = none ∧ w.store.results.length = 1 ∧
      ∀ r ∈ w.store.results, r.tokenId ∉ r.revoked := by
  obtain ⟨w, reached, revoked, gone, length⟩ :=
    Reach.exists_of_start (service allRegistered).step _ brief_of_check _ oneToken_booted
      [(0, .validate 0 ⟨0, 0⟩), (0, .readToken 0), (0, .verify), (0, .readUser), (1, .revoke 0 0),
        (1, .markRevoked), (2, .tick 299000000), (0, .insert none), (2, .validate 0 ⟨0, 0⟩),
        (3, .tick 301000000), (3, .create ⟨1, 1, 1, 0, [], none, none⟩), (4, .revoke 1 0),
        (4, .markRevoked), (5, .validate 0 ⟨0, 0⟩), (5, .readToken 0), (5, .verify)]
      (fun w => w.store.revoked = [1, 0] ∧ w.store.revokedTokens 0 = none ∧
        w.store.results.length = 1) (by decide)
  exact ⟨w, reached, revoked, gone, length, revoked_token_rejected reached⟩

/-! ### Deactivated and demoted users -/

variable (st)

def Stale (e : Entry) : Prop :=
  (∃ m, st.userInvalidations e.validation.userId = some m ∧ e.cachedAt ≤ m) ∨
    e.cachedAt + seconds cacheTtlSecs ≤ st.now

def effect : Option Effect :=
  (code w.store (w.pool.proc e.1) e.2).map Outcome.effect

theorem effect_of_code {w e}
    (coded : code w.store (w.pool.proc e.1) e.2 = some o) : effect w e = some o.effect := by
  rw [effect, coded, Option.map_some]

/-- No entry is inserted for a user whom a bar that concerns it has reached, and an update that has
no event finds the entries it concerns marked. -/
structure UpToDate : Prop where
  inserts : ∀ allowedRepoIds c row user, e.2 = .insert allowedRepoIds →
    w.pool.proc e.1 = .loaded c row user →
    ∀ b : Bar, b.concerns user.isAdmin = true → w.store.barred b row.userId = none
  commits : ∀ user before row, effect w e = some (.updateUser user before row) →
    notifies before row = false → ∀ b : Bar, b.inForce row = true → b.inForce before = false →
    ∀ s raw entry, w.store.cache s raw = some entry → entry.validation.userId = user →
      b.concerns entry.validation.isAdmin = true → Stale w.store entry

structure Enforced : Prop where
  cached : ∀ s raw e, st.cache s raw = some e → e.cachedAt ≤ st.now
  past : ∀ user m, st.userInvalidations user = some m → m ≤ st.now
  since : ∀ b user g, st.since b user = some g → g < st.updates ∧
    ∃ row, st.users user = some row ∧ b.inForce row = true
  barred : ∀ b user g, st.barred b user = some g → st.since b user = some g
  entries : ∀ (b : Bar) s raw e, st.cache s raw = some e → b.concerns e.validation.isAdmin = true →
    ∀ g, st.barred b e.validation.userId = some g → Stale st e
  results : ∀ r ∈ st.results, ∀ (b : Bar) g, b.concerns r.validation.isAdmin = true →
    r.before b = some g → r.after b ≠ some g

/-- The bars a call has started under are older than the updates to come. -/
def Call.Older (c : Call) (st : Store) : Prop :=
  ∀ b user g, c.barred b user = some g → g < st.updates

/-- A call that has loaded its user has seen none of the bars it started under in force. -/
def Unbarred : Request → Prop
  | .missed c | .found c _ | .verified c _ => c.Older st
  | .loaded c row user => c.Older st ∧ ∀ (b : Bar) g, b.concerns user.isAdmin = true →
      c.barred b row.userId = some g → st.since b row.userId ≠ some g
  | _ => True

/-! ### Marks -/

variable {st} {w : Effect}

theorem Stale.apply {e : Entry} (stale : Stale st e)
    (past : ∀ user m, st.userInvalidations user = some m → m ≤ st.now) :
    Stale (w.apply cfg st) e := by
  rcases stale with ⟨m, marked, younger⟩ | old
  · rcases (renews_userInvalidations cfg w past).keeps _ m marked with ⟨m', kept, later⟩ | gone
    · exact .inl ⟨m', kept, le_trans younger later⟩
    · refine .inr ?_
      simp only [seconds, cacheTtlSecs] at gone ⊢
      omega
  · exact .inr (le_trans old (apply_now w st))

/-! ### Bars -/

variable {b : Bar} {user g : ℕ}

theorem since_of_apply (after : (w.apply cfg st).since b user = some g) :
    st.since b user = some g ∨ g = st.updates := by
  cases w with
  | updateUser =>
    simp only [apply, updateSince] at after
    split_ifs at after
    · exact .inl after
    · exact .inr (Option.some.inj after).symm
    · exact .inl after
  | _ => exact .inl after

inductive Reaches (st : Store) (b : Bar) (user g : ℕ) : Effect → Prop
  | commit (before row : UserRow) (silent : notifies before row = false)
      (now : b.inForce row = true) (earlier : b.inForce before = false) :
    Reaches st b user g (.updateUser user before row)
  | event (since : st.since b user = some g) : Reaches st b user g (.applyInvalidated user g)

theorem barred_of_apply (after : (w.apply cfg st).barred b user = some g) :
    st.barred b user = some g ∨ Reaches st b user g w := by
  cases w with
  | updateUser u before row =>
    simp only [apply, updateBarred] at after
    split_ifs at after with same now earlier notified
    · exact .inl after
    · subst same
      exact .inr (.commit before row (by simpa using notified) now (by simpa using earlier))
    · exact .inl after
  | applyInvalidated =>
    simp only [apply, applyBarred] at after
    split_ifs at after with same
    · cases after
      obtain ⟨rfl, since⟩ := same
      exact .inr (.event since)
    · exact .inl after
  | _ => exact .inl after

theorem apply_updates (w : Effect) (st : Store) : st.updates ≤ (w.apply cfg st).updates := by
  cases w with
  | updateUser => exact Nat.le_succ _
  | _ => exact Nat.le_refl _

theorem Enforced.barred_apply (enforced : Enforced st) (b : Bar) (user g : ℕ)
    (after : (w.apply cfg st).barred b user = some g) :
    (w.apply cfg st).since b user = some g := by
  cases w with
  | updateUser =>
    simp only [apply, updateBarred] at after
    simp only [apply, updateSince]
    split_ifs at after ⊢
    · exact enforced.barred b user g after
    · exact after
    · exact enforced.barred b user g after
  | applyInvalidated =>
    simp only [apply, applyBarred] at after
    split_ifs at after with same
    · exact after ▸ same.2
    · exact enforced.barred b user g after
  | _ => exact enforced.barred b user g after

theorem Enforced.since_apply (enforced : Enforced st) (does : Does st q a w next) (b : Bar)
    (user g : ℕ) (after : (w.apply cfg st).since b user = some g) :
    g < (w.apply cfg st).updates ∧
      ∃ row, (w.apply cfg st).users user = some row ∧ b.inForce row = true := by
  cases does with
  | commit =>
    refine ⟨?_, ?_⟩
    · rcases since_of_apply after with old | rfl
      · exact Nat.lt_succ_of_lt (enforced.since b user g old).1
      · exact Nat.lt_succ_self _
    · simp only [apply, updateSince] at after
      split_ifs at after with same now earlier
      · exact ⟨_, by simp only [apply, same, update_self], now⟩
      · exact ⟨_, by simp only [apply, same, update_self], now⟩
      · obtain ⟨row, known, inForce⟩ := (enforced.since b user g after).2
        exact ⟨row, (update_of_ne same ..).trans known, inForce⟩
  | _ => exact enforced.since b user g after

/-! ### Steps -/

theorem Call.Older.apply {c : Call} (older : c.Older st) : c.Older (w.apply cfg st) :=
  fun b user g started => Nat.lt_of_lt_of_le (older b user g started) (apply_updates w st)

theorem Unbarred.apply (unbarred : Unbarred st q) : Unbarred (w.apply cfg st) q := by
  cases q with
  | missed | found | verified => exact Call.Older.apply unbarred
  | loaded c row =>
    refine ⟨unbarred.1.apply, fun b g concerns started after => ?_⟩
    rcases since_of_apply after with old | rfl
    · exact unbarred.2 b g concerns started old
    · exact Nat.lt_irrefl _ (unbarred.1 b row.userId _ started)
  | _ => trivial

theorem inForce_eq_false {user : UserRow} (active : user.isActive = true)
    (concerns : b.concerns user.isAdmin = true) : b.inForce user = false := by
  cases b with
  | inactive => rw [Bar.inForce, active]; rfl
  | demoted => rw [Bar.inForce, show user.isAdmin = true from concerns]; rfl

theorem Does.unbarred (does : Does st q a w next) (enforced : Enforced st)
    (unbarred : Unbarred st q) : Unbarred (w.apply cfg st) next := by
  have kept : Unbarred (w.apply cfg st) q := unbarred.apply
  cases does with
  | tick | setUtc | readToken | verify => exact kept
  | miss a c starts =>
    intro b user g started
    rw [starts.barred] at started
    exact (enforced.since b user g (enforced.barred b user g started)).1
  | readUser c row _ found active =>
    refine ⟨kept, fun b g concerns _ since => ?_⟩
    obtain ⟨_, known, inForce⟩ := (enforced.since b row.userId g since).2
    cases found.symm.trans known
    rw [inForce_eq_false active concerns] at inForce
    cases inForce
  | _ => trivial

theorem Entry.Accepted.not_stale {e : Entry} (accepted : e.Accepted st) : ¬Stale st e := by
  rintro (⟨m, marked, younger⟩ | old)
  · exact absurd younger (not_le.2 (accepted.valid m marked))
  · exact absurd old (not_le.2 accepted.current)

theorem Does.enforced (does : Does st q a w next) (enforced : Enforced st)
    (unbarred : Unbarred st q)
    (inserts : ∀ allowedRepoIds c row user, a = .insert allowedRepoIds → q = .loaded c row user →
      ∀ b : Bar, b.concerns user.isAdmin = true → st.barred b row.userId = none)
    (commits : ∀ user before row, w = .updateUser user before row → notifies before row = false →
      ∀ b : Bar, b.inForce row = true → b.inForce before = false →
      ∀ s raw entry, st.cache s raw = some entry → entry.validation.userId = user →
        b.concerns entry.validation.isAdmin = true → Stale st entry) :
    Enforced (w.apply cfg st) := by
  constructor
  case cached => exact does.cached enforced.cached
  case past => exact (renews_userInvalidations cfg w enforced.past).past
  case since => exact enforced.since_apply does
  case barred => exact enforced.barred_apply
  case entries =>
    intro b s raw e found concerns g barred
    rcases entry_of_apply found with before | ⟨_, rfl⟩
    · rcases barred_of_apply barred with old | reaches
      · exact (enforced.entries b s raw e before concerns g old).apply enforced.past
      · cases reaches with
        | commit user row silent now earlier =>
          have stale := commits _ user row rfl silent b now earlier s raw e before rfl concerns
          exact stale.apply enforced.past
        | event => exact .inl ⟨st.now, mark_self _, enforced.cached s raw e before⟩
    · cases does with
      | insert c row user allowedRepoIds =>
        have free := inserts allowedRepoIds c row user rfl rfl b concerns
        cases free.symm.trans barred
  case results =>
    intro r mem b g concerns before after
    rcases mem_results.1 mem with logged | old
    · cases does with
      | hit a c e _ found accepted =>
        cases logged
        exact accepted.not_stale (enforced.entries b _ _ e found concerns g after)
      | insert =>
        cases logged
        exact unbarred.2 b g concerns before (enforced.barred b _ g after)
      | _ => cases logged
    · exact enforced.results r old b g concerns before after

/-! ### Runs -/

theorem enforced {w} (h : Reach (service cfg).step Booted UpToDate w) :
    (service cfg).Holds Enforced Unbarred w := by
  refine Protocol.invariant ?_ ?_ (fun w start => ?_) h
  · intro w e o before known coded
    have does := code_does coded
    have unbarred := before.procs e.1
    refine ⟨does.enforced before.store unbarred known.inserts fun user row row' updates => ?_,
      does.unbarred before.store unbarred⟩
    exact known.commits user row row' (updates ▸ effect_of_code coded)
  · intro w e o j before _ _ _ _
    exact (before.procs j).apply
  · have absent {s : ℕ} {raw : Raw} {e : Entry} : w.store.cache s raw ≠ some e := by
      rw [start.uncached]
      exact nofun
    have unbarred (b : Bar) (user g : ℕ) : w.store.barred b user ≠ some g := by
      rw [(start.unbarred b user).2]
      exact nofun
    refine .of_idle start.idle rfl ⟨fun s raw e found => absurd found absent, fun user m found => ?_,
      fun b user g since => ?_, fun b user g barred => absurd barred (unbarred b user g),
      fun b s raw e found => absurd found absent, ?_⟩ trivial
    · rw [start.userInvalidations] at found
      cases found
    · rw [(start.unbarred b user).1] at since
      cases since
    · rw [start.results]
      exact nofun

/-- A validation that starts after a deactivation has taken effect does not return `Ok` while the
user stays inactive, and one that starts after a demotion has taken effect does not return the admin
flag while the user stays demoted. -/
theorem barred_user_rejected {w} (h : Reach (service cfg).step Booted UpToDate w) :
    ∀ r ∈ w.store.results,
      (∀ g, r.before .inactive = some g → r.after .inactive ≠ some g) ∧
        (r.validation.isAdmin = true →
          ∀ g, r.before .demoted = some g → r.after .demoted ≠ some g) := by
  intro r mem
  have results := (enforced h).store.results r mem
  exact ⟨fun g => results .inactive g rfl, fun admin g => results .demoted g admin⟩

/-! ### Runs of one user -/

variable (w : World Store Request ℕ) (e : ℕ × Action)

def upToDateCheck : Bool :=
  (match e.2, w.pool.proc e.1 with
  | .insert _, .loaded _ row user => [Bar.inactive, .demoted].all fun b =>
      !b.concerns user.isAdmin || (w.store.barred b row.userId).isNone
  | _, _ => true) &&
  match effect w e with
  | some (.updateUser _ before row) => notifies before row
  | _ => true

theorem upToDate_of_check (checked : upToDateCheck w e = true) : UpToDate w e := by
  obtain ⟨inserts, commits⟩ := Bool.and_eq_true_iff.1 checked
  constructor
  · intro _ c _ _ action phase b concerns
    simp only [action, phase, List.all_eq_true] at inserts
    have free := inserts b (by cases b <;> decide)
    simpa [concerns] using free
  · intro _ _ _ updates silent
    simp [updates, silent] at commits

/-- A token is validated, its user is deactivated, the event is applied, and the next validation
finds no user. -/
theorem barred_user_rejected_deactivated : ∃ w,
    Reach (service allRegistered).step Booted UpToDate w ∧
      w.store.barred .inactive 0 = some 0 ∧ w.store.results.length = 1 ∧
      ∀ r ∈ w.store.results,
        (∀ g, r.before .inactive = some g → r.after .inactive ≠ some g) ∧
          (r.validation.isAdmin = true →
            ∀ g, r.before .demoted = some g → r.after .demoted ≠ some g) := by
  obtain ⟨w, reached, barred, length⟩ :=
    Reach.exists_of_start (service allRegistered).step _ upToDate_of_check _ oneToken_booted
      [(0, .validate 0 ⟨0, 0⟩), (0, .readToken 0), (0, .verify), (0, .readUser), (0, .insert none),
        (1, .updateUser 0 (some false) (some false)), (1, .readAdmin), (1, .commit),
        (2, .applyEvent), (3, .validate 0 ⟨0, 0⟩), (3, .readToken 0), (3, .verify),
        (3, .readUser)]
      (fun w => w.store.barred .inactive 0 = some 0 ∧ w.store.results.length = 1) (by decide)
  exact ⟨w, reached, barred, length, barred_user_rejected reached⟩

/-- A validation loads the active user, the user is deactivated and the event is applied, and only
then the validation inserts its entry: the next validation accepts it. -/
theorem deactivated_user_accepted : ∃ w,
    Reach (service allRegistered).step Booted Any w ∧
      ∃ r ∈ w.store.results, ∃ g, r.before .inactive = some g ∧ r.after .inactive = some g := by
  obtain ⟨w, reached, r, mem, before, after⟩ :=
    Reach.exists_of_free (service allRegistered).step _ _ oneToken_booted
      [(0, .validate 0 ⟨0, 0⟩), (0, .readToken 0), (0, .verify), (0, .readUser),
        (1, .updateUser 0 (some false) none), (1, .readAdmin), (1, .commit), (2, .applyEvent),
        (3, .tick 1), (0, .insert none), (3, .validate 0 ⟨0, 0⟩)]
      (fun w => ∃ r ∈ w.store.results, r.before .inactive = some 0 ∧
        r.after .inactive = some 0) (by decide)
  exact ⟨w, reached, r, mem, 0, before, after⟩

end ArtifactKeeper.ApiTokens
