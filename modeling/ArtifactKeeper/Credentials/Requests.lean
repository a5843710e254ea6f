import ArtifactKeeper.Library.Protocol
import ArtifactKeeper.Library.Machine

/-!
# Credential changes

The credential columns of a user and the map `CREDENTIAL_INVALIDATIONS` of every replica, which
holds the results of lookups and the watermarks of local invalidations: an entry is only raised, and
a raise restarts its lifetime.  Columns and clocks count microseconds, watermarks and tokens
milliseconds.
-/

namespace ArtifactKeeper.Credentials

open Machine Function

structure UserRow where
  passwordChangedAt : ℤ
  totpVerifiedAt : Option ℤ
  privilegesChangedAt : ℤ
  isActive : Bool
  deriving DecidableEq

variable (row : UserRow)

/-- `GREATEST(password_changed_at, COALESCE(totp_verified_at, password_changed_at),
privileges_changed_at)`. -/
def UserRow.changedAt : ℤ :=
  max (max row.passwordChangedAt (row.totpVerifiedAt.getD row.passwordChangedAt))
    row.privilegesChangedAt

def clockSkewTolerance : ℤ := 2000

def applyDbClockSkewTolerance (watermark : ℤ) : ℤ := watermark - clockSkewTolerance

def UserRow.watermark : ℤ :=
  applyDbClockSkewTolerance (timestampMillis row.changedAt)

structure Token where
  id : ℕ
  user : ℕ
  iat : ℤ
  deriving DecidableEq

inductive TotpChange
  | enable
  | disable
  deriving DecidableEq

/-- A call of `enable_totp` or `disable_totp`; the caller may have no token. -/
structure Call where
  replica : ℕ
  user : ℕ
  change : TotpChange
  caller : Option Token
  started : ℤ
  deriving DecidableEq

/-- A committed change: the timestamp it leaves in the row, the tokens issued so far, and the TOTP
call it belongs to. -/
structure Commit where
  user : ℕ
  changedAt : ℤ
  committed : ℤ
  tokens : List Token
  call : Option Call
  deriving DecidableEq

structure Verdict where
  replica : ℕ
  user : ℕ
  iat : ℤ
  started : ℤ
  rejected : Bool
  deriving DecidableEq

structure Entry where
  watermark : ℤ
  recorded : ℤ
  deriving DecidableEq

structure Store where
  users : ℕ → Option UserRow
  invalidations : ℕ → ℕ → Option Entry
  now : ℤ
  clock : ℕ → ℤ
  dbClock : ℤ
  tokens : List Token
  commits : List Commit
  watermarks : List (ℕ × ℤ)
  verdicts : List Verdict
  returned : List (Commit × ℤ)

/-! ### The map -/

def invalidationRetention : ℤ := 7 * 24 * 3600 * 1000

variable (st : Store)

/-- The watermark is above that of the entry, or there is none. -/
def Store.Raises (replica user : ℕ) (watermark : ℤ) : Prop :=
  ∀ e, st.invalidations replica user = some e → e.watermark < watermark

def raise (now watermark : ℤ) : Option Entry → Entry
  | some e => if e.watermark < watermark then ⟨watermark, now⟩ else e
  | none => ⟨watermark, now⟩

/-- `invalidate_user_tokens_at`; old watermarks are pruned. -/
def invalidateUserTokensAt (replica user : ℕ) (watermark : ℤ) : ℕ → ℕ → Option Entry :=
  fun r u =>
    if r = replica then
      (if u = user then some (raise st.now watermark (st.invalidations r u))
        else st.invalidations r u).filter
          fun e => timestampMillis (st.clock r) - invalidationRetention < e.watermark
    else st.invalidations r u

/-- The watermark of `invalidate_other_sessions`: that of `invalidate_user_tokens_except_caller` for
a caller with a token, else that of `invalidate_user_tokens`. -/
def invalidateOtherSessions (replica : ℕ) : Option ℤ → ℤ
  | some callerIat => callerIat - 1
  | none => timestampMillis (st.clock replica)

def cacheTtlSecs : ℤ := 5

/-- What a lookup finds out about a user. -/
structure CredentialWatermark where
  watermark : ℤ
  isActive : Bool
  deriving DecidableEq

/-- The fast path of `fetch_credential_change_watermark`. -/
def fetchCached (replica user : ℕ) : Option CredentialWatermark :=
  match st.invalidations replica user with
  | some e => if asSecs (st.now - e.recorded) < cacheTtlSecs then some ⟨e.watermark, true⟩ else none
  | none => none

def UserRow.credentials : CredentialWatermark := ⟨row.watermark, row.isActive⟩

/-- The comparison of `is_token_invalidated_replica_safe`. -/
def isTokenInvalidated (found : Option CredentialWatermark) (iat : ℤ) : Bool :=
  match found with
  | some entry => !entry.isActive || decide (iat < entry.watermark)
  | none => false

def mintIat (replica user : ℕ) : ℤ :=
  match st.invalidations replica user with
  | some e =>
    if timestampMillis (st.clock replica) ≤ e.watermark then e.watermark + 1
    else timestampMillis (st.clock replica)
  | none => timestampMillis (st.clock replica)

/-! ### Effects -/

inductive Effect
  | none
  | tick (elapsed : ℕ)
  | setClock (replica : ℕ) (at_ : ℤ)
  | setDbClock (at_ : ℤ)
  | setActive (user : ℕ) (row : UserRow) (active : Bool)
  | mint (token : Token)
  | invalidate (replica user : ℕ) (watermark : ℤ)
  /-- A check is decided; a lookup that found an active user records its watermark. -/
  | judge (verdict : Verdict) (recorded : Option ℤ)
  | commit (row : UserRow) (m : Commit)
  | finish (m : Commit)

def Effect.apply : Effect → Store → Store
  | .none, st => st
  | .tick elapsed, st =>
    { st with now := st.now + elapsed
              clock := fun r => st.clock r + elapsed
              dbClock := st.dbClock + elapsed }
  | .setClock replica at_, st => { st with clock := update st.clock replica at_ }
  | .setDbClock at_, st => { st with dbClock := at_ }
  | .setActive user row active, st =>
    { st with users := update st.users user (some { row with isActive := active }) }
  | .mint token, st => { st with tokens := token :: st.tokens }
  | .invalidate replica user watermark, st =>
    { st with invalidations := invalidateUserTokensAt st replica user watermark
              watermarks := (user, watermark) :: st.watermarks }
  | .judge verdict recorded, st =>
    { st with invalidations := match recorded with
                | some watermark =>
                  invalidateUserTokensAt st verdict.replica verdict.user watermark
                | Option.none => st.invalidations
              verdicts := verdict :: st.verdicts }
  | .commit row m, st =>
    { st with users := update st.users m.user (some row), commits := m :: st.commits }
  | .finish m, st => { st with returned := (m, st.now) :: st.returned }

/-! ### Checks, changes and TOTP calls -/

structure Check where
  replica : ℕ
  user : ℕ
  iat : ℤ
  started : ℤ
  call : Option Call
  deriving DecidableEq

inductive Column
  | password
  | privileges
  deriving DecidableEq

inductive Request
  | idle
  /-- The map had no current entry. -/
  | checking (c : Check)
  | fetched (c : Check) (row : Option UserRow)
  | changing (replica user : ℕ) (column : Column) (at_ : ℤ)
  | totp (k : Call)
  /-- The timestamp for `totp_verified_at` is chosen. -/
  | stamped (k : Call) (verifiedTs : ℤ)
  | invalidating (replica user : ℕ) (callerIat : Option ℤ) (commit : Option Commit)
  | returning (commit : Commit)
  | finished
  deriving DecidableEq

inductive Action
  | tick (elapsed : ℕ)
  | setClock (replica : ℕ) (at_ : ℤ)
  | setDbClock (at_ : ℤ)
  | setActive (user : ℕ) (active : Bool)
  | drop
  | login (replica user : ℕ)
  | check (replica user : ℕ) (iat : ℤ)
  | query
  | settle
  | invalidate (replica user : ℕ) (callerIat : Option ℤ)
  | change (replica user : ℕ) (column : Column)
  | call (replica user : ℕ) (change : TotpChange) (caller : Option Token)
  | stamp
  | commit
  | invalidateOthers
  | return_
  deriving DecidableEq

abbrev Statement := Outcome Request ℕ Effect

def proceed (next : Request) : Statement := ⟨[], .none, next⟩

variable (c : Check)

def Check.verdict (rejected : Bool) : Verdict :=
  ⟨c.replica, c.user, c.iat, c.started, rejected⟩

/-- An accepted caller enters the handler. -/
def Check.next (rejected : Bool) : Request :=
  match rejected, c.call with
  | false, some k => .totp k
  | _, _ => .finished

/-- `is_token_invalidated_replica_safe` up to its query. -/
def isTokenInvalidatedReplicaSafe : Statement :=
  match fetchCached st c.replica c.user with
  | some entry =>
    let rejected := isTokenInvalidated (some entry) c.iat
    ⟨[], .judge (c.verdict rejected) none, c.next rejected⟩
  | none => proceed (.checking c)

/-- What follows the query: an active user is cached, and the token is compared with the row. -/
def settle (row : Option UserRow) : Statement :=
  let rejected := isTokenInvalidated (row.map UserRow.credentials) c.iat
  let recorded := (row.filter (·.isActive)).map UserRow.watermark
  ⟨[], .judge (c.verdict rejected) recorded, c.next rejected⟩

def Store.hasPassed (replica user : ℕ) (iat : ℤ) : Bool :=
  st.verdicts.any fun v => v.replica = replica && v.user = user && v.iat = iat && !v.rejected

def UserRow.set (column : Column) (at_ : ℤ) : UserRow :=
  match column with
  | .password => { row with passwordChangedAt := at_ }
  | .privileges => { row with privilegesChangedAt := at_ }

/-- The value of `totp_verified_at` for an enabling call. -/
def verifiedTs (k : Call) : ℤ :=
  match k.caller with
  | some token => token.iat * 1000
  | none => st.clock k.replica

def Store.commitOf (user : ℕ) (row : UserRow) (call : Option Call) : Commit :=
  ⟨user, row.changedAt, st.now, st.tokens, call⟩

def commitTotp (k : Call) (totpVerifiedAt : Option ℤ) : Option Statement :=
  (st.users k.user).map fun row =>
    let row := { row with totpVerifiedAt }
    let commit := st.commitOf k.user row (some k)
    ⟨[], .commit row commit, .invalidating k.replica k.user (k.caller.map (·.iat)) (some commit)⟩

def code (q : Request) (a : Action) : Option Statement :=
  match a, q with
  | .tick elapsed, q => some ⟨[], .tick elapsed, q⟩
  | .setClock replica at_, q => some ⟨[], .setClock replica at_, q⟩
  | .setDbClock at_, q => some ⟨[], .setDbClock at_, q⟩
  | .setActive user active, q => (st.users user).map fun row => ⟨[], .setActive user row active, q⟩
  | .drop, _ => some (proceed .finished)
  | .login replica user, .idle =>
    if (st.users user).any (·.isActive) then
      some ⟨[], .mint ⟨st.tokens.length, user, mintIat st replica user⟩, .finished⟩
    else none
  | .check replica user iat, .idle =>
    some (isTokenInvalidatedReplicaSafe st ⟨replica, user, iat, st.now, none⟩)
  | .query, .checking c => some (proceed (.fetched c (st.users c.user)))
  | .settle, .fetched c row => some (settle c row)
  | .invalidate replica user callerIat, .idle =>
    if callerIat.all (st.hasPassed replica user) then
      some ⟨[], .invalidate replica user (invalidateOtherSessions st replica callerIat), .finished⟩
    else none
  | .change replica user column, .idle => some (proceed (.changing replica user column st.dbClock))
  | .commit, .changing replica user column at_ =>
    (st.users user).map fun row =>
      ⟨[], .commit (row.set column at_) (st.commitOf user (row.set column at_) none),
        .invalidating replica user none none⟩
  | .call replica user change (some token), .idle =>
    if token ∈ st.tokens ∧ token.user = user then
      some (isTokenInvalidatedReplicaSafe st
        ⟨replica, user, token.iat, st.now, some ⟨replica, user, change, some token, st.now⟩⟩)
    else none
  | .call replica user change none, .idle =>
    some (proceed (.totp ⟨replica, user, change, none, st.now⟩))
  | .stamp, .totp k =>
    match k.change with
    | .enable => some (proceed (.stamped k (verifiedTs st k)))
    | .disable => none
  | .commit, .stamped k at_ => commitTotp st k (some at_)
  | .commit, .totp k =>
    match k.change with
    | .enable => none
    | .disable => commitTotp st k none
  | .invalidateOthers, .invalidating replica user callerIat commit =>
    some ⟨[], .invalidate replica user (invalidateOtherSessions st replica callerIat),
      match commit with
      | some commit => .returning commit
      | none => .finished⟩
  | .return_, .returning commit => some ⟨[], .finish commit, .finished⟩
  | _, _ => none

def service : Protocol Store Request ℕ Action Effect where
  holds _ := []
  apply := Effect.apply
  code := code

/-! ### What a step can do to the credentials -/

open Option

variable {st} {q : Request} {a : Action} {o : Statement} {w : Effect}

structure Check.Starts (st : Store) : Prop where
  now : c.started = st.now
  call : ∀ k, c.call = some k → k.started = st.now

variable (st : Store) in
inductive Does : Request → Action → Effect → Request → Prop
  | stop (q : Request) (a : Action) : Does q a .none .finished
  | tick (q : Request) (elapsed : ℕ) : Does q (.tick elapsed) (.tick elapsed) q
  | setClock (q : Request) (replica : ℕ) (at_ : ℤ) :
    Does q (.setClock replica at_) (.setClock replica at_) q
  | setDbClock (q : Request) (at_ : ℤ) : Does q (.setDbClock at_) (.setDbClock at_) q
  | setActive (q : Request) (user : ℕ) (active : Bool) (row : UserRow)
      (found : st.users user = some row) :
    Does q (.setActive user active) (.setActive user row active) q
  | login (replica user : ℕ) : Does .idle (.login replica user)
      (.mint ⟨st.tokens.length, user, mintIat st replica user⟩) .finished
  | hit (a : Action) (c : Check) (e : Entry) (starts : c.Starts st)
      (found : st.invalidations c.replica c.user = some e)
      (current : st.now - e.recorded < seconds cacheTtlSecs) :
    Does .idle a (.judge (c.verdict (c.iat < e.watermark)) none) (c.next (c.iat < e.watermark))
  | miss (a : Action) (c : Check) (starts : c.Starts st) : Does .idle a .none (.checking c)
  | query (c : Check) : Does (.checking c) .query .none (.fetched c (st.users c.user))
  | settle (c : Check) (row : Option UserRow) :
    Does (.fetched c row) .settle
      (.judge (c.verdict (isTokenInvalidated (row.map UserRow.credentials) c.iat))
        ((row.filter (·.isActive)).map UserRow.watermark))
      (c.next (isTokenInvalidated (row.map UserRow.credentials) c.iat))
  | invalidate (replica user : ℕ) (callerIat : Option ℤ) :
    Does .idle (.invalidate replica user callerIat)
      (.invalidate replica user (invalidateOtherSessions st replica callerIat)) .finished
  | change (replica user : ℕ) (column : Column) :
    Does .idle (.change replica user column) .none (.changing replica user column st.dbClock)
  | commitChange (replica user : ℕ) (column : Column) (at_ : ℤ) (row : UserRow)
      (found : st.users user = some row) :
    Does (.changing replica user column at_) .commit
      (.commit (row.set column at_) (st.commitOf user (row.set column at_) none))
      (.invalidating replica user none none)
  | call (replica user : ℕ) (change : TotpChange) :
    Does .idle (.call replica user change none) .none
      (.totp ⟨replica, user, change, none, st.now⟩)
  | stamp (k : Call) (enable : k.change = .enable) :
    Does (.totp k) .stamp .none (.stamped k (verifiedTs st k))
  | enable (k : Call) (at_ : ℤ) (row : UserRow) (found : st.users k.user = some row) :
    Does (.stamped k at_) .commit
      (.commit { row with totpVerifiedAt := some at_ }
        (st.commitOf k.user { row with totpVerifiedAt := some at_ } (some k)))
      (.invalidating k.replica k.user (k.caller.map (·.iat))
        (some (st.commitOf k.user { row with totpVerifiedAt := some at_ } (some k))))
  | disable (k : Call) (row : UserRow) (found : st.users k.user = some row) :
    Does (.totp k) .commit
      (.commit { row with totpVerifiedAt := none }
        (st.commitOf k.user { row with totpVerifiedAt := none } (some k)))
      (.invalidating k.replica k.user (k.caller.map (·.iat))
        (some (st.commitOf k.user { row with totpVerifiedAt := none } (some k))))
  | invalidateOthers (replica user : ℕ) (callerIat : Option ℤ) (m : Option Commit) :
    Does (.invalidating replica user callerIat m) .invalidateOthers
      (.invalidate replica user (invalidateOtherSessions st replica callerIat))
      (match m with
      | some m => .returning m
      | none => .finished)
  | return_ (m : Commit) : Does (.returning m) .return_ (.finish m) .finished

variable {replica user : ℕ}

theorem fetchCached_eq_some {entry : CredentialWatermark}
    (h : fetchCached st replica user = some entry) :
    ∃ e, st.invalidations replica user = some e ∧ st.now - e.recorded < seconds cacheTtlSecs ∧
      entry = ⟨e.watermark, true⟩ := by
  rw [fetchCached] at h
  split at h
  · rename_i e found
    split_ifs at h with current
    exact ⟨e, found, asSecs_lt.1 current, (some.inj h).symm⟩
  · cases h

theorem does_of_check {c : Check} (starts : c.Starts st) :
    Does st .idle a (isTokenInvalidatedReplicaSafe st c).effect
      (isTokenInvalidatedReplicaSafe st c).next := by
  rw [isTokenInvalidatedReplicaSafe]
  cases cached : fetchCached st c.replica c.user with
  | none => exact .miss a c starts
  | some _ =>
    obtain ⟨e, found, current, rfl⟩ := fetchCached_eq_some cached
    exact .hit a c e starts found current

theorem code_does (coded : code st q a = some o) : Does st q a o.effect o.next := by
  rw [code.eq_def] at coded
  split at coded
  · cases coded; exact .tick _ _
  · cases coded; exact .setClock _ _ _
  · cases coded; exact .setDbClock _ _
  · obtain ⟨row, found, rfl⟩ := map_eq_some_iff.1 coded
    exact .setActive _ _ _ row found
  · cases coded; exact .stop _ _
  · split_ifs at coded
    cases coded
    exact .login _ _
  · cases coded
    exact does_of_check ⟨rfl, fun k opens => by cases opens⟩
  · cases coded; exact .query _
  · cases coded; exact .settle _ _
  · split_ifs at coded
    cases coded
    exact .invalidate _ _ _
  · cases coded; exact .change _ _ _
  · obtain ⟨row, found, rfl⟩ := map_eq_some_iff.1 coded
    exact .commitChange _ _ _ _ row found
  · split_ifs at coded
    cases coded
    exact does_of_check ⟨rfl, fun k opens => by cases opens; rfl⟩
  · cases coded; exact .call _ _ _
  case h_15 k =>
    split at coded
    · cases coded; exact .stamp _ ‹_›
    · cases coded
  · obtain ⟨row, found, rfl⟩ := map_eq_some_iff.1 coded
    exact .enable _ _ row found
  · split at coded
    · cases coded
    · obtain ⟨row, found, rfl⟩ := map_eq_some_iff.1 coded
      exact .disable _ row found
  · cases coded; exact .invalidateOthers _ _ _ _
  · cases coded; exact .return_ _
  · cases coded

theorem Check.next_cases (rejected : Bool) :
    c.next rejected = .finished ∨
      ∃ k, c.call = some k ∧ rejected = false ∧ c.next rejected = .totp k := by
  cases rejected with
  | true => exact .inl rfl
  | false =>
    cases opens : c.call with
    | none => exact .inl (by simp only [Check.next, opens])
    | some k => exact .inr ⟨k, rfl, rfl, by simp only [Check.next, opens]⟩

/-! ### The map -/

/-- The watermark that an effect offers to a map. -/
def Effect.records : Effect → Option (ℕ × ℕ × ℤ)
  | .invalidate replica user watermark => some (replica, user, watermark)
  | .judge v recorded => recorded.map fun watermark => (v.replica, v.user, watermark)
  | _ => Option.none

variable {r u : ℕ} {e : Entry}

theorem entry_of_invalidate {watermark : ℤ}
    (found : invalidateUserTokensAt st replica user watermark r u = some e) :
    st.invalidations r u = some e ∨
      r = replica ∧ u = user ∧ e = ⟨watermark, st.now⟩ ∧ st.Raises r u watermark := by
  simp only [invalidateUserTokensAt] at found
  split_ifs at found with here mine
  · have kept := (filter_eq_some_iff.1 found).1
    cases before : st.invalidations r u with
    | none =>
      rw [before] at kept
      refine .inr ⟨here, mine, (some.inj kept).symm, fun e' found' => ?_⟩
      rw [before] at found'
      cases found'
    | some e' =>
      simp only [before, raise, some.injEq] at kept
      split_ifs at kept with raised
      · refine .inr ⟨here, mine, kept.symm, fun e' found' => ?_⟩
        cases before.symm.trans found'
        exact raised
      · exact .inl (congrArg some kept)
  · exact .inl (filter_eq_some_iff.1 found).1
  · exact .inl found

theorem entry_of_apply (found : (w.apply st).invalidations r u = some e) :
    st.invalidations r u = some e ∨
      w.records = some (r, u, e.watermark) ∧ e.recorded = st.now ∧ st.Raises r u e.watermark := by
  cases w with
  | invalidate =>
    rcases entry_of_invalidate found with before | ⟨rfl, rfl, rfl, raises⟩
    · exact .inl before
    · exact .inr ⟨rfl, rfl, raises⟩
  | judge v recorded =>
    cases recorded with
    | none => exact .inl found
    | some _ =>
      rcases entry_of_invalidate found with before | ⟨rfl, rfl, rfl, raises⟩
      · exact .inl before
      · exact .inr ⟨rfl, rfl, raises⟩
  | _ => exact .inl found

/-! ### Observations -/

def Effect.judged : Effect → Option Verdict
  | .judge v _ => some v
  | _ => Option.none

def Effect.committed : Effect → Option Commit
  | .commit _ m => some m
  | _ => Option.none

open Effect (apply judged committed)

theorem mem_verdicts {v : Verdict} :
    v ∈ (w.apply st).verdicts ↔ w.judged = some v ∨ v ∈ st.verdicts := by
  cases w with
  | judge =>
    simp only [apply, judged, List.mem_cons, some.injEq]
    exact or_congr_left eq_comm
  | _ => simp [apply, judged]

theorem mem_commits {m : Commit} :
    m ∈ (w.apply st).commits ↔ w.committed = some m ∨ m ∈ st.commits := by
  cases w with
  | commit =>
    simp only [apply, committed, List.mem_cons, some.injEq]
    exact or_congr_left eq_comm
  | _ => simp [apply, committed]

theorem apply_now (w : Effect) (st : Store) : st.now ≤ (w.apply st).now := by
  cases w with
  | tick => simp only [apply]; omega
  | _ => exact Int.le_refl _

theorem Does.commits {next : Request} {m : Commit} (does : Does st q a w next)
    (committed : w.committed = some m) : m.committed = st.now ∧ m.tokens = st.tokens := by
  cases does with
  | commitChange | enable | disable => cases committed; exact ⟨rfl, rfl⟩
  | _ => cases committed

end ArtifactKeeper.Credentials
