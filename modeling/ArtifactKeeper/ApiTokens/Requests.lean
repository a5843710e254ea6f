import ArtifactKeeper.Library.Protocol
import ArtifactKeeper.Library.Machine

/-!
# API tokens

The rows of `api_tokens` and `users`, and what one process keeps in memory: the validation cache of
every `AuthService`, the revoked tokens and the times at which the entries of a user were
invalidated.  Both marks are forgotten after twice the lifetime of a cache entry.
-/

namespace ArtifactKeeper.ApiTokens

open Machine

structure Raw where
  head : ℕ
  secret : ℕ
  deriving DecidableEq

/-- A row of `api_tokens`; the hash matches one secret. -/
structure TokenRow where
  id : ℕ
  tokenHead : ℕ
  tokenHash : ℕ
  userId : ℕ
  scopes : List ℕ
  expiresAt : Option ℤ
  revokedAt : Option ℤ
  deriving DecidableEq

structure UserRow where
  isActive : Bool
  isAdmin : Bool
  deriving DecidableEq

structure Validation where
  userId : ℕ
  isAdmin : Bool
  scopes : List ℕ
  allowedRepoIds : Option (List ℕ)
  expiresAt : Option ℤ
  deriving DecidableEq

/-- A `CachedApiTokenEntry` and the instant it was cached. -/
structure Entry where
  validation : Validation
  tokenId : ℕ
  expiresAt : Option ℤ
  cachedAt : ℤ
  deriving DecidableEq

/-- What an update can take away from a user. -/
inductive Bar
  | inactive
  | demoted
  deriving DecidableEq

def Bar.inForce (b : Bar) (row : UserRow) : Bool :=
  match b with
  | .inactive => !row.isActive
  | .demoted => !row.isAdmin

def Bar.concerns (b : Bar) (isAdmin : Bool) : Bool :=
  match b with
  | .inactive => true
  | .demoted => isAdmin

/-- An event of the database; `update` numbers the update of the user. -/
inductive Event
  | apiTokenRevoked (tokenId : ℕ)
  | userApiTokensInvalidated (user update : ℕ)
  deriving DecidableEq

/-- A validation that returned `Ok`: the tokens revoked before it started, and the bars that had
taken effect for its user when it started and when it returned. -/
structure Result where
  tokenId : ℕ
  validation : Validation
  revoked : List ℕ
  before : Bar → Option ℕ
  after : Bar → Option ℕ

structure Store where
  tokens : List TokenRow
  users : ℕ → Option UserRow
  cache : ℕ → Raw → Option Entry
  revokedTokens : ℕ → Option ℤ
  userInvalidations : ℕ → Option ℤ
  events : List Event
  now : ℤ
  utc : ℤ
  revoked : List ℕ
  results : List Result
  updates : ℕ
  /-- The update that has put a bar in force. -/
  since : Bar → ℕ → Option ℕ
  /-- The update whose bar has taken effect. -/
  barred : Bar → ℕ → Option ℕ

/-- The caches that are registered for invalidation. -/
structure Config where
  registered : ℕ → Bool

/-! ### Marks -/

def cacheTtlSecs : ℤ := 300

def isRetained (now recordedAt : ℤ) : Bool := asSecs (now - recordedAt) < cacheTtlSecs * 2

/-- Insert a mark and drop the old ones. -/
def mark (now : ℤ) (marks : ℕ → Option ℤ) (id : ℕ) : ℕ → Option ℤ :=
  fun i => (if i = id then some now else marks i).filter (isRetained now)

variable (st : Store)

def markApiTokenRevoked (tokenId : ℕ) : ℕ → Option ℤ :=
  mark st.now st.revokedTokens tokenId

variable (cfg : Config) (st : Store)

/-- The registry half of `invalidate_user_token_cache_entries`. -/
def dropUserEntries (user : ℕ) : ℕ → Raw → Option Entry :=
  fun service raw => (st.cache service raw).filter fun e =>
    !cfg.registered service || decide (e.validation.userId ≠ user)

def invalidateUserTokenCacheEntries (user : ℕ) : Store :=
  { st with userInvalidations := mark st.now st.userInvalidations user
            cache := dropUserEntries cfg st user }

variable (user : ℕ)

def isUserApiTokensInvalidatedAfter (cachedAt : ℤ) : Bool :=
  (st.userInvalidations user).any fun invalidatedAt => cachedAt ≤ invalidatedAt

/-! ### The cache -/

/-- An entry is used, and kept by the next insert. -/
def Entry.isCurrent (e : Entry) (now : ℤ) : Bool := asSecs (now - e.cachedAt) < cacheTtlSecs

inductive Lookup
  | miss
  | reject
  | accept (e : Entry)
  deriving DecidableEq

/-- The cache lookup of `validate_api_token`. -/
def lookup (service : ℕ) (raw : Raw) : Lookup :=
  match st.cache service raw with
  | some e =>
    if e.isCurrent st.now then
      if (st.revokedTokens e.tokenId).isSome then .reject
      else if e.expiresAt.any (· < st.utc) then .reject
      else if isUserApiTokensInvalidatedAfter st e.validation.userId e.cachedAt then .reject
      else .accept e
    else .miss
  | none => .miss

def insertEntry (service : ℕ) (raw : Raw) (e : Entry) : ℕ → Raw → Option Entry :=
  fun s r =>
    if s = service then
      if r = raw then some e else (st.cache s r).filter fun e => e.isCurrent st.now
    else st.cache s r

/-! ### Effects -/

/-- The update `UPDATE api_tokens SET revoked_at … AND revoked_at IS NULL` finds this row. -/
def TokenRow.isRevocable (row : TokenRow) (id user : ℕ) : Bool :=
  row.id = id && row.userId = user && row.revokedAt.isNone

def TokenRow.revoke (row : TokenRow) (id user : ℕ) (at_ : ℤ) : TokenRow :=
  if row.isRevocable id user then { row with revokedAt := some at_ } else row

inductive Effect
  | none
  | tick (elapsed : ℕ)
  | setUtc (at_ : ℤ)
  | create (row : TokenRow)
  | accept (result : Result)
  | insert (service : ℕ) (raw : Raw) (e : Entry) (result : Result)
  | invalidateUser (user : ℕ)
  | updateUser (user : ℕ) (before row : UserRow)
  | revoke (id user : ℕ)
  | markRevoked (id : ℕ)
  | applyRevoked (id : ℕ)
  | applyInvalidated (user update : ℕ)
  | pruneInvalidations
  | flush

/-- The trigger on `users` fires. -/
def notifies (before row : UserRow) : Bool := before.isActive && !row.isActive

def updateSince (before row : UserRow) : Bar → ℕ → Option ℕ :=
  fun b u =>
    if u = user then
      if b.inForce row then if b.inForce before then st.since b u else some st.updates
      else none
    else st.since b u

def updateBarred (before row : UserRow) : Bar → ℕ → Option ℕ :=
  fun b u =>
    if u = user then
      if b.inForce row then
        if b.inForce before then st.barred b u
        else if notifies before row then none
        else some st.updates
      else none
    else st.barred b u

/-- The bars of an update take effect, if they are still in force. -/
def applyBarred (user update : ℕ) : Bar → ℕ → Option ℕ :=
  fun b u => if u = user ∧ st.since b u = some update then some update else st.barred b u

def Effect.apply : Effect → Store → Store
  | .none, st => st
  | .tick elapsed, st => { st with now := st.now + elapsed, utc := st.utc + elapsed }
  | .setUtc at_, st => { st with utc := at_ }
  | .create row, st => { st with tokens := row :: st.tokens }
  | .accept result, st => { st with results := result :: st.results }
  | .insert service raw e result, st =>
    { st with cache := insertEntry st service raw e, results := result :: st.results }
  | .invalidateUser user, st => invalidateUserTokenCacheEntries cfg st user
  | .updateUser user before row, st =>
    { st with users := Function.update st.users user (some row)
              events := st.events ++ if notifies before row then
                [.userApiTokensInvalidated user st.updates] else []
              updates := st.updates + 1
              since := updateSince st user before row
              barred := updateBarred st user before row }
  | .revoke id user, st =>
    { st with tokens := st.tokens.map fun row => row.revoke id user st.utc
              events := st.events ++ [.apiTokenRevoked id] }
  | .markRevoked id, st =>
    { st with revokedTokens := markApiTokenRevoked st id, revoked := id :: st.revoked }
  | .applyRevoked id, st =>
    { st with revokedTokens := markApiTokenRevoked st id, events := st.events.tail }
  | .applyInvalidated user update, st =>
    { invalidateUserTokenCacheEntries cfg st user with
      events := st.events.tail
      barred := applyBarred st user update }
  | .pruneInvalidations, st =>
    { st with userInvalidations := fun user =>
                (st.userInvalidations user).filter (isRetained st.now) }
  | .flush, st =>
    { st with cache := fun service raw =>
                if cfg.registered service then Option.none else st.cache service raw }

/-! ### Validations, updates of users and revocations -/

/-- A call of `validate_api_token`, with the revocations that had returned and the bars that had
taken effect when it started. -/
structure Call where
  service : ℕ
  raw : Raw
  started : ℤ
  revoked : List ℕ
  barred : Bar → ℕ → Option ℕ

inductive Request
  | idle
  | missed (c : Call)
  | found (c : Call) (row : Option TokenRow)
  | verified (c : Call) (row : TokenRow)
  | loaded (c : Call) (row : TokenRow) (user : UserRow)
  | updating (user : ℕ) (isActive isAdmin : Option Bool)
  | marked (user : ℕ) (isActive isAdmin : Option Bool)
  | revoking (tokenId : ℕ)
  | finished

inductive Action
  | tick (elapsed : ℕ)
  | setUtc (at_ : ℤ)
  | drop
  | create (row : TokenRow)
  | validate (service : ℕ) (raw : Raw)
  | readToken (choice : ℕ)
  | verify
  | readUser
  | insert (allowedRepoIds : Option (List ℕ))
  | updateUser (user : ℕ) (isActive isAdmin : Option Bool)
  | readAdmin
  | commit
  | revoke (id user : ℕ)
  | markRevoked
  | applyEvent
  | invalidateUser (user : ℕ)
  | pruneInvalidations
  | flush

abbrev Statement := Outcome Request ℕ Effect

def proceed (next : Request) : Statement := ⟨[], .none, next⟩

variable (c : Call)

/-- A validation returns `Ok`. -/
def Call.result (st : Store) (tokenId : ℕ) (validation : Validation) : Result where
  tokenId := tokenId
  validation := validation
  revoked := c.revoked
  before b := c.barred b validation.userId
  after b := st.barred b validation.userId

def validateApiToken : Statement :=
  match lookup st c.service c.raw with
  | .accept e => ⟨[], .accept (c.result st e.tokenId e.validation), .finished⟩
  | .reject => proceed .finished
  | .miss => proceed (.missed c)

/-- The query for the token: any row with the first characters of the presented one. -/
def readToken (choice : ℕ) : Option Statement :=
  match st.tokens.filter fun row => row.tokenHead = c.raw.head with
  | [] => some (proceed (.found c none))
  | rows => rows[choice]?.map fun row => proceed (.found c (some row))

/-- The password check and `check_token_validation_result`, then the expiry. -/
def verify (row : Option TokenRow) : Statement :=
  match row with
  | none => proceed .finished
  | some row =>
    if row.revokedAt.isSome then proceed .finished
    else if row.tokenHash ≠ c.raw.secret then proceed .finished
    else if row.expiresAt.any (· < st.utc) then proceed .finished
    else proceed (.verified c row)

/-- The query for the user, `WHERE id = $1 AND is_active = true`. -/
def readUser (row : TokenRow) : Statement :=
  match (st.users row.userId).filter (·.isActive) with
  | some user => proceed (.loaded c row user)
  | none => proceed .finished

def insert (row : TokenRow) (user : UserRow) (allowedRepoIds : Option (List ℕ)) : Statement :=
  let validation : Validation :=
    ⟨row.userId, user.isAdmin, row.scopes, allowedRepoIds, row.expiresAt⟩
  ⟨[], .insert c.service c.raw ⟨validation, row.id, row.expiresAt, st.now⟩
    (c.result st row.id validation), .finished⟩

/-- The row after the update of `update_user`. -/
def UserRow.update (row : UserRow) (isActive isAdmin : Option Bool) : UserRow :=
  ⟨isActive.getD row.isActive, isAdmin.getD row.isAdmin⟩

def isAdminChangeRequested (requested : Option Bool) : Bool :=
  requested.any fun isAdmin => (st.users user).any fun row => row.isAdmin != isAdmin

def applyInvalidationEvent : Option Statement :=
  match st.events with
  | [] => none
  | .apiTokenRevoked tokenId :: _ => some ⟨[], .applyRevoked tokenId, .finished⟩
  | .userApiTokensInvalidated user update :: _ =>
    some ⟨[], .applyInvalidated user update, .finished⟩

def code (q : Request) (a : Action) : Option Statement :=
  match a, q with
  | .tick elapsed, q => some ⟨[], .tick elapsed, q⟩
  | .setUtc at_, q => some ⟨[], .setUtc at_, q⟩
  | .drop, _ => some (proceed .finished)
  | .create row, .idle =>
    if row.revokedAt = none ∧ st.tokens.all (fun other => other.id ≠ row.id) then
      some ⟨[], .create row, .finished⟩
    else none
  | .validate service raw, .idle =>
    some (validateApiToken st ⟨service, raw, st.now, st.revoked, st.barred⟩)
  | .readToken choice, .missed c => readToken st c choice
  | .verify, .found c row => some (verify st c row)
  | .readUser, .verified c row => some (readUser st c row)
  | .insert allowedRepoIds, .loaded c row user => some (insert st c row user allowedRepoIds)
  | .updateUser user isActive isAdmin, .idle =>
    some ⟨[], if isActive = some false then .invalidateUser user else .none,
      .updating user isActive isAdmin⟩
  | .readAdmin, .updating user isActive isAdmin =>
    some ⟨[], if isAdminChangeRequested st user isAdmin then .invalidateUser user else .none,
      .marked user isActive isAdmin⟩
  | .commit, .marked user isActive isAdmin =>
    (st.users user).map fun before =>
      ⟨[], .updateUser user before (before.update isActive isAdmin), .finished⟩
  | .revoke id user, .idle =>
    if st.tokens.any (·.isRevocable id user) then some ⟨[], .revoke id user, .revoking id⟩ else none
  | .markRevoked, .revoking id => some ⟨[], .markRevoked id, .finished⟩
  | .applyEvent, .idle => applyInvalidationEvent st
  | .invalidateUser user, .idle => some ⟨[], .invalidateUser user, .finished⟩
  | .pruneInvalidations, .idle => some ⟨[], .pruneInvalidations, .finished⟩
  | .flush, .idle => some ⟨[], .flush, .finished⟩
  | _, _ => none

def service : Protocol Store Request ℕ Action Effect where
  holds _ := []
  apply := Effect.apply cfg
  code := code

/-! ### What a step can do to the validations -/

open List Option

variable {cfg} {st} {q : Request} {a : Action} {o : Statement} {w : Effect}

structure Call.Starts (st : Store) : Prop where
  started : c.started = st.now
  revoked : c.revoked = st.revoked
  barred : c.barred = st.barred

structure Entry.Accepted (e : Entry) (st : Store) : Prop where
  current : st.now < e.cachedAt + seconds cacheTtlSecs
  unrevoked : st.revokedTokens e.tokenId = none
  valid : ∀ m, st.userInvalidations e.validation.userId = some m → m < e.cachedAt

variable (st : Store) in
inductive Does : Request → Action → Effect → Request → Prop
  | stop (q : Request) (a : Action) : Does q a .none .finished
  | tick (q : Request) (elapsed : ℕ) : Does q (.tick elapsed) (.tick elapsed) q
  | setUtc (q : Request) (at_ : ℤ) : Does q (.setUtc at_) (.setUtc at_) q
  | create (row : TokenRow) (free : ∀ other ∈ st.tokens, other.id ≠ row.id) :
    Does .idle (.create row) (.create row) .finished
  | hit (a : Action) (c : Call) (e : Entry) (starts : c.Starts st)
      (found : st.cache c.service c.raw = some e) (accepted : e.Accepted st) :
    Does .idle a (.accept (c.result st e.tokenId e.validation)) .finished
  | miss (a : Action) (c : Call) (starts : c.Starts st) : Does .idle a .none (.missed c)
  | readToken (c : Call) (choice : ℕ) (row : Option TokenRow)
      (found : ∀ r, row = some r → r ∈ st.tokens) :
    Does (.missed c) (.readToken choice) .none (.found c row)
  | verify (c : Call) (row : TokenRow) (unrevoked : row.revokedAt = none) :
    Does (.found c (some row)) .verify .none (.verified c row)
  | readUser (c : Call) (row : TokenRow) (user : UserRow) (found : st.users row.userId = some user)
      (active : user.isActive = true) :
    Does (.verified c row) .readUser .none (.loaded c row user)
  | insert (c : Call) (row : TokenRow) (user : UserRow) (allowedRepoIds : Option (List ℕ)) :
    Does (.loaded c row user) (.insert allowedRepoIds)
      (insert st c row user allowedRepoIds).effect .finished
  | updateUser (user : ℕ) (isActive isAdmin : Option Bool) :
    Does .idle (.updateUser user isActive isAdmin) .none (.updating user isActive isAdmin)
  | deactivate (user : ℕ) (isActive isAdmin : Option Bool) :
    Does .idle (.updateUser user isActive isAdmin) (.invalidateUser user)
      (.updating user isActive isAdmin)
  | readAdmin (user : ℕ) (isActive isAdmin : Option Bool) :
    Does (.updating user isActive isAdmin) .readAdmin .none (.marked user isActive isAdmin)
  | changeAdmin (user : ℕ) (isActive isAdmin : Option Bool) :
    Does (.updating user isActive isAdmin) .readAdmin (.invalidateUser user)
      (.marked user isActive isAdmin)
  | commit (user : ℕ) (isActive isAdmin : Option Bool) (before : UserRow)
      (found : st.users user = some before) :
    Does (.marked user isActive isAdmin) .commit
      (.updateUser user before (before.update isActive isAdmin)) .finished
  | revoke (id user : ℕ) (row : TokenRow) (found : row ∈ st.tokens)
      (revocable : row.isRevocable id user = true) :
    Does .idle (.revoke id user) (.revoke id user) (.revoking id)
  | markRevoked (id : ℕ) : Does (.revoking id) .markRevoked (.markRevoked id) .finished
  | applyRevoked (id : ℕ) : Does .idle .applyEvent (.applyRevoked id) .finished
  | applyInvalidated (user update : ℕ) :
    Does .idle .applyEvent (.applyInvalidated user update) .finished
  | invalidateUser (user : ℕ) : Does .idle (.invalidateUser user) (.invalidateUser user) .finished
  | pruneInvalidations : Does .idle .pruneInvalidations .pruneInvalidations .finished
  | flush : Does .idle .flush .flush .finished

theorem Entry.isCurrent_iff {e : Entry} {now : ℤ} :
    e.isCurrent now = true ↔ now < e.cachedAt + seconds cacheTtlSecs := by
  rw [Entry.isCurrent, decide_eq_true_iff, asSecs_lt]
  omega

theorem lookup_accept {service : ℕ} {raw : Raw} {e : Entry}
    (h : lookup st service raw = .accept e) :
    st.cache service raw = some e ∧ e.Accepted st := by
  rw [lookup] at h
  split at h
  · rename_i e' found
    split_ifs at h with current revoked expired invalidated
    cases h
    refine ⟨found, Entry.isCurrent_iff.1 current, ?_, fun m marked => ?_⟩
    · simpa using revoked
    · simpa [isUserApiTokensInvalidatedAfter, marked] using invalidated
  · cases h

theorem does_of_validate {c : Call} (starts : c.Starts st) :
    Does st .idle a (validateApiToken st c).effect (validateApiToken st c).next := by
  rw [validateApiToken]
  cases found : lookup st c.service c.raw with
  | miss => exact .miss a c starts
  | reject => exact .stop _ a
  | accept e =>
    obtain ⟨cached, accepted⟩ := lookup_accept found
    exact .hit a c e starts cached accepted

theorem does_of_readToken {c : Call} {choice : ℕ} (h : readToken st c choice = some o) :
    Does st (.missed c) (.readToken choice) o.effect o.next := by
  rw [readToken] at h
  split at h
  · cases h
    exact .readToken c choice none fun r found => by cases found
  · obtain ⟨row, found, rfl⟩ := map_eq_some_iff.1 h
    refine .readToken c choice (some row) fun r same => ?_
    cases same
    exact mem_of_mem_filter (mem_of_getElem? found)

theorem does_of_verify (st : Store) (c : Call) (row : Option TokenRow) :
    Does st (.found c row) .verify (verify st c row).effect (verify st c row).next := by
  cases row with
  | none => exact .stop _ _
  | some row =>
    rw [verify]
    split_ifs with revoked mismatch expired
    · exact .stop _ _
    · exact .stop _ _
    · exact .stop _ _
    · exact .verify c row (by simpa using revoked)

theorem does_of_readUser (st : Store) (c : Call) (row : TokenRow) :
    Does st (.verified c row) .readUser (readUser st c row).effect (readUser st c row).next := by
  rw [readUser]
  split
  · rename_i user found
    obtain ⟨known, active⟩ := filter_eq_some_iff.1 found
    exact .readUser c row user known active
  · exact .stop _ _

theorem does_of_applyEvent (h : applyInvalidationEvent st = some o) :
    Does st .idle .applyEvent o.effect o.next := by
  rw [applyInvalidationEvent] at h
  split at h
  · cases h
  · cases h; exact .applyRevoked _
  · cases h; exact .applyInvalidated _ _

theorem code_does (coded : code st q a = some o) : Does st q a o.effect o.next := by
  rw [code.eq_def] at coded
  split at coded
  · cases coded; exact .tick _ _
  · cases coded; exact .setUtc _ _
  · cases coded; exact .stop _ _
  · split_ifs at coded with free
    cases coded
    exact .create _ fun other mem => of_decide_eq_true (List.all_eq_true.1 free.2 other mem)
  · cases coded; exact does_of_validate ⟨rfl, rfl, rfl⟩
  · exact does_of_readToken coded
  · cases coded; exact does_of_verify _ _ _
  · cases coded; exact does_of_readUser _ _ _
  · cases coded; exact .insert _ _ _ _
  · cases coded
    split_ifs
    · exact .deactivate _ _ _
    · exact .updateUser _ _ _
  · cases coded
    split_ifs
    · exact .changeAdmin _ _ _
    · exact .readAdmin _ _ _
  · obtain ⟨before, found, rfl⟩ := map_eq_some_iff.1 coded
    exact .commit _ _ _ before found
  · split_ifs at coded with found
    cases coded
    obtain ⟨row, mem, revocable⟩ := List.any_eq_true.1 found
    exact .revoke _ _ row mem revocable
  · cases coded; exact .markRevoked _
  · exact does_of_applyEvent coded
  · cases coded; exact .invalidateUser _
  · cases coded; exact .pruneInvalidations
  · cases coded; exact .flush
  · cases coded

/-! ### Marks -/

theorem isRetained_iff {now m : ℤ} :
    isRetained now m = true ↔ now < m + seconds (cacheTtlSecs * 2) := by
  rw [isRetained, decide_eq_true_iff, asSecs_lt]
  omega

theorem filter_retained (now : ℤ) {m : ℤ} {found : Option ℤ} (h : found = some m) :
    found.filter (isRetained now) = some m ∨ m + seconds (cacheTtlSecs * 2) ≤ now := by
  by_cases old : isRetained now m = true
  · exact .inl (filter_eq_some_iff.2 ⟨h, old⟩)
  · rw [isRetained_iff] at old
    exact .inr (Int.not_lt.1 old)

theorem mark_self {now : ℤ} {marks : ℕ → Option ℤ} (id : ℕ) : mark now marks id id = some now := by
  rw [mark, if_pos rfl]
  refine filter_eq_some_iff.2 ⟨rfl, isRetained_iff.2 ?_⟩
  simp only [seconds, cacheTtlSecs]
  omega

/-- Marks are kept or renewed until they are too old, and lie in the past. -/
structure Renews (marks : ℕ → Option ℤ) (now : ℤ) (marks' : ℕ → Option ℤ) : Prop where
  keeps : ∀ i m, marks i = some m →
    (∃ m', marks' i = some m' ∧ m ≤ m') ∨ m + seconds (cacheTtlSecs * 2) ≤ now
  past : ∀ i m, marks' i = some m → m ≤ now

section Renews

variable {now now' : ℤ} {marks : ℕ → Option ℤ}

section

variable (past : ∀ i m, marks i = some m → m ≤ now)
include past

theorem Renews.refl (later : now ≤ now') : Renews marks now' marks where
  keeps _ m found := .inl ⟨m, found, Int.le_refl _⟩
  past i m found := Int.le_trans (past i m found) later

theorem Renews.filter : Renews marks now fun i => (marks i).filter (isRetained now) where
  keeps i m found := by
    rcases filter_retained now found with kept | old
    · exact .inl ⟨m, kept, Int.le_refl _⟩
    · exact .inr old
  past i m found := past i m (filter_eq_some_iff.1 found).1

theorem Renews.mark (id : ℕ) : Renews marks now (ApiTokens.mark now marks id) where
  keeps i m found := by
    by_cases same : i = id
    · subst same
      exact .inl ⟨now, mark_self i, past i m found⟩
    · rw [ApiTokens.mark, if_neg same]
      exact (Renews.filter past).keeps i m found
  past i m found := by
    have kept := (filter_eq_some_iff.1 found).1
    split_ifs at kept with same
    · exact Int.le_of_eq (some.inj kept).symm
    · exact past i m kept

end

end Renews

/-! ### The store -/

theorem apply_now (w : Effect) (st : Store) : st.now ≤ (w.apply cfg st).now := by
  cases w with
  | tick => simp only [Effect.apply]; omega
  | _ => exact Int.le_refl _

theorem renews_revokedTokens (cfg : Config) (w : Effect)
    (past : ∀ id m, st.revokedTokens id = some m → m ≤ st.now) :
    Renews st.revokedTokens (w.apply cfg st).now (w.apply cfg st).revokedTokens := by
  cases w with
  | markRevoked id | applyRevoked id => exact .mark past id
  | tick => exact .refl past (apply_now _ st)
  | _ => exact .refl past (Int.le_refl _)

theorem renews_userInvalidations (cfg : Config) (w : Effect)
    (past : ∀ user m, st.userInvalidations user = some m → m ≤ st.now) :
    Renews st.userInvalidations (w.apply cfg st).now (w.apply cfg st).userInvalidations := by
  cases w with
  | invalidateUser user | applyInvalidated user => exact .mark past user
  | pruneInvalidations => exact .filter past
  | tick => exact .refl past (apply_now _ st)
  | _ => exact .refl past (Int.le_refl _)

theorem entry_of_apply {s : ℕ} {raw : Raw} {e : Entry}
    (found : (w.apply cfg st).cache s raw = some e) :
    st.cache s raw = some e ∨ ∃ result, w = .insert s raw e result := by
  cases w with
  | insert _ _ _ result =>
    simp only [Effect.apply, insertEntry] at found
    split_ifs at found with here mine
    · cases found
      exact .inr ⟨result, by rw [here, mine]⟩
    · exact .inl (filter_eq_some_iff.1 found).1
    · exact .inl found
  | invalidateUser | applyInvalidated => exact .inl (filter_eq_some_iff.1 found).1
  | flush =>
    simp only [Effect.apply] at found
    split_ifs at found
    exact .inl found
  | _ => exact .inl found

def Effect.logged : Effect → Option Result
  | .accept result | .insert _ _ _ result => some result
  | _ => Option.none

theorem mem_results {r : Result} :
    r ∈ (w.apply cfg st).results ↔ w.logged = some r ∨ r ∈ st.results := by
  cases w with
  | accept | insert =>
    simp only [Effect.apply, Effect.logged, mem_cons, some.injEq]
    exact or_congr_left eq_comm
  | _ => simp [Effect.apply, Effect.logged, invalidateUserTokenCacheEntries]

end ArtifactKeeper.ApiTokens
