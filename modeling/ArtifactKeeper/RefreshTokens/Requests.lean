import ArtifactKeeper.Library.Protocol
import ArtifactKeeper.Library.Machine

/-!
# Refresh tokens

Claims of refresh tokens, the rows of `refresh_token_jti` and the effects of committed transactions
on them.
-/

namespace ArtifactKeeper.RefreshTokens

open Machine Function

inductive TokenType
  | access | refresh | registryRefresh
  deriving DecidableEq

structure Claims where
  sub : ℕ
  tokenType : TokenType
  jti : Option ℕ
  familyId : Option ℕ
  exp : ℤ
  scopes : Option (List ℕ)
  allowedRepoIds : Option (List ℕ)
  deriving DecidableEq

structure Grant where
  sub : ℕ
  scopes : Option (List ℕ)
  allowedRepoIds : Option (List ℕ)
  deriving DecidableEq

variable (c : Claims)

def Claims.grant : Grant := ⟨c.sub, c.scopes, c.allowedRepoIds⟩

/-- The `jti` and the family, if the token has both. -/
def Claims.session : Option (ℕ × ℕ) :=
  c.jti.bind fun jti => c.familyId.map fun familyId => (jti, familyId)

structure Token where
  claims : Claims
  jti : ℕ
  familyId : ℕ
  named : claims.session = some (jti, familyId)

structure Row where
  userId : ℕ
  familyId : ℕ
  expiresAt : ℤ
  consumedAt : Option ℤ
  revokedAt : Option ℤ
  supersededBy : Option ℕ
  deriving DecidableEq

/-- A token that a call has returned: the token it was rotated from, and whether a revocation of the
family had returned before that call started. -/
structure Issue where
  token : Token
  parent : Option ℕ
  late : Bool

structure Config where
  jwtRefreshTokenExpiryDays : ℕ

structure Store where
  rows : ℕ → Option Row
  active : ℕ → Bool
  now : ℤ
  clock : ℕ → ℤ
  next : ℕ
  /-- Signed tokens from before the table. -/
  legacy : List Claims
  issued : List Issue
  revoked : List ℕ

/-! ### Tokens -/

variable (st : Store)

/-- A token that somebody can present. -/
def Store.Presentable (c : Claims) : Prop := c ∈ st.legacy ∨ ∃ i ∈ st.issued, i.token.claims = c

instance (st : Store) (c : Claims) : Decidable (st.Presentable c) := instDecidableOr

/-- `decode_token` accepts a signed token until its last second is over on the replica's clock. -/
def decodeToken (replica : ℕ) (c : Claims) : Bool :=
  st.clock replica / seconds 1 ≤ c.exp

variable (cfg : Config) (st : Store)

def generateTokens (replica familyId : ℕ) (grant : Grant) : Token where
  claims :=
    { sub := grant.sub
      tokenType := .refresh
      jti := some st.next
      familyId := some familyId
      exp := st.clock replica / seconds 1 + cfg.jwtRefreshTokenExpiryDays * 86400
      scopes := grant.scopes
      allowedRepoIds := grant.allowedRepoIds }
  jti := st.next
  familyId := familyId
  named := rfl

/-! ### Rows -/

def Token.row (t : Token) : Row := ⟨t.claims.sub, t.familyId, t.claims.exp, none, none, none⟩

variable (row : Row)

def Row.isRotatable : Bool := row.consumedAt.isNone && row.revokedAt.isNone

def benignGrace : ℤ := seconds 30

/-- A consumed row whose rotation chain has moved on. -/
def genuineReplay : Bool :=
  row.consumedAt.any (fun at_ => at_ < st.now - benignGrace) ||
    match row.supersededBy.bind st.rows with
    | none => true
    | some successor => successor.consumedAt.isSome || successor.revokedAt.isSome

def cleanupGrace : ℤ := seconds (24 * 3600)

/-- The statement of `cleanup_expired_refresh_token_jti` deletes this row. -/
def Row.isExpired (cutoff : ℤ) : Bool := seconds row.expiresAt < cutoff

/-- Which rows a revocation updates. -/
inductive Scope
  | family (id : ℕ)
  | user (id : ℕ)
  deriving DecidableEq

variable (scope : Scope)

def Scope.covers (row : Row) : Bool :=
  match scope with
  | .family id => row.familyId = id
  | .user id => row.userId = id

/-- The rows a statement sees, with those of a predicate. -/
def Store.select (p : Row → Bool) : List ℕ :=
  (List.range st.next).filter fun jti => (st.rows jti).any p

/-- The families a revocation concerns: the one it names, or those of the user at its start. -/
def Scope.families (st : Store) : List ℕ :=
  match scope with
  | .family id => [id]
  | .user _ => (st.select scope.covers).filterMap fun jti => (st.rows jti).map (·.familyId)

/-! ### Effects -/

inductive Effect
  | none
  | tick (elapsed : ℕ)
  | tickClock (replica elapsed : ℕ)
  | setActive (user : ℕ) (active : Bool)
  | draw
  | rotate (parent : ℕ) (at_ : ℤ) (successor : Token) (issue : Option Issue)
  | record (token : Token) (issue : Option Issue)
  | revoke (jtis : List ℕ) (returned : List ℕ)
  | prune (jti : ℕ)

variable (rows : ℕ → Option Row)

def insertRow (t : Token) : ℕ → Option Row :=
  fun jti => if jti = t.jti then (rows jti).or (some t.row) else rows jti

def consumeRow (parent : ℕ) (at_ : ℤ) (successor : ℕ) : ℕ → Option Row :=
  fun jti => if jti = parent then
    (rows jti).map fun row => { row with consumedAt := some at_, supersededBy := some successor }
  else rows jti

def revokeRows (jtis : List ℕ) (now : ℤ) : ℕ → Option Row :=
  fun jti => if jti ∈ jtis then (rows jti).map fun row => { row with revokedAt := some now }
    else rows jti

def Effect.apply : Effect → Store → Store
  | .none, st => st
  | .tick elapsed, st => { st with now := st.now + elapsed, clock := fun r => st.clock r + elapsed }
  | .tickClock replica elapsed, st =>
    { st with clock := update st.clock replica (st.clock replica + elapsed) }
  | .setActive user active, st => { st with active := update st.active user active }
  | .draw, st => { st with next := st.next + 1 }
  | .rotate parent at_ successor issue, st =>
    { st with rows := insertRow (consumeRow st.rows parent at_ successor.jti) successor
              issued := issue.toList ++ st.issued }
  | .record token issue, st =>
    { st with rows := insertRow st.rows token, issued := issue.toList ++ st.issued }
  | .revoke jtis returned, st =>
    { st with rows := revokeRows st.rows jtis st.now, revoked := returned ++ st.revoked }
  | .prune jti, st => { st with rows := update st.rows jti Option.none }

open Effect (apply)

/-! ### Refreshes, revocations and the janitor -/

/-- A call of `refresh_tokens` with a token that has a `jti`; `late` if a revocation of the family
had returned before. -/
structure Call where
  replica : ℕ
  token : Token
  late : Bool

/-- Where a call stands that has not consumed its row. -/
inductive Stage
  | decoded
  | begun (at_ : ℤ)
  | lost
  | missing
  deriving DecidableEq

/-- How far the transaction of a rotation has come. -/
inductive Rotation
  | consumed
  | minted (successor : Token)
  | inserted (successor : Token)
  | linked (successor : Token)

def Rotation.successor : Rotation → Option Token
  | .consumed => none
  | .minted successor | .inserted successor | .linked successor => some successor

inductive Request
  | idle
  | calling (c : Call) (stage : Stage)
  | rotating (c : Call) (at_ : ℤ) (rotation : Rotation)
  /-- A call with a token without `jti`. -/
  | legacy (replica : ℕ) (claims : Claims)
  /-- A token is minted and its row is about to be inserted. -/
  | recording (token : Token) (parent : Option ℕ) (late : Bool)
  | replayed (familyId : ℕ)
  /-- The update concerns the families; `todo` is left of its snapshot and `done` is locked. -/
  | revoking (families todo done : List ℕ)
  | cleaning (cutoff : ℤ)
  | finished

def Request.holds : Request → List ℕ
  | .rotating c _ rotation => c.token.jti :: (match rotation with
      | .inserted successor | .linked successor => [successor.jti]
      | _ => [])
  | .revoking _ _ done => done
  | _ => []

inductive Action
  | tick (elapsed : ℕ)
  | tickClock (replica elapsed : ℕ)
  | setActive (user : ℕ) (active : Bool)
  | drop
  | login (replica : ℕ) (grant : Grant)
  | refresh (replica : ℕ) (claims : Claims)
  | begin
  | consume
  | mint
  | insert
  | link
  | commit (acknowledged : Bool)
  | record (acknowledged : Bool)
  | classify
  | revoke (scope : Scope)
  | revokeReplay
  | revokeNext
  | finishRevoke (acknowledged : Bool)
  | clean (replica : ℕ)
  | prune (jti : ℕ)

abbrev Statement := Outcome Request ℕ Effect

def proceed (next : Request) : Statement := ⟨[], .none, next⟩

/-- A call that returns a token logs it; the caller of another one sees an error. -/
def issue (acknowledged : Bool) (i : Issue) : Option Issue := if acknowledged then some i else none

/-- The entry of `refresh_tokens`: signature, expiry and type. -/
def refreshTokens (replica : ℕ) (claims : Claims) : Option Statement :=
  if st.Presentable claims ∧ decodeToken st replica claims ∧ claims.tokenType = .refresh then
    match named : claims.session with
    | some (jti, familyId) =>
      some (proceed (.calling ⟨replica, ⟨claims, jti, familyId, named⟩, familyId ∈ st.revoked⟩
        .decoded))
    | none => some (proceed (.legacy replica claims))
  else none

/-- The conditional update; the row it consumes is locked. -/
def consume (c : Call) (at_ : ℤ) : Statement :=
  if (st.rows c.token.jti).any Row.isRotatable then proceed (.rotating c at_ .consumed)
  else proceed (.calling c .lost)

/-- `load_active_user`, then the mint of a token with the grant of the presented one. -/
def mintToken (replica familyId : ℕ) (claims : Claims) (next : Token → Request) :
    Option Statement :=
  if st.active claims.sub then
    some ⟨[], .draw, next (generateTokens cfg st replica familyId claims.grant)⟩
  else none

def classify (c : Call) : Request :=
  match st.rows c.token.jti with
  | none => .calling c .missing
  | some row =>
    if row.revokedAt.isSome then .finished
    else if row.consumedAt.isSome && genuineReplay st row then .replayed row.familyId
    else .finished

def revoke : Statement :=
  proceed (.revoking (scope.families st)
    (st.select fun row => scope.covers row && row.revokedAt.isNone) [])

/-- Lock the next row of the snapshot, if it is still there and not revoked. -/
def revokeNext (families todo done : List ℕ) : Option Statement :=
  match todo with
  | [] => none
  | jti :: todo =>
    if (st.rows jti).any (·.revokedAt.isNone) then
      some (proceed (.revoking families todo (jti :: done)))
    else some (proceed (.revoking families todo done))

/-- The families whose tokens somebody can have. -/
def Store.isKnown (familyId : ℕ) : Bool :=
  st.issued.any (fun i => i.token.familyId = familyId) ||
    st.legacy.any fun c => c.familyId = some familyId

/-- Logouts name the family of a token, other revocations a user. -/
def startRevoke : Scope → Option Statement
  | .family id => if st.isKnown id then some (revoke st (.family id)) else none
  | .user id => some (revoke st (.user id))

def prune (cutoff : ℤ) (jti : ℕ) : Option Statement :=
  if (st.rows jti).any (·.isExpired cutoff) then some ⟨[jti], .prune jti, .cleaning cutoff⟩
  else none

def code (q : Request) (a : Action) : Option Statement :=
  match a, q with
  | .tick elapsed, q => some ⟨[], .tick elapsed, q⟩
  | .tickClock replica elapsed, q => some ⟨[], .tickClock replica elapsed, q⟩
  | .setActive user active, q => some ⟨[], .setActive user active, q⟩
  | .drop, _ => some (proceed .finished)
  | .login replica grant, .idle =>
    if st.active grant.sub then
      some ⟨[], .draw, .recording (generateTokens cfg st replica st.next grant) none false⟩
    else none
  | .refresh replica claims, .idle => refreshTokens st replica claims
  | .begin, .calling c .decoded => some (proceed (.calling c (.begun st.now)))
  | .consume, .calling c (.begun at_) => some (consume st c at_)
  | .mint, .rotating c at_ .consumed =>
    mintToken cfg st c.replica c.token.familyId c.token.claims fun t => .rotating c at_ (.minted t)
  | .insert, .rotating c at_ (.minted successor) =>
    some (proceed (.rotating c at_ (.inserted successor)))
  | .link, .rotating c at_ (.inserted successor) =>
    some (proceed (.rotating c at_ (.linked successor)))
  | .commit acknowledged, .rotating c at_ (.linked successor) =>
    some ⟨[], .rotate c.token.jti at_ successor
      (issue acknowledged ⟨successor, some c.token.jti, c.late⟩), .finished⟩
  | .classify, .calling c .lost => some (proceed (classify st c))
  | .mint, .calling c .missing =>
    mintToken cfg st c.replica c.token.familyId c.token.claims fun t =>
      .recording t (some c.token.jti) c.late
  | .mint, .legacy replica claims =>
    mintToken cfg st replica st.next claims fun t => .recording t none false
  | .record acknowledged, .recording token parent late =>
    some ⟨[], .record token (issue acknowledged ⟨token, parent, late⟩), .finished⟩
  | .revoke scope, .idle => startRevoke st scope
  | .revokeReplay, .replayed familyId => some (revoke st (.family familyId))
  | .revokeNext, .revoking families todo done => revokeNext st families todo done
  | .finishRevoke acknowledged, .revoking families [] done =>
    some ⟨[], .revoke done (if acknowledged then families else []), .finished⟩
  | .clean replica, .idle => some (proceed (.cleaning (st.clock replica - cleanupGrace)))
  | .prune jti, .cleaning cutoff => prune st cutoff jti
  | _, _ => none

def service : Protocol Store Request ℕ Action Effect where
  holds := Request.holds
  apply := apply
  code := code cfg

/-! ### What a step of the refresh flow can do -/

open StepSystem Option

variable {cfg} {st} {q : Request} {a : Action} {o : Statement} {w : Effect}

variable (cfg : Config) (st : Store) in
inductive Does : Request → Action → Effect → Request → Prop
  | stop (q : Request) (a : Action) : Does q a .none .finished
  | tick (q : Request) (elapsed : ℕ) : Does q (.tick elapsed) (.tick elapsed) q
  | tickClock (q : Request) (replica elapsed : ℕ) :
    Does q (.tickClock replica elapsed) (.tickClock replica elapsed) q
  | setActive (q : Request) (user : ℕ) (active : Bool) :
    Does q (.setActive user active) (.setActive user active) q
  | login (replica : ℕ) (grant : Grant) : Does .idle (.login replica grant) .draw
      (.recording (generateTokens cfg st replica st.next grant) none false)
  | present (replica : ℕ) (token : Token) (known : st.Presentable token.claims)
      (accepted : decodeToken st replica token.claims) :
    Does .idle (.refresh replica token.claims) .none
      (.calling ⟨replica, token, token.familyId ∈ st.revoked⟩ .decoded)
  | presentLegacy (replica : ℕ) (claims : Claims) (known : st.Presentable claims)
      (unnamed : claims.session = none) :
    Does .idle (.refresh replica claims) .none (.legacy replica claims)
  | begin (c : Call) : Does (.calling c .decoded) .begin .none (.calling c (.begun st.now))
  | win (c : Call) (at_ : ℤ) (row : Row) (found : st.rows c.token.jti = some row)
      (unconsumed : row.consumedAt = none) (unrevoked : row.revokedAt = none) :
    Does (.calling c (.begun at_)) .consume .none (.rotating c at_ .consumed)
  | lose (c : Call) (at_ : ℤ) : Does (.calling c (.begun at_)) .consume .none (.calling c .lost)
  | mint (c : Call) (at_ : ℤ) : Does (.rotating c at_ .consumed) .mint .draw
      (.rotating c at_
        (.minted (generateTokens cfg st c.replica c.token.familyId c.token.claims.grant)))
  | insert (c : Call) (at_ : ℤ) (successor : Token) :
    Does (.rotating c at_ (.minted successor)) .insert .none
      (.rotating c at_ (.inserted successor))
  | link (c : Call) (at_ : ℤ) (successor : Token) :
    Does (.rotating c at_ (.inserted successor)) .link .none
      (.rotating c at_ (.linked successor))
  | commit (c : Call) (at_ : ℤ) (successor : Token) (acknowledged : Bool) :
    Does (.rotating c at_ (.linked successor)) (.commit acknowledged)
      (.rotate c.token.jti at_ successor (issue acknowledged ⟨successor, some c.token.jti, c.late⟩))
      .finished
  | missing (c : Call) (gone : st.rows c.token.jti = none) :
    Does (.calling c .lost) .classify .none (.calling c .missing)
  | replay (c : Call) (row : Row) (found : st.rows c.token.jti = some row) :
    Does (.calling c .lost) .classify .none (.replayed row.familyId)
  | remint (c : Call) : Does (.calling c .missing) .mint .draw
      (.recording (generateTokens cfg st c.replica c.token.familyId c.token.claims.grant)
        (some c.token.jti) c.late)
  | mintLegacy (replica : ℕ) (claims : Claims) : Does (.legacy replica claims) .mint .draw
      (.recording (generateTokens cfg st replica st.next claims.grant) none false)
  | record (token : Token) (parent : Option ℕ) (late acknowledged : Bool) :
    Does (.recording token parent late) (.record acknowledged)
      (.record token (issue acknowledged ⟨token, parent, late⟩)) .finished
  | revoke (scope : Scope) (known : ∀ id, scope = .family id → st.isKnown id) :
    Does .idle (.revoke scope) .none (revoke st scope).next
  | revokeReplay (familyId : ℕ) :
    Does (.replayed familyId) .revokeReplay .none (revoke st (.family familyId)).next
  | lockNext (families todo done : List ℕ) (jti : ℕ) :
    Does (.revoking families (jti :: todo) done) .revokeNext .none
      (.revoking families todo (jti :: done))
  | skipNext (families todo done : List ℕ) (jti : ℕ)
      (settled : ∀ row, st.rows jti = some row → row.revokedAt.isSome) :
    Does (.revoking families (jti :: todo) done) .revokeNext .none
      (.revoking families todo done)
  | finishRevoke (families done : List ℕ) (acknowledged : Bool) :
    Does (.revoking families [] done) (.finishRevoke acknowledged)
      (.revoke done (if acknowledged then families else [])) .finished
  | clean (replica : ℕ) :
    Does .idle (.clean replica) .none (.cleaning (st.clock replica - cleanupGrace))
  | prune (cutoff : ℤ) (jti : ℕ) (row : Row) (found : st.rows jti = some row) :
    Does (.cleaning cutoff) (.prune jti) (.prune jti) (.cleaning cutoff)

theorem refreshTokens_does {replica : ℕ} {claims : Claims}
    (h : refreshTokens st replica claims = some o) :
    Does cfg st .idle (.refresh replica claims) o.effect o.next := by
  unfold refreshTokens at h
  split_ifs at h with accepted
  split at h
  · next jti familyId named =>
    cases h
    exact .present replica ⟨claims, jti, familyId, named⟩ accepted.1 accepted.2.1
  · next unnamed =>
    cases h
    exact .presentLegacy replica claims accepted.1 unnamed

theorem consume_does (c : Call) (at_ : ℤ) :
    Does cfg st (.calling c (.begun at_)) .consume (consume st c at_).effect
      (consume st c at_).next := by
  unfold consume
  split_ifs with rotatable
  · obtain ⟨row, found, fits⟩ := (any_eq_true _ _).1 rotatable
    simp only [Row.isRotatable, Bool.and_eq_true, isNone_iff_eq_none] at fits
    exact .win c at_ row found fits.1 fits.2
  · exact .lose c at_

theorem classify_does (c : Call) :
    Does cfg st (.calling c .lost) .classify .none (classify st c) := by
  unfold classify
  split
  · next gone => exact .missing c gone
  · next row found =>
    split_ifs
    · exact .stop _ _
    · exact .replay c row found
    · exact .stop _ _

theorem revokeNext_does {families todo done : List ℕ}
    (h : revokeNext st families todo done = some o) :
    Does cfg st (.revoking families todo done) .revokeNext o.effect o.next := by
  unfold revokeNext at h
  split at h
  · cases h
  · next jti todo =>
    split_ifs at h with live <;> cases h
    · exact .lockNext families todo done jti
    · refine .skipNext families todo done jti fun row found => ?_
      rw [found] at live
      cases settled : row.revokedAt with
      | some _ => rfl
      | none => exact absurd (by simp [settled]) live

theorem startRevoke_does {scope : Scope} (h : startRevoke st scope = some o) :
    Does cfg st .idle (.revoke scope) o.effect o.next := by
  cases scope with
  | family id =>
    simp only [startRevoke] at h
    split_ifs at h with known
    cases h
    refine .revoke (.family id) fun id' same => ?_
    cases same
    exact known
  | user id =>
    cases h
    exact .revoke (.user id) nofun

theorem mintToken_eq_some {replica familyId : ℕ} {claims : Claims} {next : Token → Request}
    (h : mintToken cfg st replica familyId claims next = some o) :
    o = ⟨[], .draw, next (generateTokens cfg st replica familyId claims.grant)⟩ := by
  unfold mintToken at h
  split_ifs at h
  exact (some.inj h).symm

variable {jti : ℕ} {t : Token}

theorem prune_does {cutoff : ℤ} (h : prune st cutoff jti = some o) :
    Does cfg st (.cleaning cutoff) (.prune jti) o.effect o.next := by
  unfold prune at h
  split_ifs at h with expired
  cases h
  obtain ⟨row, found, -⟩ := (any_eq_true _ _).1 expired
  exact .prune cutoff jti row found

theorem code_does (h : code cfg st q a = some o) : Does cfg st q a o.effect o.next := by
  revert h
  fun_cases code cfg st q a <;> intro h
  · cases h; exact .tick q _
  · cases h; exact .tickClock q _ _
  · cases h; exact .setActive q _ _
  · cases h; exact .stop _ _
  · cases h; exact .login _ _
  · cases h
  · exact refreshTokens_does h
  · cases h; exact .begin _
  · cases h; exact consume_does _ _
  · rw [mintToken_eq_some h]; exact .mint _ _
  · cases h; exact .insert _ _ _
  · cases h; exact .link _ _ _
  · cases h; exact .commit _ _ _ _
  · cases h; exact classify_does _
  · rw [mintToken_eq_some h]; exact .remint _
  · rw [mintToken_eq_some h]; exact .mintLegacy _ _
  · cases h; exact .record _ _ _ _
  · exact startRevoke_does h
  · cases h; exact .revokeReplay _
  · exact revokeNext_does h
  · cases h; exact .finishRevoke _ _ _
  · cases h; exact .clean _
  · exact prune_does h
  · cases h

/-! ### Rows -/

def Effect.inserted : Effect → Option Token
  | .rotate _ _ successor _ => some successor
  | .record token _ => some token
  | _ => Option.none

/-- How a row can change: it may be revoked, or consumed by the rotation of its token. -/
structure Evolves (w : Effect) (jti : ℕ) (row row' : Row) : Prop where
  userId : row'.userId = row.userId
  familyId : row'.familyId = row.familyId
  expiresAt : row'.expiresAt = row.expiresAt
  revoked : row'.revokedAt = row.revokedAt ∨
    row'.revokedAt.isSome ∧ ∃ jtis returned, w = .revoke jtis returned ∧ jti ∈ jtis
  consumed : row'.consumedAt = row.consumedAt ∨
    row'.consumedAt.isSome ∧ ∃ at_ successor issue, w = .rotate jti at_ successor issue

theorem Evolves.refl (w : Effect) (jti : ℕ) (row : Row) : Evolves w jti row row :=
  ⟨rfl, rfl, rfl, .inl rfl, .inl rfl⟩

variable {row row' : Row}

theorem Evolves.stays_revoked (h : Evolves w jti row row') (before : row.revokedAt.isSome) :
    row'.revokedAt.isSome := by
  rcases h.revoked with same | ⟨after, _⟩
  · rw [same]
    exact before
  · exact after

theorem apply_row (found : st.rows jti = some row) (kept : w ≠ .prune jti) :
    ∃ row', (w.apply st).rows jti = some row' ∧ Evolves w jti row row' := by
  cases w with
  | rotate parent at_ successor issue =>
    by_cases same : jti = parent
    · subst same
      refine ⟨{ row with consumedAt := some at_, supersededBy := some successor.jti }, ?_, rfl, rfl,
        rfl, .inl rfl, .inr ⟨rfl, at_, successor, issue, rfl⟩⟩
      simp [apply, insertRow, consumeRow, found]
    · refine ⟨row, ?_, .refl _ _ _⟩
      simp [apply, insertRow, consumeRow, same, found]
  | record =>
    refine ⟨row, ?_, .refl _ _ _⟩
    simp [apply, insertRow, found]
  | revoke jtis returned =>
    by_cases mem : jti ∈ jtis
    · refine ⟨{ row with revokedAt := some st.now }, ?_, rfl, rfl, rfl,
        .inr ⟨rfl, jtis, returned, rfl, mem⟩, .inl rfl⟩
      simp [apply, revokeRows, mem, found]
    · refine ⟨row, ?_, .refl _ _ _⟩
      simp [apply, revokeRows, mem, found]
  | prune jti' =>
    have other : jti ≠ jti' := fun same => kept (same ▸ rfl)
    refine ⟨row, ?_, .refl _ _ _⟩
    simp [apply, other, found]
  | _ => exact ⟨row, found, .refl _ _ _⟩

theorem row_of_apply (found : (w.apply st).rows jti = some row') :
    (∃ row, st.rows jti = some row ∧ Evolves w jti row row') ∨
      ∃ t, w.inserted = some t ∧ t.jti = jti ∧ row' = t.row := by
  cases before : st.rows jti with
  | some row =>
    by_cases gone : w = .prune jti
    · subst gone
      simp [apply] at found
    · obtain ⟨_, after, evolves⟩ := apply_row before gone
      cases found.symm.trans after
      exact .inl ⟨row, rfl, evolves⟩
  | none =>
    refine .inr ?_
    cases w with
    | rotate _ _ successor =>
      by_cases same : jti = successor.jti
      · refine ⟨successor, rfl, same.symm, ?_⟩
        simp only [apply, insertRow, consumeRow, before, map_none, ite_self,
          if_pos same, none_or, some.injEq] at found
        exact found.symm
      · simp [apply, insertRow, consumeRow, before, same] at found
    | record token =>
      by_cases same : jti = token.jti
      · refine ⟨token, rfl, same.symm, ?_⟩
        simp only [apply, insertRow, before, if_pos same, none_or, some.injEq] at found
        exact found.symm
      · simp [apply, insertRow, before, same] at found
    | revoke => simp [apply, revokeRows, before] at found
    | prune jti' =>
      by_cases same : jti = jti'
      · simp [apply, same] at found
      · simp [apply, same, before] at found
    | _ => cases before.symm.trans found

/-! ### Tokens and their rows -/

theorem Token.same_session {t' : Token} (same : t.claims = t'.claims) :
    t.jti = t'.jti ∧ t.familyId = t'.familyId := by
  have named := t.named
  rw [same, t'.named, some.injEq, Prod.mk.injEq] at named
  exact ⟨named.1.symm, named.2.symm⟩

structure Fits (t : Token) (row : Row) : Prop where
  familyId : row.familyId = t.familyId
  userId : row.userId = t.claims.sub
  expiresAt : row.expiresAt = t.claims.exp

def Has (st : Store) (t : Token) : Prop := ∃ row, st.rows t.jti = some row ∧ Fits t row

theorem Fits.evolve (fits : Fits t row) (evolves : Evolves w jti row row') : Fits t row' :=
  ⟨evolves.familyId.trans fits.familyId, evolves.userId.trans fits.userId,
    evolves.expiresAt.trans fits.expiresAt⟩

theorem Has.apply (has : Has st t) (kept : w ≠ .prune t.jti) : Has (w.apply st) t := by
  obtain ⟨_, found, fits⟩ := has
  obtain ⟨row', after, evolves⟩ := apply_row found kept
  exact ⟨row', after, fits.evolve evolves⟩

theorem has_inserted (inserted : w.inserted = some t) (free : st.rows t.jti = none) :
    Has (w.apply st) t := by
  refine ⟨t.row, ?_, rfl, rfl, rfl⟩
  cases w with
  | rotate =>
    cases inserted
    simp [apply, insertRow, consumeRow, free]
  | record =>
    cases inserted
    simp [apply, insertRow, free]
  | _ => cases inserted

theorem free_apply (free : st.rows t.jti = none)
    (fresh : ∀ t', w.inserted = some t' → t'.jti ≠ t.jti) : (w.apply st).rows t.jti = none := by
  cases found : (w.apply st).rows t.jti with
  | none => rfl
  | some _ =>
    rcases row_of_apply found with ⟨_, before, _⟩ | ⟨t', inserted, same, _⟩
    · rw [free] at before
      cases before
    · exact absurd same (fresh t' inserted)

/-! ### Fresh identifiers -/

def Request.minted : Request → Option Token
  | .rotating _ _ rotation => rotation.successor
  | .recording token _ _ => some token
  | _ => none

def Request.tickets (q : Request) : List ℕ := q.minted.toList.map Token.jti

theorem apply_next (w : Effect) (st : Store) : st.next ≤ (w.apply st).next := by
  cases w with
  | draw => exact Nat.le_succ _
  | _ => exact Nat.le_refl _

theorem draws : (service cfg).Draws Store.next Request.tickets where
  grows st _ _ o _ := apply_next o.effect st
  drawn st q a o coded t mem := by
    have does := code_does coded
    revert mem
    generalize o.effect = effect at does ⊢
    generalize o.next = next at does ⊢
    cases does with
    | tick | tickClock | setActive | insert | link => exact fun mem => .inl mem
    | login | mint | remint | mintLegacy =>
      intro mem
      refine .inr ⟨List.mem_singleton.1 mem, ?_⟩
      rw [List.mem_singleton.1 mem]
      exact Nat.lt_succ_self _
    | _ => exact fun mem => nomatch mem

theorem Does.inserts {effect : Effect} {next : Request} (does : Does cfg st q a effect next)
    (inserted : effect.inserted = some t) : q.minted = some t ∧
      ((∃ c at_ acknowledged, q = .rotating c at_ (.linked t) ∧ a = .commit acknowledged) ∨
        ∃ parent late, q = .recording t parent late) := by
  cases does with
  | commit c at_ _ acknowledged =>
    cases inserted
    exact ⟨rfl, .inl ⟨c, at_, acknowledged, rfl, rfl⟩⟩
  | record _ parent late =>
    cases inserted
    exact ⟨rfl, .inr ⟨parent, late, rfl⟩⟩
  | _ => cases inserted

/-- The janitor waits for the row it deletes. -/
theorem prune_touches (h : code cfg st q a = some o) (pruned : o.effect = .prune jti) :
    jti ∈ o.touches := by
  obtain ⟨_, effect, _⟩ := o
  obtain rfl : effect = .prune jti := pruned
  cases code_does h with
  | prune =>
    simp only [code, prune] at h
    split_ifs at h
    cases h
    exact .head _

theorem Does.revokes {jtis returned : List ℕ} {next : Request}
    (does : Does cfg st q a (.revoke jtis returned) next) : q.holds = jtis := by
  cases does with
  | finishRevoke => rfl

def Idle (w : World Store Request ℕ) : Prop := w.pool = .idle .idle

section

variable {init : World Store Request ℕ → Prop} {ok : World Store Request ℕ → ℕ × Action → Prop}
  {w : World Store Request ℕ}

theorem below (starts : ∀ w, init w → Idle w) (h : Reach (service cfg).step init ok w) :
    Protocol.Below Store.next Request.tickets w := by
  refine draws.below (fun w initial i => ?_) h
  rw [starts w initial]
  nofun

theorem apart (starts : ∀ w, init w → Idle w) (h : Reach (service cfg).step init ok w) :
    Protocol.Pairs (Protocol.Disjoint Request.tickets) w := by
  refine draws.apart (fun w initial i => ?_) (fun w initial i j _ => ?_) h
  · rw [starts w initial]
    nofun
  · rw [starts w initial]
    nofun

theorem Does.inserted_apart {i j : ℕ} {effect : Effect} {next : Request} {t t' : Token}
    (does : Does cfg w.store (w.pool.proc i) a effect next)
    (apart : Protocol.Pairs (Protocol.Disjoint Request.tickets) w) (other : j ≠ i)
    (inserted : effect.inserted = some t) (minted : (w.pool.proc j).minted = some t') :
    t.jti ≠ t'.jti := by
  intro same
  refine apart i j (Ne.symm other) t.jti ?_ ?_
  · simp [Request.tickets, (does.inserts inserted).1]
  · simp [Request.tickets, minted, same]

end

end ArtifactKeeper.RefreshTokens
