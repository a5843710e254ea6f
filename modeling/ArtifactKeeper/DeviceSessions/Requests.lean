import ArtifactKeeper.Library.Protocol
import ArtifactKeeper.Library.Rows
import ArtifactKeeper.Library.Text

/-!
# Device authorizations

The rows of `device_sessions` and the statements that change them.  A statement is an update of all
rows that satisfy its condition, at the time of the database; only digests of the two codes are
stored.
-/

namespace ArtifactKeeper.DeviceSessions

open Rows List

inductive Status
  | pending
  | approved
  | denied
  | consumed
  deriving DecidableEq

structure DeviceSession where
  id : ℕ
  deviceCodeHash : Text
  userCodeHash : Text
  clientId : Text
  requestedScopes : List Text
  status : Status
  decidedByUserId : Option ℕ
  grantedScopes : Option (List Text)
  approverIat : Option ℤ
  intervalSecs : ℤ
  expiresAt : ℤ
  lastPolledAt : Option ℤ
  pollCount : ℕ
  decidedAt : Option ℤ
  consumedAt : Option ℤ
  deriving DecidableEq

def slowDownIncrementSecs : ℤ := 5

def maxIntervalSecs : ℤ := 60

def maxLiveSessions : ℕ := 10000

def secs (n : ℤ) : ℤ := n * 1000000

/-! ### Conditions of the statements -/

namespace DeviceSession

variable (s : DeviceSession) (now : ℤ)

/-- Pending and unexpired. -/
def isOpen : Bool := s.status = .pending && s.expiresAt > now

/-- The row of a device code and a client. -/
def belongs (hash clientId : Text) : Bool := s.deviceCodeHash = hash && s.clientId = clientId

/-- A poll may claim its window, with one second of grace. -/
def claimable (hash clientId : Text) (now : ℤ) : Bool :=
  s.belongs hash clientId && (s.status = .pending || s.status = .approved) && s.expiresAt > now &&
    s.lastPolledAt.all fun at_ => at_ + secs (s.intervalSecs - 1) ≤ now

def redeemable (hash clientId : Text) (now : ℤ) : Bool :=
  s.belongs hash clientId && s.status = .approved && s.expiresAt > now

/-! ### What they set -/

def approve (userId : ℕ) (scopes : List Text) (approverIat now : ℤ) : DeviceSession :=
  { s with status := .approved, decidedByUserId := some userId, decidedAt := some now,
           grantedScopes := some scopes, approverIat := some approverIat }

def deny (userId : ℕ) (now : ℤ) : DeviceSession :=
  { s with status := .denied, decidedByUserId := some userId, decidedAt := some now }

def claim : DeviceSession :=
  { s with lastPolledAt := some now, pollCount := s.pollCount + 1 }

def consume : DeviceSession := { s with status := .consumed, consumedAt := some now }

def slowDown : DeviceSession :=
  { s with intervalSecs := min (s.intervalSecs + slowDownIncrementSecs) maxIntervalSecs
           lastPolledAt := some now }

end DeviceSession

def liveCount (now : ℤ) (rows : List DeviceSession) : ℕ :=
  (rows.map DeviceSession.expiresAt).countP fun expiresAt => expiresAt > now

/-! ### The store -/

structure Created where
  id : ℕ
  deviceCode : Text
  clientId : Text
  expiresAt : ℤ
  deriving DecidableEq

/-- An approve call that returned true. -/
structure Approval where
  id : ℕ
  userId : ℕ
  scopes : List Text
  deriving DecidableEq

/-- A poll that claimed its window, which is answered with pending or goes on to redeem: the time of
the claim and the interval that was then in force. -/
structure Polled where
  id : ℕ
  deviceCode : Text
  claimed : ℤ
  interval : ℤ
  deriving DecidableEq

/-- A poll that returned a session, its claim and the time at which it consumed the session. -/
structure Redemption where
  deviceCode : Text
  clientId : Text
  claim : Polled
  session : DeviceSession
  consumed : ℤ
  deriving DecidableEq

structure Store where
  rows : List DeviceSession
  now : ℤ
  nextId : ℕ
  created : List Created
  approvals : List Approval
  polls : List Polled
  redemptions : List Redemption

inductive Effect
  | none
  | tick (elapsed : ℕ)
  | insert (s : DeviceSession) (deviceCode : Text)
  | approve (a : Approval) (approverIat : ℤ)
  | deny (userCodeHash : Text) (userId : ℕ)
  | claim (hash clientId : Text) (c : Polled)
  | consume (hash clientId : Text) (r : Redemption)
  | slowDown (id : ℕ)
  | cleanup

def Effect.apply : Effect → Store → Store
  | .none, st => st
  | .tick elapsed, st => { st with now := st.now + elapsed }
  | .insert s deviceCode, st =>
    { st with rows := s :: st.rows
              nextId := st.nextId + 1
              created := ⟨s.id, deviceCode, s.clientId, s.expiresAt⟩ :: st.created }
  | .approve a approverIat, st =>
    { st with rows := updateWhere (fun s => s.id = a.id && s.isOpen st.now)
                (·.approve a.userId a.scopes approverIat st.now) st.rows
              approvals := a :: st.approvals }
  | .deny userCodeHash userId, st =>
    { st with rows := updateWhere (fun s => s.userCodeHash = userCodeHash && s.isOpen st.now)
                (·.deny userId st.now) st.rows }
  | .claim hash clientId c, st =>
    { st with rows := updateWhere (·.claimable hash clientId st.now) (·.claim st.now) st.rows
              polls := c :: st.polls }
  | .consume hash clientId r, st =>
    { st with rows := updateWhere (·.redeemable hash clientId st.now) (·.consume st.now) st.rows
              redemptions := r :: st.redemptions }
  | .slowDown id, st =>
    { st with rows := updateWhere (·.id = id) (·.slowDown st.now) st.rows }
  | .cleanup, st => { st with rows := st.rows.filter fun s => !(s.expiresAt < st.now) }

/-! ### Calls of the device service -/

structure NewSession where
  clientId : Text
  scopes : List Text
  ttlSecs : ℕ
  intervalSecs : ℤ
  bounds : 1 ≤ intervalSecs ∧ intervalSecs ≤ 60
  deriving DecidableEq

structure Poll where
  deviceCode : Text
  clientId : Text
  deriving DecidableEq

inductive PollOutcome
  | invalid
  | replayed (s : DeviceSession)
  | expired
  | denied
  | slowDown (intervalSecs : ℤ)
  | pending
  | redeemed (s : DeviceSession)
  deriving DecidableEq

inductive Request
  | idle
  /-- The transaction has begun and waits for the lock. -/
  | creating (n : NewSession) (begun : ℤ)
  | locked (n : NewSession) (begun : ℤ)
  /-- The count at this time was below the limit, and so many draws are left. -/
  | counted (n : NewSession) (begun at_ : ℤ) (tries : ℕ)
  /-- The claim returned an approved row. -/
  | claimed (p : Poll) (c : Polled)
  | unclaimed (p : Poll)
  | early (id : ℕ)
  | answered (outcome : PollOutcome)
  | finished
  deriving DecidableEq

inductive Action
  | tick (elapsed : ℕ)
  | drop
  | createSession (n : NewSession)
  | lock
  | count (at_ : ℤ)
  | insert (deviceCode userCode : Text) (at_ : ℤ)
  | approve (id userId : ℕ) (scopes : List Text) (approverIat : ℤ)
  | deny (userCode : Text) (userId : ℕ)
  | poll (p : Poll)
  | consume
  | classify
  | slowDown
  | cleanupExpired
  deriving DecidableEq

abbrev Statement := Outcome Request Unit Effect

def proceed (next : Request) : Statement := ⟨[], .none, next⟩

variable (digest : Text → Text) (st : Store)

def liveCountBelowCap (at_ : ℤ) : Bool := liveCount at_ st.rows < maxLiveSessions

/-- The insert: a conflict on a code is tried again, and the checks of the table may refuse it. -/
def insertSession (n : NewSession) (begun counted : ℤ) (tries : ℕ) (deviceCode userCode : Text)
    (at_ : ℤ) : Statement :=
  let hash := digest deviceCode
  let userHash := digest userCode
  if st.rows.any fun s => s.deviceCodeHash = hash || s.userCodeHash = userHash then
    match tries with
    | tries + 1 => proceed (.counted n begun counted tries)
    | 0 => proceed .finished
  else if 1 ≤ n.clientId.length ∧ n.clientId.length ≤ 128 then
    ⟨[], .insert ⟨st.nextId, hash, userHash, n.clientId, n.scopes, .pending, none, none, none,
      n.intervalSecs, at_ + secs n.ttlSecs, none, 0, none, none⟩ deviceCode, .finished⟩
  else proceed .finished

def claim (p : Poll) : Statement :=
  let hash := digest p.deviceCode
  match st.rows.find? (·.claimable hash p.clientId st.now) with
  | some s =>
    let c : Polled := ⟨s.id, p.deviceCode, st.now, s.intervalSecs⟩
    match s.status with
    | .pending => ⟨[], .claim hash p.clientId c, .answered .pending⟩
    | _ => ⟨[], .claim hash p.clientId c, .claimed p c⟩
  | none => proceed (.unclaimed p)

/-- The second update of a poll, after a claim of an approved row. -/
def consume (p : Poll) (c : Polled) : Statement :=
  let hash := digest p.deviceCode
  match st.rows.find? (·.redeemable hash p.clientId st.now) with
  | some s =>
    ⟨[], .consume hash p.clientId ⟨p.deviceCode, p.clientId, c, s.consume st.now, st.now⟩,
      .answered (.redeemed (s.consume st.now))⟩
  | none => proceed (.unclaimed p)

/-- Why a claim failed. -/
def classify (p : Poll) : Statement :=
  match st.rows.find? (·.belongs (digest p.deviceCode) p.clientId) with
  | none => proceed (.answered .invalid)
  | some s =>
    if s.status = .consumed then proceed (.answered (.replayed s))
    else if s.expiresAt ≤ st.now then proceed (.answered .expired)
    else if s.status = .denied then proceed (.answered .denied)
    else proceed (.early s.id)

/-- A poll that came too early raises the interval; a row that is gone is an error. -/
def slowDown (id : ℕ) : Statement :=
  match st.rows.find? (·.id = id) with
  | none => proceed .finished
  | some s => ⟨[], .slowDown id, .answered (.slowDown (s.slowDown st.now).intervalSecs)⟩

def code (q : Request) (a : Action) : Option Statement :=
  match a, q with
  | .tick elapsed, q => some ⟨[], .tick elapsed, q⟩
  | .drop, _ => some (proceed .finished)
  | .createSession n, .idle => some (proceed (.creating n st.now))
  | .lock, .creating n begun => some (proceed (.locked n begun))
  | .count at_, .locked n begun =>
    if begun ≤ at_ ∧ at_ ≤ st.now then
      if liveCountBelowCap st at_ then some (proceed (.counted n begun at_ 4))
      else some (proceed .finished)
    else none
  | .insert deviceCode userCode at_, .counted n begun counted tries =>
    if begun ≤ at_ ∧ at_ ≤ st.now then
      some (insertSession digest st n begun counted tries deviceCode userCode at_)
    else none
  | .approve id userId scopes approverIat, .idle =>
    if st.rows.any fun s => s.id = id && s.isOpen st.now then
      some ⟨[], .approve ⟨id, userId, scopes⟩ approverIat, .finished⟩
    else some (proceed .finished)
  | .deny userCode userId, .idle => some ⟨[], .deny (digest userCode) userId, .finished⟩
  | .poll p, .idle => some (claim digest st p)
  | .consume, .claimed p c => some (consume digest st p c)
  | .classify, .unclaimed p => some (classify digest st p)
  | .slowDown, .early id => some (slowDown st id)
  | .cleanupExpired, .idle => some ⟨[], .cleanup, .finished⟩
  | _, _ => none

/-- Creators hold the advisory lock from `lock` on. -/
def Request.holds : Request → List Unit
  | .locked .. => [()]
  | .counted .. => [()]
  | _ => []

def service : Protocol Store Request Unit Action Effect where
  holds := Request.holds
  apply := Effect.apply
  code := code digest

/-! ### Rows -/

inductive Status.Next : Status → Status → Prop
  | refl (s : Status) : Next s s
  | approve : Next .pending .approved
  | deny : Next .pending .denied
  | consume : Next .approved .consumed

/-- How a statement at the time `now` changes a row. -/
structure Evolves (now : ℤ) (old new : DeviceSession) : Prop where
  id : new.id = old.id
  deviceCodeHash : new.deviceCodeHash = old.deviceCodeHash
  clientId : new.clientId = old.clientId
  expiresAt : new.expiresAt = old.expiresAt
  status : old.status.Next new.status
  decision : old.status ≠ .pending →
    new.decidedByUserId = old.decidedByUserId ∧ new.grantedScopes = old.grantedScopes
  interval : old.intervalSecs ≤ maxIntervalSecs →
    old.intervalSecs ≤ new.intervalSecs ∧ new.intervalSecs ≤ maxIntervalSecs
  polled : new.lastPolledAt = old.lastPolledAt ∨ new.lastPolledAt = some now

theorem Evolves.refl (now : ℤ) (s : DeviceSession) : Evolves now s s :=
  ⟨rfl, rfl, rfl, rfl, .refl _, fun _ => ⟨rfl, rfl⟩, fun le => ⟨le_rfl, le⟩, .inl rfl⟩

variable {now} {s : DeviceSession}

section

variable (h : s.isOpen now = true)
include h

theorem status_of_isOpen : s.status = .pending := by
  simp only [DeviceSession.isOpen, Bool.and_eq_true, decide_eq_true_eq] at h
  exact h.1

theorem evolves_decision {status : Status} (next : Status.pending.Next status) (userId : Option ℕ)
    (decidedAt : Option ℤ) (scopes : Option (List Text)) (iat : Option ℤ) :
    Evolves now s { s with status, decidedByUserId := userId, decidedAt, grantedScopes := scopes,
                           approverIat := iat } := by
  have pending := status_of_isOpen h
  exact ⟨rfl, rfl, rfl, rfl, pending ▸ next, fun other => absurd pending other,
    fun le => ⟨le_rfl, le⟩, .inl rfl⟩

theorem evolves_approve (userId : ℕ) (scopes : List Text) (iat : ℤ) :
    Evolves now s (s.approve userId scopes iat now) :=
  evolves_decision h .approve _ _ _ _

theorem evolves_deny (userId : ℕ) : Evolves now s (s.deny userId now) :=
  evolves_decision h .deny _ _ _ _

end

theorem evolves_claim (now : ℤ) (s : DeviceSession) : Evolves now s (s.claim now) :=
  ⟨rfl, rfl, rfl, rfl, .refl _, fun _ => ⟨rfl, rfl⟩, fun le => ⟨le_rfl, le⟩, .inr rfl⟩

variable {hash clientId : Text}

theorem redeemable_iff : s.redeemable hash clientId now = true ↔
    s.deviceCodeHash = hash ∧ s.clientId = clientId ∧ s.status = .approved ∧ now < s.expiresAt := by
  simp [DeviceSession.redeemable, DeviceSession.belongs, and_assoc]

theorem evolves_consume (h : s.redeemable hash clientId now = true) :
    Evolves now s (s.consume now) := by
  obtain ⟨-, -, approved, -⟩ := redeemable_iff.1 h
  refine ⟨rfl, rfl, rfl, rfl, ?_, fun _ => ⟨rfl, rfl⟩, fun le => ⟨le_rfl, le⟩, .inl rfl⟩
  rw [approved]
  exact .consume

theorem evolves_slowDown (now : ℤ) (s : DeviceSession) : Evolves now s (s.slowDown now) := by
  refine ⟨rfl, rfl, rfl, rfl, .refl _, fun _ => ⟨rfl, rfl⟩, fun le => ?_, .inr rfl⟩
  have grows : s.intervalSecs ≤ s.intervalSecs + slowDownIncrementSecs := by
    simp [slowDownIncrementSecs]
  exact ⟨le_min grows le, min_le_right _ _⟩

/-! ### Tables -/

variable {st}

theorem mem_of_updateWhere {p : DeviceSession → Bool} {f : DeviceSession → DeviceSession}
    (evolves : ∀ s, p s = true → Evolves now s (f s)) {rows : List DeviceSession}
    {new : DeviceSession} (mem : new ∈ updateWhere p f rows) :
    ∃ old ∈ rows, Evolves now old new := by
  rcases mem_updateWhere mem with ⟨kept, -⟩ | ⟨old, inside, holds, rfl⟩
  · exact ⟨new, kept, .refl now new⟩
  · exact ⟨old, inside, evolves old holds⟩

def Effect.inserts : Effect → Bool
  | .insert .. => true
  | _ => false

theorem Effect.evolves_apply (effect : Effect) (st : Store) :
    (∃ s deviceCode, effect = .insert s deviceCode) ∨
      (∃ p f, (effect.apply st).rows = updateWhere p f st.rows ∧
        ∀ s, p s = true → Evolves st.now s (f s)) ∨
      (effect.apply st).rows = st.rows ∨
      (effect.apply st).rows = st.rows.filter fun s => !(s.expiresAt < st.now) := by
  cases effect with
  | insert s deviceCode => exact .inl ⟨s, deviceCode, rfl⟩
  | none | tick => exact .inr (.inr (.inl rfl))
  | approve =>
    refine .inr (.inl ⟨_, _, rfl, fun s holds => ?_⟩)
    simp only [Bool.and_eq_true] at holds
    exact evolves_approve holds.2 _ _ _
  | deny =>
    refine .inr (.inl ⟨_, _, rfl, fun s holds => ?_⟩)
    simp only [Bool.and_eq_true] at holds
    exact evolves_deny holds.2 _
  | claim => exact .inr (.inl ⟨_, _, rfl, fun s _ => evolves_claim _ s⟩)
  | consume => exact .inr (.inl ⟨_, _, rfl, fun s holds => evolves_consume holds⟩)
  | slowDown => exact .inr (.inl ⟨_, _, rfl, fun s _ => evolves_slowDown _ s⟩)
  | cleanup => exact .inr (.inr (.inr rfl))

theorem mem_rows_apply {effect : Effect} {new : DeviceSession}
    (mem : new ∈ (effect.apply st).rows) :
    (∃ old ∈ st.rows, Evolves st.now old new) ∨ ∃ deviceCode, effect = .insert new deviceCode := by
  rcases effect.evolves_apply st with ⟨s, deviceCode, rfl⟩ | ⟨p, f, rows, evolves⟩ | rows | rows
  · rcases mem_cons.1 mem with rfl | old
    · exact .inr ⟨deviceCode, rfl⟩
    · exact .inl ⟨new, old, .refl _ _⟩
  · exact .inl (mem_of_updateWhere evolves (rows ▸ mem))
  · exact .inl ⟨new, rows ▸ mem, .refl _ _⟩
  · rw [rows] at mem
    exact .inl ⟨new, mem_of_mem_filter mem, .refl _ _⟩

theorem sublist_column {γ : Type} {column : DeviceSession → γ}
    (kept : ∀ now old new, Evolves now old new → column new = column old) {effect : Effect}
    (other : effect.inserts = false) :
    ((effect.apply st).rows.map column).Sublist (st.rows.map column) := by
  rcases effect.evolves_apply st with ⟨s, _, rfl⟩ | ⟨p, f, rows, evolves⟩ | rows | rows
  · cases other
  · rw [rows, map_updateWhere fun s holds => kept _ _ _ (evolves s holds)]
  · rw [rows]
  · rw [rows]
    exact filter_sublist.map _

/-! ### Calls -/

/-- A local state that relies on nothing. -/
def Request.isPlain : Request → Bool
  | .counted .. => false
  | .claimed .. => false
  | _ => true

variable (digest : Text → Text) (st : Store) in
inductive Does : Request → Effect → Request → Prop
  | tick (q : Request) (elapsed : ℕ) : Does q (.tick elapsed) q
  | pass {q q' : Request} (plain : q'.isPlain = true) : Does q .none q'
  | count {n : NewSession} {begun at_ : ℤ} (past : at_ ≤ st.now)
      (below : liveCount at_ st.rows < maxLiveSessions) (tries : ℕ) :
      Does (.locked n begun) .none (.counted n begun at_ tries)
  | retry (n : NewSession) (begun at_ : ℤ) (tries tries' : ℕ) :
      Does (.counted n begun at_ tries) .none (.counted n begun at_ tries')
  | insert {n : NewSession} {begun counted : ℤ} {tries : ℕ} {s : DeviceSession} {deviceCode : Text}
      (id : s.id = st.nextId) (hash : s.deviceCodeHash = digest deviceCode)
      (client : s.clientId = n.clientId) (status : s.status = .pending)
      (interval : s.intervalSecs ≤ maxIntervalSecs) (unpolled : s.lastPolledAt = none) :
      Does (.counted n begun counted tries) (.insert s deviceCode) .finished
  | approve {a : Approval} {s : DeviceSession} (mem : s ∈ st.rows) (id : s.id = a.id)
      (isOpen : s.isOpen st.now = true) (iat : ℤ) :
      Does .idle (.approve a iat) .finished
  | deny (hash : Text) (userId : ℕ) : Does .idle (.deny hash userId) .finished
  | pending {p : Poll} {s : DeviceSession} (mem : s ∈ st.rows)
      (holds : s.claimable (digest p.deviceCode) p.clientId st.now = true)
      (status : s.status = .pending) :
      Does .idle (.claim (digest p.deviceCode) p.clientId
        ⟨s.id, p.deviceCode, st.now, s.intervalSecs⟩) (.answered .pending)
  | claim {p : Poll} {s : DeviceSession} (mem : s ∈ st.rows)
      (holds : s.claimable (digest p.deviceCode) p.clientId st.now = true)
      (status : s.status = .approved) :
      Does .idle (.claim (digest p.deviceCode) p.clientId
        ⟨s.id, p.deviceCode, st.now, s.intervalSecs⟩)
        (.claimed p ⟨s.id, p.deviceCode, st.now, s.intervalSecs⟩)
  | redeem {p : Poll} {s : DeviceSession} (c : Polled) (mem : s ∈ st.rows)
      (holds : s.redeemable (digest p.deviceCode) p.clientId st.now = true) :
      Does (.claimed p c)
        (.consume (digest p.deviceCode) p.clientId
          ⟨p.deviceCode, p.clientId, c, s.consume st.now, st.now⟩)
        (.answered (.redeemed (s.consume st.now)))
  | slowDown (id : ℕ) (outcome : PollOutcome) : Does (.early id) (.slowDown id) (.answered outcome)
  | cleanup : Does .idle .cleanup .finished

variable {digest}

theorem claimable_iff : s.claimable hash clientId now = true ↔
    s.deviceCodeHash = hash ∧ s.clientId = clientId ∧
      (s.status = .pending ∨ s.status = .approved) ∧ now < s.expiresAt ∧
      ∀ at_, s.lastPolledAt = some at_ → at_ + secs (s.intervalSecs - 1) ≤ now := by
  simp [DeviceSession.claimable, DeviceSession.belongs, and_assoc, Option.all_eq_true]

theorem does_of_insertSession (n : NewSession) (begun counted : ℤ) (tries : ℕ)
    (deviceCode userCode : Text) (at_ : ℤ) :
    let o := insertSession digest st n begun counted tries deviceCode userCode at_
    Does digest st (.counted n begun counted tries) o.effect o.next := by
  unfold insertSession
  dsimp only
  split_ifs
  · cases tries with
    | zero => exact .pass rfl
    | succ _ => exact .retry _ _ _ _ _
  · exact .insert rfl rfl rfl rfl n.bounds.2 rfl
  · exact .pass rfl

theorem does_of_claim (p : Poll) :
    Does digest st .idle (claim digest st p).effect (claim digest st p).next := by
  unfold claim
  dsimp only
  cases found : st.rows.find? (·.claimable (digest p.deviceCode) p.clientId st.now) with
  | none => exact .pass rfl
  | some s =>
    have mem := mem_of_find?_eq_some found
    have holds := find?_some found
    obtain ⟨-, -, pending | approved, -⟩ := claimable_iff.1 holds
    · simp only [pending]
      exact .pending mem holds pending
    · simp only [approved]
      exact .claim mem holds approved

theorem does_of_consume (p : Poll) (c : Polled) :
    Does digest st (.claimed p c) (consume digest st p c).effect (consume digest st p c).next := by
  unfold consume
  dsimp only
  cases found : st.rows.find? (·.redeemable (digest p.deviceCode) p.clientId st.now) with
  | none => exact .pass rfl
  | some s =>
    have holds := find?_some found
    exact .redeem c (mem_of_find?_eq_some found) holds

theorem does_of_classify (p : Poll) :
    Does digest st (.unclaimed p) (classify digest st p).effect (classify digest st p).next := by
  unfold classify
  cases st.rows.find? (·.belongs (digest p.deviceCode) p.clientId) with
  | none => exact .pass rfl
  | some s =>
    dsimp only
    split_ifs <;> exact .pass rfl

theorem does_of_slowDown (id : ℕ) :
    Does digest st (.early id) (slowDown st id).effect (slowDown st id).next := by
  unfold slowDown
  cases st.rows.find? (·.id = id) with
  | none => exact .pass rfl
  | some s => exact .slowDown id _

theorem code_does {q : Request} {a : Action} {o : Statement}
    (coded : code digest st q a = some o) : Does digest st q o.effect o.next := by
  rw [code.eq_def] at coded
  split at coded
  · cases coded; exact .tick _ _
  · cases coded; exact .pass rfl
  · cases coded; exact .pass rfl
  · cases coded; exact .pass rfl
  · split_ifs at coded with past below
    · cases coded
      exact .count past.2 (of_decide_eq_true below) 4
    · cases coded
      exact .pass rfl
  · split_ifs at coded
    cases coded
    exact does_of_insertSession _ _ _ _ _ _ _
  · split_ifs at coded with found
    · cases coded
      obtain ⟨s, mem, holds⟩ := any_eq_true.1 found
      simp only [Bool.and_eq_true, decide_eq_true_eq] at holds
      exact .approve mem holds.1 holds.2 _
    · cases coded
      exact .pass rfl
  · cases coded; exact .deny _ _
  · cases coded; exact does_of_claim _
  · cases coded; exact does_of_consume _ _
  · cases coded; exact does_of_classify _
  · cases coded; exact does_of_slowDown _
  · cases coded; exact .cleanup
  · cases coded

end ArtifactKeeper.DeviceSessions
