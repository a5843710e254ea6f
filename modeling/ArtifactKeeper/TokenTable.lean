import ArtifactKeeper.Library.StepSystem
import ArtifactKeeper.Library.Text
import Mathlib.Data.List.Nodup

/-!
# The table of API tokens

`validate_api_token` with an empty cache reads a row by the first eight bytes of the presented
string and then verifies the hash of the whole string.  That column has no unique constraint and the
query no order, so any of the rows that share the eight characters may be the one read.
-/

namespace ArtifactKeeper.TokenTable

open StepSystem Text List
open Option hiding map_map

inductive AppError where
  | validation (message : Text)
  | authentication (message : Text)
  | unauthorized (message : Text)
  | notFound (message : Text)
deriving DecidableEq

inductive Outcome (α : Type) where
  | ok (value : α)
  | err (error : AppError)
  | panicked
deriving DecidableEq

/-! ### Random values and hashes -/

/-- `Uuid::new_v4`: the version and the variant replace six of the random bits. -/
def newV4 (random : BitVec 128) : BitVec 128 :=
  (random &&& ~~~(0xf000c000000000000000#128)) ||| 0x40008000000000000000#128

/-- The `count` hexadecimal digits from position `first` on. -/
def hexDigits (uuid : BitVec 128) (first count : ℕ) : Text :=
  (range count).map fun i => Nat.digitChar (uuid.toNat / 16 ^ (31 - (first + i)) % 16)

def uuidToString (uuid : BitVec 128) : Text :=
  hexDigits uuid 0 8 ++ '-' :: hexDigits uuid 8 4 ++ '-' :: hexDigits uuid 12 4 ++
    '-' :: hexDigits uuid 16 4 ++ '-' :: hexDigits uuid 20 12

/-- A salted password hash that verifies exactly the string that was hashed. -/
structure Hashing (Hash : Type) where
  hashPassword : ℕ → Text → Hash
  verifyPassword : Text → Hash → Bool
  dummyBcryptHash : Hash
  verify_hash : ∀ salt hashed token,
    verifyPassword token (hashPassword salt hashed) = decide (token = hashed)

/-! ### Tables -/

variable (Id : Type)

structure User where
  id : Id
  isActive : Bool
  isServiceAccount : Bool
deriving DecidableEq

structure Users where
  rows : List (User Id)
  distinct : (rows.map User.id).Nodup

/-- A row of `api_tokens`.  Times are microseconds. -/
structure TokenRow (Id Hash : Type) where
  id : Id
  userId : Id
  name : Text
  tokenHash : Hash
  tokenPrefix : Text
  scopes : List Text
  expiresAt : Option ℤ
  revokedAt : Option ℤ
deriving DecidableEq

structure MintedApiToken where
  token : Text
  id : Id
  expiresAt : Option ℤ
  policyApplied : Bool
deriving DecidableEq

structure ApiTokenValidation where
  user : User Id
  scopes : List Text
  expiresAt : Option ℤ
deriving DecidableEq

/-! ### Minting -/

def allowedScopes : List Text :=
  ["read:artifacts", "write:artifacts", "delete:artifacts",
    "promote:artifacts", "read:repositories", "write:repositories",
    "delete:repositories", "read:users", "write:users",
    "trigger:sync", "write:findings", "admin", "*"]

def quoted (s : Text) : Text := Char.ofNat 34 :: s ++ [Char.ofNat 34]

def validateScopesPure : List Text → Except Text Unit
  | [] => .ok ()
  | scope :: scopes =>
    if scope ∉ allowedScopes then
      .error ("Invalid scope: '" ++ scope ++ "'. Allowed scopes: [" ++
        ", ".toList.intercalate (allowedScopes.map quoted) ++ "]")
    else validateScopesPure scopes

structure ApiTokenExpiryPolicy where
  requireExpiration : Bool
  minDays : ℤ
  maxDays : ℤ
  defaultDays : Option ℤ
  applyToServiceAccounts : Bool

structure ResolvedExpiry where
  expiresInDays : Option ℤ
  policyApplied : Bool

variable (policy : ApiTokenExpiryPolicy)

def daysRange : Text :=
  "between " ++ (toString policy.minDays).toList ++ " and " ++
    (toString policy.maxDays).toList ++ " days"

def resolveExpiry (requestedDays : Option ℤ) (isServiceAccount : Bool) :
    Except Text ResolvedExpiry :=
  if !policy.requireExpiration || isServiceAccount && !policy.applyToServiceAccounts then
    .ok ⟨requestedDays, false⟩
  else
    match requestedDays with
    | none =>
      match policy.defaultDays with
      | some d => .ok ⟨some d, true⟩
      | none =>
        .error ("This instance requires API tokens to expire: set expires_in_days " ++
          daysRange policy)
    | some d =>
      if d < policy.minDays ∨ d > policy.maxDays then
        .error ("expires_in_days (" ++ (toString d).toList ++
          ") violates this instance's token expiration policy: it must be " ++
          daysRange policy)
      else .ok ⟨some d, true⟩

/-- The expiry of a new token: an inert policy leaves the request as it is. -/
def resolved (expiresInDays : Option ℤ) (isServiceAccount : Bool) : Except Text ResolvedExpiry :=
  if policy.requireExpiration then resolveExpiry policy expiresInDays isServiceAccount
  else .ok ⟨expiresInDays, false⟩

def durationDays (days : ℤ) : ℤ := days * 86400000000

/-- The random values, the settings and the clock that a call to mint a token reads, and the
identifier the database gives the row. -/
structure Draw where
  first : BitVec 128
  second : BitVec 128
  salt : ℕ
  policy : ApiTokenExpiryPolicy
  users : Users Id
  now : ℤ
  id : Id

section

variable {Id Hash : Type} [DecidableEq Id] (hashing : Hashing Hash)

def isServiceAccount (users : Users Id) (userId : Id) : Bool :=
  ((users.rows.find? (·.id = userId)).map User.isServiceAccount).getD false

def generateApiTokenWithPolicy (draw : Draw Id) (userId : Id) (name : Text) (scopes : List Text)
    (expiresInDays : Option ℤ) : Outcome (TokenRow Id Hash × MintedApiToken Id) :=
  if scopes.length > 50 then .err (.validation "Too many scopes (max 50)")
  else if scopes.any fun s => byteLength s > 256 then
    .err (.validation "Scope name too long (max 256 characters)")
  else match validateScopesPure scopes with
  | .error message => .err (.validation message)
  | .ok () =>
    match sliceTo 8 (uuidToString (newV4 draw.first)) with
    | none => .panicked
    | some front =>
      let token := front ++ '_' :: (uuidToString (newV4 draw.second)).filter (· ≠ '-')
      match sliceTo 8 token with
      | none => .panicked
      | some tokenPrefix =>
        match resolved draw.policy expiresInDays (isServiceAccount draw.users userId) with
        | .error message => .err (.validation message)
        | .ok resolved =>
          let expiresAt := resolved.expiresInDays.map fun days =>
            draw.now + durationDays (max 1 (min days 3650))
          .ok (⟨draw.id, userId, name, hashing.hashPassword draw.salt token, tokenPrefix, scopes,
              expiresAt, none⟩, ⟨token, draw.id, expiresAt, resolved.policyApplied⟩)

/-! ### Validation -/

/-- A query without an order returns any of the rows it selects. -/
def fetchOptional {α : Type} (choice : ℕ) (rows : List α) : Option α := rows[choice % rows.length]?

def checkTokenValidationResult (tokenExists isRevoked hashMatches : Bool) : Except AppError Unit :=
  if !tokenExists then .error (.authentication "Invalid API token")
  else if isRevoked then .error (.unauthorized "Token has been revoked")
  else if !hashMatches then .error (.authentication "Invalid API token")
  else .ok ()

variable (row : TokenRow Id Hash)

def TokenRow.expired (now : ℤ) : Bool := row.expiresAt.any (· < now)

/-- What `validate_api_token` does with the row it has read. -/
def validateStored (users : Users Id) (now : ℤ) (token : Text)
    (stored : Option (TokenRow Id Hash)) : Outcome (ApiTokenValidation Id) :=
  let hashToVerify := (stored.map TokenRow.tokenHash).getD hashing.dummyBcryptHash
  let isRevoked := stored.any (·.revokedAt.isSome)
  let hashMatches := hashing.verifyPassword token hashToVerify
  match checkTokenValidationResult stored.isSome isRevoked hashMatches with
  | .error e => .err e
  | .ok () =>
    match stored with
    | none => .panicked
    | some row =>
      if row.expired now then .err (.authentication "API token expired")
      else match users.rows.find? fun u => u.id = row.userId && u.isActive with
        | none => .err (.authentication "User not found")
        | some user => .ok ⟨user, row.scopes, row.expiresAt⟩

variable (rows : List (TokenRow Id Hash))

def validateApiToken (users : Users Id) (now : ℤ) (choice : ℕ) (token : Text) :
    Outcome (ApiTokenValidation Id) :=
  if byteLength token < 8 then .err (.authentication "Invalid API token")
  else match sliceTo 8 token with
  | none => .panicked
  | some front =>
    validateStored hashing users now token
      (fetchOptional choice (rows.filter (·.tokenPrefix = front)))

/-! ### Runs -/

/-- The table, and the tokens that have been handed out. -/
structure State (Id Hash : Type) where
  rows : List (TokenRow Id Hash)
  minted : List (MintedApiToken Id)

def empty : State Id Hash := ⟨[], []⟩

inductive Call (Id : Type) where
  | generate (draw : Draw Id) (userId : Id) (name : Text) (scopes : List Text)
      (expiresInDays : Option ℤ)
  | revoke (tokenId userId : Id) (now : ℤ)

/-- The row that `revoke_api_token` updates. -/
def TokenRow.revocable (tokenId userId : Id) : Bool :=
  row.id = tokenId && row.userId = userId && row.revokedAt.isNone

def revokeApiToken (tokenId userId : Id) (now : ℤ) :
    List (TokenRow Id Hash) × Except AppError Unit :=
  let result := rows.map fun row =>
    if row.revocable tokenId userId then { row with revokedAt := some now } else row
  (result, if rows.any (·.revocable tokenId userId) then .ok ()
    else .error (.notFound "API token not found"))

def step (st : State Id Hash) : Call Id → Option (State Id Hash)
  | .generate draw userId name scopes expiresInDays =>
    match generateApiTokenWithPolicy hashing draw userId name scopes expiresInDays with
    | .ok (row, minted) =>
      -- The identifier of a new row is not in the table.
      if st.rows.any (·.id = row.id) then none else some ⟨row :: st.rows, minted :: st.minted⟩
    | _ => some st
  | .revoke tokenId userId now =>
    some { st with rows := (revokeApiToken st.rows tokenId userId now).1 }

/-- The token that a call mints has not been minted before. -/
def Fresh (st : State Id Hash) : Call Id → Prop
  | .generate draw userId name scopes expiresInDays =>
    ∀ row minted, generateApiTokenWithPolicy hashing draw userId name scopes expiresInDays =
      .ok (row, minted) → minted.token ∉ st.minted.map MintedApiToken.token
  | .revoke .. => True

def Reachable : State Id Hash → Prop := Reach (step hashing) (· = empty) (Fresh hashing)

/-! ### What a token consists of -/

theorem utf8Size_digitChar {n : ℕ} (h : n < 16) : (Nat.digitChar n).utf8Size = 1 := by
  have digits : ∀ i : Fin 16, (Nat.digitChar i).utf8Size = 1 := by decide
  exact digits ⟨n, h⟩

theorem byteLength_hexDigits (uuid : BitVec 128) (first count : ℕ) :
    byteLength (hexDigits uuid first count) = count := by
  have single : ∀ i, (Nat.digitChar (uuid.toNat / 16 ^ (31 - (first + i)) % 16)).utf8Size = 1 :=
    fun i => utf8Size_digitChar (Nat.mod_lt _ (by decide))
  simp [byteLength, hexDigits, Function.comp_def, single]

theorem sliceTo_uuid (uuid : BitVec 128) :
    sliceTo 8 (uuidToString uuid) = some (hexDigits uuid 0 8) := by
  refine sliceTo_eq_some.2 ⟨?_, byteLength_hexDigits uuid 0 8⟩
  simp [uuidToString]

theorem generate_cases (draw : Draw Id) (userId : Id) (name : Text) (scopes : List Text)
    (expiresInDays : Option ℤ) :
    (∃ e, generateApiTokenWithPolicy hashing draw userId name scopes expiresInDays = .err e) ∨
    ∃ row minted, generateApiTokenWithPolicy hashing draw userId name scopes expiresInDays =
        .ok (row, minted) ∧ minted.id = row.id ∧ sliceTo 8 minted.token = some row.tokenPrefix ∧
      row.tokenHash = hashing.hashPassword draw.salt minted.token := by
  unfold generateApiTokenWithPolicy
  split_ifs with many long
  · exact .inl ⟨_, rfl⟩
  · exact .inl ⟨_, rfl⟩
  have first (rest : Text) : sliceTo 8 (hexDigits (newV4 draw.first) 0 8 ++ rest) =
      some (hexDigits (newV4 draw.first) 0 8) :=
    sliceTo_eq_some.2 ⟨prefix_append _ _, byteLength_hexDigits _ 0 8⟩
  simp only [sliceTo_uuid, first]
  cases validateScopesPure scopes with
  | error _ => exact .inl ⟨_, rfl⟩
  | ok =>
    dsimp only
    split
    · exact .inl ⟨_, rfl⟩
    · exact .inr ⟨_, _, rfl, rfl, first _, rfl⟩

end

/-! ### The table stays in step with the tokens handed out -/

section

variable {Id Hash : Type} (hashing : Hashing Hash)

def Stores (row : TokenRow Id Hash) (minted : MintedApiToken Id) : Prop :=
  minted.id = row.id ∧ sliceTo 8 minted.token = some row.tokenPrefix ∧
    ∃ salt, row.tokenHash = hashing.hashPassword salt minted.token

structure Inv (st : State Id Hash) : Prop where
  ids : (st.rows.map TokenRow.id).Nodup
  tokens : (st.minted.map MintedApiToken.token).Nodup
  stored : ∀ minted ∈ st.minted, ∃ row ∈ st.rows, Stores hashing row minted
  issued : ∀ row ∈ st.rows, ∃ minted ∈ st.minted, Stores hashing row minted

variable {hashing} {st : State Id Hash}

variable {row}

section

variable (h : Inv hashing st)
include h

theorem Inv.insert {minted : MintedApiToken Id} (newId : row.id ∉ st.rows.map TokenRow.id)
    (newToken : minted.token ∉ st.minted.map MintedApiToken.token)
    (stores : Stores hashing row minted) :
    Inv hashing ⟨row :: st.rows, minted :: st.minted⟩ where
  ids := nodup_cons.2 ⟨newId, h.ids⟩
  tokens := nodup_cons.2 ⟨newToken, h.tokens⟩
  stored := by
    rintro m (_ | ⟨_, old⟩)
    · exact ⟨row, .head _, stores⟩
    · obtain ⟨r, mem, same⟩ := h.stored m old
      exact ⟨r, .tail _ mem, same⟩
  issued := by
    rintro r (_ | ⟨_, old⟩)
    · exact ⟨minted, .head _, stores⟩
    · obtain ⟨m, mem, same⟩ := h.issued r old
      exact ⟨m, .tail _ mem, same⟩

/-- A change of `revoked_at` keeps the identifier, the hash and the first characters of a row. -/
theorem Inv.map {change : TokenRow Id Hash → TokenRow Id Hash}
    (keeps : ∀ row, (change row).id = row.id ∧ (change row).tokenPrefix = row.tokenPrefix ∧
      (change row).tokenHash = row.tokenHash) :
    Inv hashing { st with rows := st.rows.map change } := by
  have same (row : TokenRow Id Hash) (minted : MintedApiToken Id) :
      Stores hashing (change row) minted ↔ Stores hashing row minted := by
    simp only [Stores, keeps]
  refine ⟨?_, h.tokens, fun minted mem => ?_, fun row mem => ?_⟩
  · have ids : (TokenRow.id ∘ change : TokenRow Id Hash → Id) = TokenRow.id :=
      funext fun row => (keeps row).1
    rw [map_map, ids]
    exact h.ids
  · obtain ⟨row, inside, stores⟩ := h.stored minted mem
    exact ⟨change row, mem_map_of_mem inside, (same row minted).2 stores⟩
  · obtain ⟨old, inside, rfl⟩ := mem_map.1 mem
    obtain ⟨minted, handed, stores⟩ := h.issued old inside
    exact ⟨minted, handed, (same old minted).2 stores⟩

theorem Inv.eq_of_id {other : TokenRow Id Hash} (mem : row ∈ st.rows) (mem' : other ∈ st.rows)
    (same : row.id = other.id) : row = other :=
  inj_on_of_nodup_map h.ids mem mem' same

theorem Inv.eq_of_token {m m' : MintedApiToken Id} (mem : m ∈ st.minted) (mem' : m' ∈ st.minted)
    (same : m.token = m'.token) : m = m' :=
  inj_on_of_nodup_map h.tokens mem mem' same

theorem Inv.stores {m : MintedApiToken Id} (mem : m ∈ st.minted) (inside : row ∈ st.rows)
    (same : m.id = row.id) : Stores hashing row m := by
  obtain ⟨_, mem', stores⟩ := h.stored m mem
  exact h.eq_of_id mem' inside (stores.1.symm.trans same) ▸ stores

theorem Inv.verify_iff (inside : row ∈ st.rows) {token : Text} :
    hashing.verifyPassword token row.tokenHash = true ↔
      ∃ m ∈ st.minted, m.token = token ∧ m.id = row.id := by
  constructor
  · intro verified
    obtain ⟨m, mem, id, -, _, hash⟩ := h.issued row inside
    rw [hash, hashing.verify_hash, decide_eq_true_eq] at verified
    exact ⟨m, mem, verified.symm, id⟩
  · rintro ⟨m, mem, rfl, id⟩
    obtain ⟨-, -, _, hash⟩ := h.stores mem inside id
    rw [hash, hashing.verify_hash, decide_eq_true rfl]

end

/-- The answer that a row gives to a presented string. -/
structure Accepts (hashing : Hashing Hash) (users : Users Id) (now : ℤ) (token : Text)
    (row : TokenRow Id Hash) (answer : ApiTokenValidation Id) : Prop where
  unrevoked : row.revokedAt = none
  verified : hashing.verifyPassword token row.tokenHash = true
  unexpired : row.expired now = false
  user : answer.user ∈ users.rows ∧ answer.user.id = row.userId ∧ answer.user.isActive = true
  scopes : answer.scopes = row.scopes
  expiresAt : answer.expiresAt = row.expiresAt

variable (st) in
/-- The presented string is the token of this row, and the row, its expiry and its user are good. -/
structure Live (users : Users Id) (now : ℤ) (token : Text) (row : TokenRow Id Hash)
    (user : User Id) : Prop where
  minted : ∃ m ∈ st.minted, m.token = token ∧ m.id = row.id
  stored : row ∈ st.rows
  unrevoked : row.revokedAt = none
  unexpired : row.expired now = false
  user : user ∈ users.rows ∧ user.id = row.userId ∧ user.isActive = true

theorem Inv.accepts_iff (h : Inv hashing st) (inside : row ∈ st.rows) {users : Users Id} {now : ℤ}
    {token : Text} {answer : ApiTokenValidation Id} :
    Accepts hashing users now token row answer ↔
      Live st users now token row answer.user ∧ answer.scopes = row.scopes ∧
        answer.expiresAt = row.expiresAt := by
  constructor
  · rintro ⟨unrevoked, verified, unexpired, user, scopes, expiresAt⟩
    exact ⟨⟨(h.verify_iff inside).1 verified, inside, unrevoked, unexpired, user⟩, scopes,
      expiresAt⟩
  · rintro ⟨⟨minted, -, unrevoked, unexpired, user⟩, scopes, expiresAt⟩
    exact ⟨unrevoked, (h.verify_iff inside).2 minted, unexpired, user, scopes, expiresAt⟩

theorem Live.front {users : Users Id} {now : ℤ} {token : Text} {user : User Id} (h : Inv hashing st)
    (live : Live st users now token row user) : sliceTo 8 token = some row.tokenPrefix := by
  obtain ⟨m, mem, rfl, id⟩ := live.minted
  exact (h.stores mem live.stored id).2.1

end

section

variable {Id Hash : Type} [DecidableEq Id] {hashing : Hashing Hash} {st : State Id Hash}
  {choice : ℕ}

theorem Inv.step {st' : State Id Hash} {call : Call Id} (h : Inv hashing st)
    (fresh : Fresh hashing st call) (taken : step hashing st call = some st') :
    Inv hashing st' := by
  cases call with
  | generate draw userId name scopes expiresInDays =>
    simp only [TokenTable.step] at taken
    rcases generate_cases hashing draw userId name scopes expiresInDays with
      ⟨e, failed⟩ | ⟨row, minted, returned, id, front, hash⟩
    · rw [failed] at taken
      exact some.inj taken ▸ h
    · simp only [returned, ite_none_left_eq_some, some.injEq] at taken
      obtain ⟨newId, rfl⟩ := taken
      refine h.insert ?_ (fresh row minted returned) ⟨id, front, draw.salt, hash⟩
      simpa using newId
  | revoke =>
    cases taken
    refine h.map fun row => ?_
    split_ifs <;> exact ⟨rfl, rfl, rfl⟩

theorem inv (reached : Reachable hashing st) : Inv hashing st :=
  reached.invariant
    (fun _ initial => initial ▸ ⟨.nil, .nil, nofun, nofun⟩)
    fun _ _ _ h fresh taken => h.step fresh taken

/-! ### The row that is read -/

theorem mem_of_fetchOptional {α : Type} {rows : List α} {row : α}
    (h : fetchOptional choice rows = some row) : row ∈ rows :=
  mem_of_getElem? h

theorem exists_fetchOptional {α : Type} {rows : List α} {row : α} (mem : row ∈ rows) :
    ∃ choice, fetchOptional choice rows = some row := by
  obtain ⟨i, below, rfl⟩ := mem_iff_getElem.1 mem
  exact ⟨i, by rw [fetchOptional, Nat.mod_eq_of_lt below, getElem?_eq_getElem below]⟩

theorem isSome_fetchOptional {α : Type} (choice : ℕ) {rows : List α} {row : α} (mem : row ∈ rows) :
    ∃ found, fetchOptional choice rows = some found :=
  have below : choice % rows.length < rows.length :=
    Nat.mod_lt _ (length_pos_of_mem mem)
  ⟨_, getElem?_eq_getElem below⟩

variable {users : Users Id}

theorem find_user_eq_some {userId : Id} {user : User Id} :
    users.rows.find? (fun u => u.id = userId && u.isActive) = some user ↔
      user ∈ users.rows ∧ user.id = userId ∧ user.isActive = true := by
  constructor
  · intro found
    have accepted := find?_some found
    simp only [Bool.and_eq_true, decide_eq_true_eq] at accepted
    exact ⟨mem_of_find?_eq_some found, accepted⟩
  · rintro ⟨mem, rfl, active⟩
    cases found : users.rows.find? fun u => u.id = user.id && u.isActive with
    | none =>
      have missed := find?_eq_none.1 found user mem
      simp [active] at missed
    | some _ =>
      have accepted := find?_some found
      simp only [Bool.and_eq_true, decide_eq_true_eq] at accepted
      have same := inj_on_of_nodup_map users.distinct (mem_of_find?_eq_some found) mem
        accepted.1
      rw [same]

theorem validateStored_some (users : Users Id) (now : ℤ) (token : Text) (row : TokenRow Id Hash) :
    validateStored hashing users now token (some row) =
      if row.revokedAt.isSome then .err (.unauthorized "Token has been revoked")
      else if !hashing.verifyPassword token row.tokenHash then
        .err (.authentication "Invalid API token")
      else if row.expired now then .err (.authentication "API token expired")
      else match users.rows.find? fun u => u.id = row.userId && u.isActive with
        | none => .err (.authentication "User not found")
        | some user => .ok ⟨user, row.scopes, row.expiresAt⟩ := by
  simp only [validateStored, checkTokenValidationResult, isSome_some, Bool.not_true,
    Bool.false_eq_true, if_false, any_some, map_some, getD_some]
  split_ifs <;> rfl

variable {token : Text} {now : ℤ} {answer : ApiTokenValidation Id} {rows : List (TokenRow Id Hash)}

theorem validateStored_eq_ok {stored : Option (TokenRow Id Hash)} :
    validateStored hashing users now token stored = .ok answer ↔
      ∃ row, stored = some row ∧ Accepts hashing users now token row answer := by
  cases stored with
  | none => simp [validateStored, checkTokenValidationResult]
  | some _ =>
    simp only [some.injEq, exists_eq_left', validateStored_some]
    constructor
    · intro returned
      split_ifs at returned with revoked verified expired
      split at returned
      next => cases returned
      next _ found =>
        cases returned
        exact ⟨by simpa using revoked, by simpa using verified, by simpa using expired,
          find_user_eq_some.1 found, rfl, rfl⟩
    · rintro ⟨unrevoked, verified, unexpired, user, scopes, expiresAt⟩
      simp [unrevoked, verified, unexpired, find_user_eq_some.2 user, ← scopes, ← expiresAt]

theorem validateStored_ne_panicked (users : Users Id) (now : ℤ) (token : Text)
    (stored : Option (TokenRow Id Hash)) :
    validateStored hashing users now token stored ≠ .panicked := by
  cases stored with
  | none => simp [validateStored, checkTokenValidationResult]
  | some _ =>
    rw [validateStored_some]
    split_ifs
    case neg => split <;> simp
    all_goals simp

theorem byteLength_of_sliceTo {front : Text} (h : sliceTo 8 token = some front) :
    ¬byteLength token < 8 := by
  obtain ⟨⟨_, rfl⟩, _⟩ := sliceTo_eq_some.1 h
  rw [byteLength_append]
  omega

theorem validate_eq_ok :
    validateApiToken hashing rows users now choice token = .ok answer ↔
      ∃ front row, sliceTo 8 token = some front ∧
        fetchOptional choice (rows.filter (·.tokenPrefix = front)) = some row ∧
        Accepts hashing users now token row answer := by
  unfold validateApiToken
  cases sliced : sliceTo 8 token with
  | none => split_ifs <;> simp
  | some _ =>
    rw [if_neg (byteLength_of_sliceTo sliced)]
    simp only [validateStored_eq_ok, some.injEq, exists_and_left, exists_eq_left']

theorem validate_eq_panicked :
    validateApiToken hashing rows users now choice token = .panicked ↔
      8 ≤ byteLength token ∧ sliceTo 8 token = none := by
  unfold validateApiToken
  split_ifs with short
  · simp [short]
  · cases sliceTo 8 token with
    | none => simpa using short
    | some _ => simp [validateStored_ne_panicked]

/-! ### Exactness -/

variable (hashing st) in
/-- Whichever row is read, the call returns and accepts exactly the live tokens, with their user,
scopes and expiry. -/
def Exact (users : Users Id) (now : ℤ) (token : Text) : Prop :=
  ∀ choice, validateApiToken hashing st.rows users now choice token ≠ .panicked ∧
    ∀ answer, validateApiToken hashing st.rows users now choice token = .ok answer ↔
      ∃ row, Live st users now token row answer.user ∧ answer.scopes = row.scopes ∧
        answer.expiresAt = row.expiresAt

/-- In every state of the table that calls reach, for all users, at every time and for every
presented string. -/
theorem validate_exact_iff (reached : Reachable hashing st) (users : Users Id) (now : ℤ)
    (token : Text) :
    Exact hashing st users now token ↔
      (byteLength token < 8 ∨ ∃ front, front <+: token ∧ byteLength front = 8) ∧
      ∀ row user, Live st users now token row user →
        ∀ other ∈ st.rows, other.tokenPrefix = row.tokenPrefix → other = row := by
  have h := inv reached
  constructor
  · intro exact
    refine ⟨?_, fun row user live other mem same => ?_⟩
    · by_contra unaligned
      simp only [not_or, not_lt, not_exists] at unaligned
      refine (exact 0).1 (validate_eq_panicked.2 ⟨unaligned.1, ?_⟩)
      exact eq_none_iff_forall_ne_some.2 fun front sliced =>
        unaligned.2 front (sliceTo_eq_some.1 sliced)
    · -- When the other row is read, it is the one that accepts the token.
      have selected : other ∈ st.rows.filter (·.tokenPrefix = row.tokenPrefix) :=
        mem_filter.2 ⟨mem, by simpa using same⟩
      obtain ⟨choice, read⟩ := exists_fetchOptional selected
      have accepted := ((exact choice).2 ⟨user, row.scopes, row.expiresAt⟩).2 ⟨row, live, rfl, rfl⟩
      obtain ⟨front, _, sliced, fetched, accepts⟩ := validate_eq_ok.1 accepted
      rw [live.front h, some.injEq] at sliced
      rw [← sliced, read, some.injEq] at fetched
      obtain ⟨m, handed, token, id⟩ := live.minted
      obtain ⟨_, handed', token', id'⟩ := (h.verify_iff mem).1 (fetched ▸ accepts.verified)
      have one := h.eq_of_token handed handed' (token.trans token'.symm)
      exact h.eq_of_id mem live.stored (id'.symm.trans (one ▸ id))
  · rintro ⟨aligned, unshared⟩ choice
    refine ⟨fun panicked => ?_, fun answer => ⟨fun accepted => ?_, ?_⟩⟩
    · obtain ⟨_, unsliced⟩ := validate_eq_panicked.1 panicked
      rcases aligned with _ | ⟨_, boundary⟩
      · omega
      · rw [sliceTo_eq_some.2 boundary] at unsliced
        cases unsliced
    · obtain ⟨_, row, -, fetched, accepts⟩ := validate_eq_ok.1 accepted
      have mem := (mem_filter.1 (mem_of_fetchOptional fetched)).1
      exact ⟨row, (h.accepts_iff mem).1 accepts⟩
    · rintro ⟨row, live, fields⟩
      have selected : row ∈ st.rows.filter (·.tokenPrefix = row.tokenPrefix) :=
        mem_filter.2 ⟨live.stored, by simp⟩
      obtain ⟨found, fetched⟩ := isSome_fetchOptional choice selected
      obtain ⟨mem, same⟩ := mem_filter.1 (mem_of_fetchOptional fetched)
      have only : found = row := unshared row answer.user live found mem (by simpa using same)
      subst only
      exact validate_eq_ok.2
        ⟨_, found, live.front h, fetched, (h.accepts_iff mem).2 ⟨live, fields⟩⟩

end

/-! ### Two tokens with the same first eight characters -/

def plainHashing : Hashing (ℕ × Text) where
  hashPassword salt token := (salt, token)
  verifyPassword token hash := decide (token = hash.2)
  dummyBcryptHash := (0, [])
  verify_hash _ _ _ := rfl

def oneUser : Users ℕ := ⟨[⟨7, true, false⟩], by decide⟩

/-- A token of the user whose first eight characters are zeros. -/
def mint (id : ℕ) : Call ℕ :=
  .generate ⟨0, BitVec.ofNat 128 id, id, ⟨false, 1, 90, some 90, false⟩, oneUser, 0, id⟩ 7
    "ci" ["read:artifacts"] (some 30)

def mintedToken (id : Char) : Text := "00000000_0000000000004000800000000000000" ++ [id]

def freshCheck (st : State ℕ (ℕ × Text)) : Call ℕ → Bool
  | .generate draw userId name scopes expiresInDays =>
    match generateApiTokenWithPolicy plainHashing draw userId name scopes expiresInDays with
    | .ok (_, minted) => !st.minted.any fun other => other.token == minted.token
    | _ => true
  | .revoke .. => true

theorem fresh_of_freshCheck (st : State ℕ (ℕ × Text)) (call : Call ℕ)
    (h : freshCheck st call = true) : Fresh plainHashing st call := by
  cases call with
  | revoke => trivial
  | generate =>
    intro _ _ returned
    simpa [freshCheck, returned] using h

theorem reachable_of_run (calls : List (Call ℕ)) (p : State ℕ (ℕ × Text) → Prop) [DecidablePred p]
    (ends : (run freshCheck (step plainHashing) empty calls).any (fun st => decide (p st)) = true) :
    ∃ st, Reachable plainHashing st ∧ p st :=
  Reach.exists_of_start _ (· = empty) fresh_of_freshCheck empty rfl calls p ends

theorem validate_exact_one_token :
    ∃ st, Reachable plainHashing st ∧ st.rows.length = 1 ∧
      Exact plainHashing st oneUser 5 (mintedToken '1') := by
  obtain ⟨st, reached, one⟩ := reachable_of_run [mint 1] (fun st => st.rows.length = 1) (by decide)
  refine ⟨st, reached, one, (validate_exact_iff reached _ _ _).2 ⟨.inr ?_, ?_⟩⟩
  · exact ⟨"00000000", by decide, by decide⟩
  · intro _ _ live _ mem _
    obtain ⟨_, rows⟩ := length_eq_one_iff.1 one
    have stored := live.stored
    rw [rows, mem_singleton] at mem stored
    rw [mem, stored]

/-- The first of two tokens that share their first eight characters is refused when the row of the
second is read; and a string whose eighth byte lies inside a character stops the call. -/
theorem token_refused :
    ∃ st, Reachable plainHashing st ∧ ¬Exact plainHashing st oneUser 5 (mintedToken '1') ∧
      ¬Exact plainHashing st oneUser 5 "0000000é" := by
  let answer : ApiTokenValidation ℕ :=
    ⟨⟨7, true, false⟩, ["read:artifacts"], some (durationDays 30)⟩
  obtain ⟨st, reached, accepted, refused⟩ := reachable_of_run [mint 1, mint 2]
    (fun st =>
      validateApiToken plainHashing st.rows oneUser 5 1 (mintedToken '1') = .ok answer ∧
      validateApiToken plainHashing st.rows oneUser 5 0 (mintedToken '1') =
        .err (.authentication "Invalid API token")) (by decide)
  refine ⟨st, reached, fun exact => ?_, fun exact => (exact 0).1 ?_⟩
  · have live := ((exact 1).2 answer).1 accepted
    rw [((exact 0).2 answer).2 live] at refused
    cases refused
  · exact validate_eq_panicked.2 (by decide)

end ArtifactKeeper.TokenTable
