import ArtifactKeeper.Library.CachedReads
import ArtifactKeeper.Library.Network
import ArtifactKeeper.Library.Protocol
import Mathlib.Data.List.Dedup

/-!
# Permission rules and their two caches

The table of permission rules, the cache of the actions a user has on a target and the cache of
whether a target has rules at all.
-/

namespace ArtifactKeeper.PermissionCache

open CachedReads Network

/-- What the queries read besides the rules. -/
structure Config where
  groups : ℕ → List ℕ
  projectId : ℕ → Option ℕ

inductive PrincipalType
  | user
  | serviceAccount
  | group
  | anonymous
  deriving DecidableEq

structure Cidr where
  network : IpAddr
  bits : ℕ
  deriving DecidableEq

structure Rule where
  principalType : PrincipalType
  principalId : ℕ
  targetType : Text
  targetId : ℕ
  actions : List Text
  allowedCidrs : Option (List Cidr)
  deriving DecidableEq

structure PermissionRow extends Rule where
  id : ℕ
  deriving DecidableEq

/-- The columns of the unique constraint agree. -/
def Rule.clashes (a b : Rule) : Bool :=
  a.principalType = b.principalType && a.principalId = b.principalId &&
    a.targetType = b.targetType && a.targetId = b.targetId

/-! ### Queries -/

structure CacheKey where
  userId : ℕ
  targetType : Text
  targetId : ℕ
  clientIp : Option IpAddr
  deriving DecidableEq

structure RulesCacheKey where
  targetType : Text
  targetId : ℕ
  deriving DecidableEq

def repository : Text := "repository"

def project : Text := "project"

variable (cfg : Config) (rule : Rule)

def Rule.isOn (targetType : Text) (targetId : ℕ) : Bool :=
  rule.targetType = targetType && rule.targetId = targetId ||
    targetType = repository && rule.targetType = project &&
      cfg.projectId targetId = some rule.targetId

def Rule.names (userId : ℕ) : Bool :=
  match rule.principalType with
  | .user | .serviceAccount => rule.principalId = userId
  | .group => rule.principalId ∈ cfg.groups userId
  | .anonymous => false

/-- `ip_condition_expr`: an unknown address is in no range. -/
def Rule.ipOk (clientIp : Option IpAddr) : Bool :=
  match rule.allowedCidrs with
  | none => true
  | some cidrs => clientIp.any fun ip => cidrs.any fun cidr => Within cidr.network cidr.bits ip

abbrev Table := List PermissionRow

def queryActions (key : CacheKey) (table : Table) : List Text :=
  ((table.filter fun row =>
    row.names cfg key.userId && row.isOn cfg key.targetType key.targetId &&
      row.ipOk key.clientIp).flatMap fun row => row.actions).dedup

def queryRules (key : RulesCacheKey) (table : Table) : Bool :=
  table.any fun row => row.isOn cfg key.targetType key.targetId

/-- A call of `check_permission` or `has_any_rules_for_target`. -/
inductive Call
  | checkPermission (key : CacheKey) (action : Text) (isAdmin : Bool)
  | hasAnyRulesForTarget (key : RulesCacheKey)
  deriving DecidableEq

/-- What `check_permission` makes of the actions. -/
def grants (action : Text) (actions : List Text) : Bool := actions.any (· = action)

def Call.answer (call : Call) (table : Table) : Bool :=
  match call with
  | .checkPermission key action isAdmin => isAdmin || grants action (queryActions cfg key table)
  | .hasAnyRulesForTarget key => queryRules cfg key table

/-! ### The store -/

/-- A call under way, with the newest write that had returned when it started. -/
structure Check where
  call : Call
  floor : ℕ
  deriving DecidableEq

structure Store where
  permissions : Table
  cache : Cache CacheKey (List Text)
  rulesCache : Cache RulesCacheKey Bool
  now : ℤ
  past : List Table
  actionsCleared : ℕ
  rulesCleared : ℕ
  returned : ℕ
  answers : List (Check × Bool)

variable (st : Store)

def Store.version : ℕ := st.past.length

def Store.states : List Table := st.past ++ [st.permissions]

def cacheTtl : ℤ := 30 * 1000000000

inductive Effect
  | none
  | tick (elapsed : ℕ)
  | answer (check : Check) (result : Bool)
  | insertActions (key : CacheKey) (actions : List Text) (check : Check) (result : Bool)
  | insertRules (key : RulesCacheKey) (exists_ : Bool) (check : Check)
  | commit (table : Table)
  | clearActions (version : ℕ)
  | clearRules (version : ℕ)
  | return_ (version : ℕ)

def Effect.apply : Effect → Store → Store
  | .none, st => st
  | .tick elapsed, st => { st with now := st.now + elapsed }
  | .answer check result, st => { st with answers := (check, result) :: st.answers }
  | .insertActions key actions check result, st =>
    { st with cache := st.cache.insert cacheTtl st.now key actions
              answers := (check, result) :: st.answers }
  | .insertRules key exists_ check, st =>
    { st with rulesCache := st.rulesCache.insert cacheTtl st.now key exists_
              answers := (check, exists_) :: st.answers }
  | .commit table, st => { st with permissions := table, past := st.past ++ [st.permissions] }
  | .clearActions version, st =>
    { st with cache := .empty, actionsCleared := max st.actionsCleared version }
  | .clearRules version, st =>
    { st with rulesCache := .empty, rulesCleared := max st.rulesCleared version }
  | .return_ version, st => { st with returned := max st.returned version }

/-! ### Checks and writes of permissions -/

inductive Request
  | idle
  | started (check : Check)
  | missed (check : Check)
  /-- The query saw the state with this number. -/
  | resolved (check : Check) (key : CacheKey) (action : Text) (actions : List Text) (version : ℕ)
  | probed (check : Check) (key : RulesCacheKey) (exists_ : Bool) (version : ℕ)
  /-- A write has committed the state with this number. -/
  | committed (version : ℕ)
  | actionsCleared (version : ℕ)
  | invalidated (version : ℕ)
  | finished
  deriving DecidableEq

inductive Action
  | tick (elapsed : ℕ)
  | drop
  | clearActions
  | clearRules
  | check (call : Call)
  | read
  | query
  | insert
  | createPermission (row : PermissionRow)
  | updatePermission (id : ℕ) (rule : Rule)
  | deletePermission (id : ℕ)
  | invalidate
  | return_

abbrev Statement := Outcome Request ℕ Effect

def proceed (next : Request) : Statement := ⟨[], .none, next⟩

/-- The fast path: administrators and current entries. -/
def read (check : Check) : Statement :=
  match check.call with
  | .checkPermission key action isAdmin =>
    if isAdmin then ⟨[], .answer check true, .finished⟩
    else match st.cache.get cacheTtl st.now key with
      | some actions => ⟨[], .answer check (grants action actions), .finished⟩
      | none => proceed (.missed check)
  | .hasAnyRulesForTarget key =>
    match st.rulesCache.get cacheTtl st.now key with
    | some exists_ => ⟨[], .answer check exists_, .finished⟩
    | none => proceed (.missed check)

def query (check : Check) : Statement :=
  match check.call with
  | .checkPermission key action _ =>
    proceed (.resolved check key action (queryActions cfg key st.permissions) st.version)
  | .hasAnyRulesForTarget key =>
    proceed (.probed check key (queryRules cfg key st.permissions) st.version)

def commit (table : Table) : Statement :=
  ⟨[], .commit table, .committed (st.version + 1)⟩

def createPermission (row : PermissionRow) : Statement :=
  if st.permissions.any fun other => other.id = row.id || other.clashes row.toRule then
    proceed .finished
  else commit st (row :: st.permissions)

def updatePermission (id : ℕ) (rule : Rule) : Statement :=
  if st.permissions.all (·.id ≠ id) then proceed .finished
  else if st.permissions.any fun other => other.id ≠ id && other.clashes rule then
    proceed .finished
  else commit st (st.permissions.map fun row => if row.id = id then ⟨rule, id⟩ else row)

def deletePermission (id : ℕ) : Statement :=
  if st.permissions.all (·.id ≠ id) then proceed .finished
  else commit st (st.permissions.filter (·.id ≠ id))

def code (q : Request) (a : Action) : Option Statement :=
  match a, q with
  | .tick elapsed, q => some ⟨[], .tick elapsed, q⟩
  | .drop, _ => some (proceed .finished)
  | .clearActions, q => some ⟨[], .clearActions 0, q⟩
  | .clearRules, q => some ⟨[], .clearRules 0, q⟩
  | .check call, .idle => some (proceed (.started ⟨call, st.returned⟩))
  | .read, .started check => some (read st check)
  | .query, .missed check => some (query cfg st check)
  | .insert, .resolved check key action actions _ =>
    some ⟨[], .insertActions key actions check (grants action actions), .finished⟩
  | .insert, .probed check key exists_ _ => some ⟨[], .insertRules key exists_ check, .finished⟩
  | .createPermission row, .idle => some (createPermission st row)
  | .updatePermission id rule, .idle => some (updatePermission st id rule)
  | .deletePermission id, .idle => some (deletePermission st id)
  | .invalidate, .committed version => some ⟨[], .clearActions version, .actionsCleared version⟩
  | .invalidate, .actionsCleared version => some ⟨[], .clearRules version, .invalidated version⟩
  | .return_, .invalidated version => some ⟨[], .return_ version, .finished⟩
  | _, _ => none

def service : Protocol Store Request ℕ Action Effect where
  holds _ := []
  apply := Effect.apply
  code := code cfg

open StepSystem List

/-! ### What a step does -/

def Call.isAdmin : Call → Bool
  | .checkPermission _ _ isAdmin => isAdmin
  | .hasAnyRulesForTarget _ => false

variable (cfg : Config) (st : Store) in
inductive Does : Request → Action → Effect → Request → Prop
  | tick (q : Request) (elapsed : ℕ) : Does q (.tick elapsed) (.tick elapsed) q
  | stop (q : Request) (a : Action) : Does q a .none .finished
  | flushActions (q : Request) : Does q .clearActions (.clearActions 0) q
  | flushRules (q : Request) : Does q .clearRules (.clearRules 0) q
  | start (call : Call) : Does .idle (.check call) .none (.started ⟨call, st.returned⟩)
  | admin {check : Check} {key : CacheKey} {action : Text}
      (call : check.call = .checkPermission key action true) :
      Does (.started check) .read (.answer check true) .finished
  | serveActions {check : Check} {key : CacheKey} {action : Text} {actions : List Text}
      (call : check.call = .checkPermission key action false)
      (hit : st.cache.get cacheTtl st.now key = some actions) :
      Does (.started check) .read (.answer check (grants action actions)) .finished
  | serveRules {check : Check} {key : RulesCacheKey} {exists_ : Bool}
      (call : check.call = .hasAnyRulesForTarget key)
      (hit : st.rulesCache.get cacheTtl st.now key = some exists_) :
      Does (.started check) .read (.answer check exists_) .finished
  | miss {check : Check} (call : check.call.isAdmin = false) :
      Does (.started check) .read .none (.missed check)
  | resolve {check : Check} {key : CacheKey} {action : Text} {isAdmin : Bool}
      (call : check.call = .checkPermission key action isAdmin) :
      Does (.missed check) .query .none
        (.resolved check key action (queryActions cfg key st.permissions) st.version)
  | probe {check : Check} {key : RulesCacheKey} (call : check.call = .hasAnyRulesForTarget key) :
      Does (.missed check) .query .none
        (.probed check key (queryRules cfg key st.permissions) st.version)
  | insertActions (check : Check) (key : CacheKey) (action : Text) (actions : List Text)
      (version : ℕ) :
      Does (.resolved check key action actions version) .insert
        (.insertActions key actions check (grants action actions)) .finished
  | insertRules (check : Check) (key : RulesCacheKey) (exists_ : Bool) (version : ℕ) :
      Does (.probed check key exists_ version) .insert
        (.insertRules key exists_ check) .finished
  | commit (a : Action) (table : Table) : Does .idle a (.commit table) (.committed (st.version + 1))
  | clearActions (version : ℕ) :
      Does (.committed version) .invalidate (.clearActions version) (.actionsCleared version)
  | clearRules (version : ℕ) :
      Does (.actionsCleared version) .invalidate (.clearRules version) (.invalidated version)
  | return_ (version : ℕ) : Does (.invalidated version) .return_ (.return_ version) .finished

variable {cfg} {st}

theorem does_of_read (check : Check) :
    Does cfg st (.started check) .read (read st check).effect (read st check).next := by
  obtain ⟨call, _⟩ := check
  cases call with
  | checkPermission key _ isAdmin =>
    cases isAdmin with
    | true => exact .admin rfl
    | false =>
      simp only [read]
      cases hit : st.cache.get cacheTtl st.now key with
      | none => exact .miss rfl
      | some _ => exact .serveActions rfl hit
  | hasAnyRulesForTarget key =>
    simp only [read]
    cases hit : st.rulesCache.get cacheTtl st.now key with
    | none => exact .miss rfl
    | some _ => exact .serveRules rfl hit

theorem does_of_query (check : Check) :
    Does cfg st (.missed check) .query (query cfg st check).effect (query cfg st check).next := by
  obtain ⟨call, _⟩ := check
  cases call with
  | checkPermission => exact .resolve rfl
  | hasAnyRulesForTarget => exact .probe rfl

variable {q : Request} {a : Action}

theorem code_does {o : Statement} (coded : code cfg st q a = some o) :
    Does cfg st q a o.effect o.next := by
  rw [code.eq_def] at coded
  split at coded
  · cases coded; exact .tick _ _
  · cases coded; exact .stop _ _
  · cases coded; exact .flushActions _
  · cases coded; exact .flushRules _
  · cases coded; exact .start _
  · cases coded; exact does_of_read _
  · cases coded; exact does_of_query _
  · cases coded; exact .insertActions _ _ _ _ _
  · cases coded; exact .insertRules _ _ _ _
  · cases coded
    unfold createPermission
    split_ifs
    · exact .stop _ _
    · exact .commit _ _
  · cases coded
    unfold updatePermission
    split_ifs
    · exact .stop _ _
    · exact .stop _ _
    · exact .commit _ _
  · cases coded
    unfold deletePermission
    split_ifs
    · exact .stop _ _
    · exact .commit _ _
  · cases coded; exact .clearActions _
  · cases coded; exact .clearRules _
  · cases coded; exact .return_ _
  · cases coded

/-! ### What every step keeps -/

/-- The committed states stay, and the observed writes get newer. -/
structure Grows (st st' : Store) : Prop where
  states : ∃ more, st'.states = st.states ++ more
  version : st.version ≤ st'.version
  actionsCleared : st.actionsCleared ≤ st'.actionsCleared
  rulesCleared : st.rulesCleared ≤ st'.rulesCleared
  returned : st.returned ≤ st'.returned

theorem grows_apply (effect : Effect) (st : Store) : Grows st (effect.apply st) := by
  cases effect with
  | commit table =>
    exact ⟨⟨[table], rfl⟩, by simp [Store.version, Effect.apply], le_rfl, le_rfl, le_rfl⟩
  | clearActions => exact ⟨⟨[], (append_nil _).symm⟩, le_rfl, le_max_left _ _, le_rfl, le_rfl⟩
  | clearRules => exact ⟨⟨[], (append_nil _).symm⟩, le_rfl, le_rfl, le_max_left _ _, le_rfl⟩
  | return_ => exact ⟨⟨[], (append_nil _).symm⟩, le_rfl, le_rfl, le_rfl, le_max_left _ _⟩
  | none | tick | answer | insertActions | insertRules =>
    exact ⟨⟨[], (append_nil _).symm⟩, le_rfl, le_rfl, le_rfl, le_rfl⟩

variable {st' : Store} {floor : ℕ}

theorem Grows.since {A : Type} (h : Grows st st') {f : Table → A} {a : A}
    (found : Since st.states floor f a) : Since st'.states floor f a := by
  obtain ⟨more, states⟩ := h.states
  exact states ▸ found.append more

/-- What is read now is read from the newest state. -/
theorem since_version {A : Type} (f : Table → A) :
    Since st.states st.version f (f st.permissions) :=
  ⟨st.version, st.permissions, le_rfl, by simp [Store.states, Store.version], rfl⟩

/-! ### Entries and answers -/

structure Inv (cfg : Config) (st : Store) : Prop where
  actionsBound : st.returned ≤ st.actionsCleared ∧ st.actionsCleared ≤ st.version
  rulesBound : st.returned ≤ st.rulesCleared ∧ st.rulesCleared ≤ st.version
  cache : st.cache.All fun key actions =>
    Since st.states st.actionsCleared (queryActions cfg key) actions
  rulesCache : st.rulesCache.All fun key exists_ =>
    Since st.states st.rulesCleared (queryRules cfg key) exists_
  answers : ∀ a ∈ st.answers, Since st.states a.1.floor (a.1.call.answer cfg) a.2

def Assertion (cfg : Config) (st : Store) : Request → Prop
  | .started check => check.floor ≤ st.returned
  | .missed check => check.floor ≤ st.returned ∧ check.call.isAdmin = false
  | .resolved check key action actions version =>
    check.call = .checkPermission key action false ∧ check.floor ≤ version ∧
      Since st.states version (queryActions cfg key) actions
  | .probed check key exists_ version =>
    check.call = .hasAnyRulesForTarget key ∧ check.floor ≤ version ∧
      Since st.states version (queryRules cfg key) exists_
  | .committed version => version ≤ st.version
  | .actionsCleared version => version ≤ st.version ∧ version ≤ st.actionsCleared
  | .invalidated version => version ≤ st.actionsCleared ∧ version ≤ st.rulesCleared
  | .idle | .finished => True

theorem Assertion.grows (h : Assertion cfg st q) (grows : Grows st st') : Assertion cfg st' q := by
  cases q with
  | idle | finished => trivial
  | started => exact h.trans grows.returned
  | missed => exact ⟨h.1.trans grows.returned, h.2⟩
  | resolved | probed => exact ⟨h.1, h.2.1, grows.since h.2.2⟩
  | committed => exact h.trans grows.version
  | actionsCleared => exact ⟨h.1.trans grows.version, h.2.trans grows.actionsCleared⟩
  | invalidated => exact ⟨h.1.trans grows.actionsCleared, h.2.trans grows.rulesCleared⟩

/-- No write that is newer than a query has cleared the cache when its result is inserted. -/
def InTime (st : Store) : Request → Action → Prop
  | .resolved _ _ _ _ version, .insert => st.actionsCleared ≤ version
  | .probed _ _ _ version, .insert => st.rulesCleared ≤ version
  | _, _ => True

def Unraced (w : World Store Request ℕ) (e : ℕ × Action) : Prop :=
  InTime w.store (w.pool.proc e.1) e.2

variable {check : Check} {key : CacheKey} {actions : List Text}

theorem since_grants {action : Text} (call : check.call = .checkPermission key action false)
    (found : Since st.states floor (queryActions cfg key) actions) :
    Since st.states floor (check.call.answer cfg) (grants action actions) := by
  rw [call]
  exact found.map (grants action)

theorem since_rules {key : RulesCacheKey} {exists_ : Bool}
    (call : check.call = .hasAnyRulesForTarget key)
    (found : Since st.states floor (queryRules cfg key) exists_) :
    Since st.states floor (check.call.answer cfg) exists_ := by
  rw [call]
  exact found

section

variable (h : Inv cfg st)
include h

theorem Inv.answer {result : Bool}
    (right : Since st.states check.floor (check.call.answer cfg) result) :
    Inv cfg ((Effect.answer check result).apply st) := by
  refine ⟨h.actionsBound, h.rulesBound, h.cache, h.rulesCache, ?_⟩
  rintro a (_ | ⟨_, old⟩)
  · exact right
  · exact h.answers a old

theorem Inv.insertActions {result : Bool}
    (right : Since st.states check.floor (check.call.answer cfg) result)
    (new : Since st.states st.actionsCleared (queryActions cfg key) actions) :
    Inv cfg ((Effect.insertActions key actions check result).apply st) :=
  ⟨h.actionsBound, h.rulesBound, h.cache.insert new, h.rulesCache, (h.answer right).answers⟩

theorem Inv.insertRules {key : RulesCacheKey} {exists_ : Bool}
    (right : Since st.states check.floor (check.call.answer cfg) exists_)
    (new : Since st.states st.rulesCleared (queryRules cfg key) exists_) :
    Inv cfg ((Effect.insertRules key exists_ check).apply st) :=
  ⟨h.actionsBound, h.rulesBound, h.cache, h.rulesCache.insert new, (h.answer right).answers⟩

theorem Inv.commit (table : Table) : Inv cfg ((Effect.commit table).apply st) := by
  have grows := grows_apply (.commit table) st
  exact
    { actionsBound := ⟨h.actionsBound.1, h.actionsBound.2.trans grows.version⟩
      rulesBound := ⟨h.rulesBound.1, h.rulesBound.2.trans grows.version⟩
      cache := h.cache.mono fun _ _ found => grows.since found
      rulesCache := h.rulesCache.mono fun _ _ found => grows.since found
      answers := fun a mem => grows.since (h.answers a mem) }

variable {version : ℕ}

theorem Inv.clearActions (seen : version ≤ st.version) :
    Inv cfg ((Effect.clearActions version).apply st) :=
  ⟨⟨h.actionsBound.1.trans (le_max_left _ _), max_le h.actionsBound.2 seen⟩, h.rulesBound,
    Cache.all_empty, h.rulesCache, h.answers⟩

theorem Inv.clearRules (seen : version ≤ st.version) :
    Inv cfg ((Effect.clearRules version).apply st) :=
  ⟨h.actionsBound, ⟨h.rulesBound.1.trans (le_max_left _ _), max_le h.rulesBound.2 seen⟩,
    h.cache, Cache.all_empty, h.answers⟩

theorem Inv.return_ (actions : version ≤ st.actionsCleared) (rules : version ≤ st.rulesCleared) :
    Inv cfg ((Effect.return_ version).apply st) :=
  ⟨⟨max_le h.actionsBound.1 actions, h.actionsBound.2⟩,
    ⟨max_le h.rulesBound.1 rules, h.rulesBound.2⟩, h.cache, h.rulesCache, h.answers⟩

end

theorem Does.keeps {q' : Request} {effect : Effect} (does : Does cfg st q a effect q')
    (h : Inv cfg st) (mine : Assertion cfg st q) (inTime : InTime st q a) :
    Inv cfg (effect.apply st) ∧ Assertion cfg (effect.apply st) q' := by
  cases does with
  | tick => exact ⟨⟨h.1, h.2, h.3, h.4, h.5⟩, mine.grows (grows_apply (.tick _) st)⟩
  | stop => exact ⟨h, trivial⟩
  | flushActions => exact ⟨h.clearActions (Nat.zero_le _), mine.grows (grows_apply _ st)⟩
  | flushRules => exact ⟨h.clearRules (Nat.zero_le _), mine.grows (grows_apply _ st)⟩
  | start => exact ⟨h, le_rfl⟩
  | admin call =>
    refine ⟨h.answer ?_, trivial⟩
    have bound := mine.trans (h.actionsBound.1.trans h.actionsBound.2)
    have always := (since_version fun _ => true).weaken bound
    rw [call]
    exact always
  | serveActions call hit =>
    have floor := mine.trans h.actionsBound.1
    exact ⟨h.answer (since_grants call ((h.cache.get hit).weaken floor)), trivial⟩
  | serveRules call hit =>
    have floor := mine.trans h.rulesBound.1
    exact ⟨h.answer (since_rules call ((h.rulesCache.get hit).weaken floor)), trivial⟩
  | miss call => exact ⟨h, mine, call⟩
  | @resolve _ _ _ isAdmin call =>
    obtain ⟨floor, notAdmin⟩ := mine
    have bound := floor.trans (h.actionsBound.1.trans h.actionsBound.2)
    obtain rfl : isAdmin = false := by rwa [call] at notAdmin
    exact ⟨h, call, bound, since_version _⟩
  | probe call =>
    have bound := mine.1.trans (h.actionsBound.1.trans h.actionsBound.2)
    exact ⟨h, call, bound, since_version _⟩
  | insertActions =>
    obtain ⟨call, floor, found⟩ := mine
    exact ⟨h.insertActions (since_grants call (found.weaken floor)) (found.weaken inTime), trivial⟩
  | insertRules =>
    obtain ⟨call, floor, found⟩ := mine
    exact ⟨h.insertRules (since_rules call (found.weaken floor)) (found.weaken inTime), trivial⟩
  | commit => exact ⟨h.commit _, by simp [Assertion, Effect.apply, Store.version]⟩
  | clearActions => exact ⟨h.clearActions mine, mine, le_max_right _ _⟩
  | clearRules => exact ⟨h.clearRules mine.1, mine.2, le_max_right _ _⟩
  | return_ => exact ⟨h.return_ mine.1 mine.2, trivial⟩

theorem own : (service cfg).Own Unraced (Inv cfg) (Assertion cfg) := by
  intro w e o h unraced coded
  exact (code_does coded).keeps h.store (h.procs e.1) unraced

theorem others : (service cfg).Others Unraced (Inv cfg) (Assertion cfg) :=
  fun w _ o j h _ _ _ _ => (h.procs j).grows (grows_apply o.effect w.store)

/-- Nothing has been written or cached, and no request is under way. -/
def boot (table : Table) (now : ℤ) : World Store Request ℕ :=
  ⟨⟨table, .empty, .empty, now, [], 0, 0, 0, []⟩, .idle .idle⟩

variable (w : World Store Request ℕ)

def Initial : Prop := ∃ table now, w = boot table now

theorem holds_of_initial {w} (h : Initial w) : (service cfg).Holds (Inv cfg) (Assertion cfg) w := by
  obtain ⟨_, _, rfl⟩ := h
  exact ⟨⟨⟨le_rfl, le_rfl⟩, ⟨le_rfl, le_rfl⟩, Cache.all_empty, Cache.all_empty, nofun⟩,
    fun _ => trivial, Pool.coherent_idle _ rfl⟩

/-- In every run whose inserts are in time, each check is answered from a committed state of the
table that is no older than any write that had returned when the check started. -/
theorem checks_follow_writes (cfg : Config) {w}
    (reached : Reach (service cfg).step Initial Unraced w) {check : Check} {result : Bool}
    (answered : (check, result) ∈ w.store.answers) :
    Since w.store.states check.floor (check.call.answer cfg) result :=
  ((service cfg).invariant own others (fun _ h => holds_of_initial h) reached).store.answers
    _ answered

/-! ### A deleted rule -/

def noGroups : Config := ⟨fun _ => [], fun _ => none⟩

/-- User 1 may read repository 5. -/
def readRule : PermissionRow := ⟨⟨.user, 1, repository, 5, ["read"], none⟩, 9⟩

def mayRead : Call := .checkPermission ⟨1, repository, 5, none⟩ "read" false

def inTimeCheck (e : ℕ × Action) : Bool :=
  match w.pool.proc e.1, e.2 with
  | .resolved _ _ _ _ version, .insert => w.store.actionsCleared ≤ version
  | .probed _ _ _ version, .insert => w.store.rulesCleared ≤ version
  | _, _ => true

theorem unraced_of_check (w e) (h : inTimeCheck w e = true) : Unraced w e := by
  unfold inTimeCheck at h
  unfold Unraced InTime
  split at h <;> simp_all

def deletion : List (ℕ × Action) :=
  [(1, .deletePermission 9), (1, .invalidate), (1, .invalidate), (1, .return_)]

/-- The rule is cached, then deleted, and the next check is refused. -/
theorem checks_follow_deletion :
    ∃ w, Reach (service noGroups).step Initial Unraced w ∧ (⟨mayRead, 1⟩, false) ∈ w.store.answers ∧
      Since w.store.states 1 (mayRead.answer noGroups) false := by
  let events : List (ℕ × Action) :=
    [(0, .check mayRead), (0, .read), (0, .query), (0, .insert)] ++ deletion ++
      [(2, .check mayRead), (2, .read), (2, .query), (2, .insert)]
  obtain ⟨w, reached, answered⟩ :=
    Reach.exists_of_start (service noGroups).step Initial unraced_of_check (boot [readRule] 0)
      ⟨[readRule], 0, rfl⟩ events (fun w => (⟨mayRead, 1⟩, false) ∈ w.store.answers) (by decide)
  exact ⟨w, reached, answered, checks_follow_writes noGroups reached answered⟩

/-- A check queries before the deletion commits and inserts after its caches are cleared: a check
that starts after the deletion has returned is still answered with the deleted rule. -/
theorem deleted_permission_served :
    ∃ w, Reach (service noGroups).step Initial Any w ∧ (⟨mayRead, 1⟩, true) ∈ w.store.answers ∧
      ¬Since w.store.states 1 (mayRead.answer noGroups) true := by
  let events : List (ℕ × Action) :=
    [(0, .check mayRead), (0, .read), (0, .query)] ++ deletion ++
      [(0, .insert), (2, .check mayRead), (2, .read)]
  obtain ⟨w, reached, answered, states⟩ :=
    Reach.exists_of_free (service noGroups).step Initial (boot [readRule] 0) ⟨[readRule], 0, rfl⟩ events
      (fun w => (⟨mayRead, 1⟩, true) ∈ w.store.answers ∧
        w.store.states = [[readRule], []]) (by decide)
  refine ⟨w, reached, answered, ?_⟩
  rw [states]
  rintro ⟨v, _, _, here, granted⟩
  obtain ⟨below, rfl⟩ := List.getElem?_eq_some_iff.1 here
  obtain rfl : v = 1 := by simp at below; omega
  cases granted

end ArtifactKeeper.PermissionCache
