import ArtifactKeeper.Library.Changes
import ArtifactKeeper.Library.Protocol

/-!
# The usage ledger

The rows of `artifacts`, `proxy_cache_artifacts` and `oci_blobs`, the triggers of migrations 182 and
288 that charge the `repository_usage_ledger` with every change of such a row, and the admission
rule of the storage quotas.
-/

namespace ArtifactKeeper.UsageLedger

open Changes

abbrev Text := List Char

/-- The columns `hosted_bytes`, `proxy_bytes` and `oci_bytes` of the ledger, one for each table. -/
inductive Component
  | hosted | proxy | oci
  deriving DecidableEq

/-- Bytes in each column of a ledger row. -/
abbrev Usage := Component → ℤ

def Usage.total (u : Usage) : ℤ := u .hosted + u .proxy + u .oci

/-! ### Rows -/

structure Key where
  table : Component
  repo : ℕ
  name : Text
  deriving DecidableEq

/-- The columns of a row that the triggers read; only `artifacts` has `is_deleted`. -/
structure Row where
  sizeBytes : ℕ
  isDeleted : Bool
  storageKey : Text
  deriving DecidableEq

def proxyCachePrefix : Text := ['p', 'r', 'o', 'x', 'y', '-', 'c', 'a', 'c', 'h', 'e', '/']

def ociManifestsPrefix : Text :=
  ['o', 'c', 'i', '-', 'm', 'a', 'n', 'i', 'f', 'e', 's', 't', 's', '/']

/-- Migration 288's counting rule. -/
def Row.isHosted (row : Row) : Bool :=
  !row.isDeleted && !proxyCachePrefix.isPrefixOf row.storageKey &&
    !ociManifestsPrefix.isPrefixOf row.storageKey

/-- The bytes a row of the table counts for. -/
def contribution : Component → Row → ℕ
  | .hosted, row => if row.isHosted then row.sizeBytes else 0
  | .proxy, row | .oci, row => row.sizeBytes

/-- What a row adds to a column of a repository. -/
def charge (r : ℕ) (c : Component) (k : Key) (row : Row) : ℤ :=
  if k.repo = r ∧ k.table = c then contribution k.table row else 0

theorem charge_nonneg (r : ℕ) (c : Component) (k : Key) (row : Row) : 0 ≤ charge r c k row := by
  unfold charge
  split_ifs
  · exact Int.natCast_nonneg _
  · exact le_rfl

/-! ### Triggers -/

/-- A call of `ak_usage_ledger_apply` that changes one column. -/
structure Call where
  repo : ℕ
  column : Component
  delta : ℤ
  deriving DecidableEq

def Call.usage (call : Call) : Usage := fun c => if c = call.column then call.delta else 0

/-- The row trigger of a table on an insert, a delete or an update, given the repository and the row
before and after: a row that moves is taken off its old repository and added to the new one. -/
def ledgerTrigger (column : Component) (old new : Option (ℕ × Row)) : List Call :=
  match old, new with
  | some old, none => [⟨old.1, column, -contribution column old.2⟩]
  | none, some new => [⟨new.1, column, contribution column new.2⟩]
  | some old, some new =>
    if new.1 ≠ old.1 then
      [⟨old.1, column, -contribution column old.2⟩, ⟨new.1, column, contribution column new.2⟩]
    else [⟨new.1, column, contribution column new.2 - contribution column old.2⟩]
  | none, none => []

def akUsageLedgerArtifacts : Option (ℕ × Row) → Option (ℕ × Row) → List Call :=
  ledgerTrigger .hosted

def akUsageLedgerProxyCache : Option (ℕ × Row) → Option (ℕ × Row) → List Call :=
  ledgerTrigger .proxy

def akUsageLedgerOciBlobs : Option (ℕ × Row) → Option (ℕ × Row) → List Call :=
  ledgerTrigger .oci

def trigger : Component → Option (ℕ × Row) → Option (ℕ × Row) → List Call
  | .hosted => akUsageLedgerArtifacts
  | .proxy => akUsageLedgerProxyCache
  | .oci => akUsageLedgerOciBlobs

def triggered (c : Change Key Row) : List Call :=
  trigger c.key.table (c.old.map (c.key.repo, ·)) (c.new.map (c.key.repo, ·))

/-- `ak_usage_ledger_apply` on the ledger row of the repository: growth creates a missing row,
shrinkage does not, and no column falls below zero. -/
def akUsageLedgerApply (delta : Usage) (row : Option Usage) : Option Usage :=
  if delta .hosted = 0 ∧ delta .proxy = 0 ∧ delta .oci = 0 then row
  else if 0 ≤ delta .hosted ∧ 0 ≤ delta .proxy ∧ 0 ≤ delta .oci then
    some (row.elim delta fun u c => max (u c + delta c) 0)
  else row.map fun u c => max (u c + delta c) 0

/-! ### The store -/

structure Store where
  tables : Table Key Row
  ledger : ℕ → Option Usage

/-- What the ledger says, a missing row counting as zero. -/
def Store.charged (st : Store) (r : ℕ) : Usage := fun c => (st.ledger r).elim 0 (· c)

/-- The live sums over the rows of the three tables. -/
def Store.live (st : Store) (r : ℕ) : Usage := fun c => total (charge r c) st.tables

/-! ### Quotas -/

structure Config where
  repos : List ℕ
  distinct : repos.Nodup
  quotaBytes : ℕ → Option ℤ
  projectId : ℕ → Option ℕ
  isVirtual : ℕ → Bool
  projectQuotaBytes : ℕ → Option ℤ

/-- A quota that is not positive means unlimited. -/
def finiteQuota (quota : Option ℤ) : Option ℤ := quota.filter fun q => decide (0 < q)

/-- The repositories that a project's usage adds up. -/
def Config.members (cfg : Config) (project : ℕ) : List ℕ :=
  cfg.repos.filter fun r => cfg.projectId r = some project && !cfg.isVirtual r

def Config.projectQuota (cfg : Config) (r : ℕ) : Option (ℕ × ℤ) :=
  (cfg.projectId r).bind fun project =>
    (finiteQuota (cfg.projectQuotaBytes project)).map fun quota => (project, quota)

inductive QuotaScope
  | repository | project
  deriving DecidableEq

def quotaAllows (quota : Option ℤ) (usage additional : ℤ) : Bool :=
  match quota with
  | some quota => if 0 < quota then usage + additional ≤ quota else true
  | none => true

/-- An upload that adds no bytes is never refused. -/
def quotaDenial (repoQuota : Option ℤ) (repoUsage : ℤ) (projectQuota : Option ℤ) (projectUsage : ℤ)
    (additional : ℤ) : Option QuotaScope :=
  if additional ≤ 0 then none
  else if !quotaAllows repoQuota repoUsage additional then some .repository
  else if !quotaAllows projectQuota projectUsage additional then some .project
  else none

/-! ### Transactions on the ledger and its source tables -/

inductive Lock
  | row (key : Key)
  | ledger (repo : ℕ)
  | project (id : ℕ)
  deriving DecidableEq

/-! ### Transactions -/

structure Txn where
  changes : List (Change Key Row)
  /-- Ledger calls of the triggers still to run. -/
  queued : List Call
  ledger : ℕ → Option Usage
  locks : List Lock

namespace Txn

def fresh : Txn := ⟨[], [], fun _ => none, []⟩

variable (t : Txn) (st : Store)

def view : Table Key Row := applyAll st.tables t.changes

def row (r : ℕ) : Option Usage := (t.ledger r).or (st.ledger r)

def lock (l : Lock) : Txn := { t with locks := l :: t.locks }

def setLedger (r : ℕ) (u : Usage) : Txn :=
  { t with ledger := Function.update t.ledger r (some u), locks := .ledger r :: t.locks }

def change (c : Change Key Row) : Txn :=
  { t with changes := t.changes ++ [c], queued := t.queued ++ triggered c
           locks := .row c.key :: t.locks }

/-- Move a row to another repository or name and queue the calls of its trigger. -/
def move (key : Key) (repo : ℕ) (name : Text) (old new : Row) : Txn :=
  { t with changes := t.changes ++ [⟨key, some old, none⟩, ⟨⟨key.table, repo, name⟩, none, some new⟩]
           queued := t.queued ++ trigger key.table (some (key.repo, old)) (some (repo, new))
           locks := .row ⟨key.table, repo, name⟩ :: .row key :: t.locks }

/-- Run a queued call.  A call without effect, or one that would shrink a missing row, locks
nothing. -/
def charge (call : Call) (rest : List Call) : Txn :=
  let t := { t with queued := rest }
  if call.delta = 0 then t
  else match akUsageLedgerApply call.usage (t.row st call.repo) with
    | some u => t.setLedger call.repo u
    | none => t

/-- `INSERT … ON CONFLICT DO NOTHING` of a ledger row. -/
def insertLedger (r : ℕ) : Txn :=
  match t.row st r with
  | some _ => t
  | none => t.setLedger r fun _ => 0

end Txn

/-! ### Requests -/

structure Publish where
  repo : ℕ
  path : Text
  newSize : ℕ
  deriving DecidableEq

/-- How far `reconcile_usage_ledger_in_tx` has come. -/
inductive Stage
  | start
  | inserted
  | locked
  | hosted (hosted : ℤ)
  | proxied (hosted proxy : ℤ)
  | summed (hosted proxy oci : ℤ)
  deriving DecidableEq

/-- What a reconciliation is part of. -/
inductive Return
  | pass
  | repo (p : Publish)
  | sibling (p : Publish) (repoTotal : Option ℤ) (total : ℤ) (unseeded : List ℕ)
  deriving DecidableEq

inductive Phase
  | idle
  | writing
  | reconciling (repo : ℕ) (stage : Stage) (back : Return)
  | checking (p : Publish)
  | counted (p : Publish) (repoTotal : Option ℤ)
  | seeding (p : Publish) (repoTotal : Option ℤ) (total : ℤ) (unseeded : List ℕ)
  | summed (p : Publish) (repoTotal projectTotal : Option ℤ)
  | admitted (p : Publish)
  | published (p : Publish)
  deriving DecidableEq

structure Request where
  phase : Phase
  txn : Txn

inductive Action
  | begin
  | change (key : Key) (new : Option Row)
  | move (key : Key) (repo : ℕ) (name : Text) (new : Row)
  | fire
  | reconcile (repo : ℕ)
  | insertRow
  | lockRow
  | sum
  | writeRow
  | publish (p : Publish)
  | countRepo
  | countProject
  | seed
  | existingAtPath
  | upsert (storageKey : Text)
  | commit
  | rollback

/-- Only a commit writes to the store. -/
inductive Effect
  | none
  | commit (changes : List (Change Key Row)) (ledger : ℕ → Option Usage)

def Effect.apply : Effect → Store → Store
  | .none, st => st
  | .commit changes ledger, st =>
    ⟨applyAll st.tables changes, fun r => (ledger r).or (st.ledger r)⟩

abbrev Statement := Outcome Request Lock Effect

def proceed (phase : Phase) (t : Txn) : Statement := ⟨[], .none, ⟨phase, t⟩⟩

/-! ### Statements -/

variable (cfg : Config) (st : Store) (t : Txn) (p : Publish)

/-- Insert, update or delete a row; there may be none to delete. -/
def change (key : Key) (new : Option Row) : Txn :=
  let old := (t.view st).lookup key
  if old = none ∧ new = none then t else t.change ⟨key, old, new⟩

/-- Update a row together with its unique key, which must be free. -/
def move (key : Key) (repo : ℕ) (name : Text) (new : Row) : Option Txn :=
  if (t.view st).lookup ⟨key.table, repo, name⟩ = none then
    ((t.view st).lookup key).map fun old => t.move key repo name old new
  else none

def fire : Option Txn :=
  match t.queued with
  | [] => none
  | call :: rest => some (t.charge st call rest)

/-- One sum of `reconcile_usage_ledger_in_tx`. -/
def liveSum (r : ℕ) (c : Component) : ℤ := total (charge r c) (t.view st)

def columns (hosted proxy oci : ℤ) : Usage
  | .hosted => hosted
  | .proxy => proxy
  | .oci => oci

/-- The caller of a reconciliation goes on with its total. -/
def Return.resume (total : ℤ) : Return → Phase
  | .pass => .writing
  | .repo p => .counted p (some total)
  | .sibling p repoTotal sum unseeded => .seeding p repoTotal (sum + total) unseeded

/-- `reconcile_usage_ledger_in_tx`: the row is locked before the source tables are read. -/
def reconcileUsageLedgerInTx (r : ℕ) (back : Return) : Stage → Action → Option Statement
  | .start, .insertRow => some (proceed (.reconciling r .inserted back) (t.insertLedger st r))
  | .inserted, .lockRow =>
    (t.row st r).map fun _ => proceed (.reconciling r .locked back) (t.lock (.ledger r))
  | .locked, .sum => some (proceed (.reconciling r (.hosted (liveSum st t r .hosted)) back) t)
  | .hosted h, .sum => some (proceed (.reconciling r (.proxied h (liveSum st t r .proxy)) back) t)
  | .proxied h p, .sum => some (proceed (.reconciling r (.summed h p (liveSum st t r .oci)) back) t)
  | .summed h p o, .writeRow =>
    some (proceed (back.resume (h + p + o)) (t.setLedger r (columns h p o)))
  | _, _ => none

/-- `check_quota_locked` reads the quotas and locks the project row if its quota is finite. -/
def checkQuotaLocked : Statement :=
  match finiteQuota (cfg.quotaBytes p.repo), cfg.projectQuota p.repo with
  | none, none => proceed (.admitted p) .fresh
  | some _, none => proceed (.checking p) .fresh
  | _, some (project, _) => proceed (.checking p) (Txn.fresh.lock (.project project))

/-- Lock the ledger row if the repository's quota is finite, and read it. -/
def countRepo : Statement :=
  match finiteQuota (cfg.quotaBytes p.repo) with
  | some _ =>
    match t.row st p.repo with
    | some u => proceed (.counted p (some u.total)) (t.lock (.ledger p.repo))
    | none => proceed (.reconciling p.repo .start (.repo p)) t
  | none => proceed (.counted p none) t

def ledgerBytes (repos : List ℕ) : ℤ :=
  (repos.map fun r => (t.row st r).elim 0 Usage.total).sum

variable (repoTotal : Option ℤ)

def projectLedgerRows : Statement :=
  match cfg.projectQuota p.repo with
  | some (project, _) =>
    proceed (.seeding p repoTotal (ledgerBytes st t (cfg.members project))
      ((cfg.members project).filter fun r => (t.row st r).isNone)) t
  | none => proceed (.summed p repoTotal none) t

/-- Members without a ledger row are reconciled one by one. -/
def seed (sum : ℤ) : List ℕ → Statement
  | [] => proceed (.summed p repoTotal (some sum)) t
  | r :: rest => proceed (.reconciling r .start (.sibling p repoTotal sum rest)) t

/-- The bytes charged for the row that the publish replaces. -/
def existingAtPath : ℤ :=
  ((t.view st).lookup ⟨.hosted, p.repo, p.path⟩).elim 0 fun row => contribution .hosted row

/-- The decision of `check_quota_locked`; a refused publish is rolled back. -/
def decideQuota (repoTotal projectTotal : Option ℤ) : Statement :=
  match quotaDenial (finiteQuota (cfg.quotaBytes p.repo)) (repoTotal.getD 0)
      ((cfg.projectQuota p.repo).map Prod.snd) (projectTotal.getD 0)
      (p.newSize - existingAtPath st t p) with
  | none => proceed (.admitted p) t
  | some _ => proceed .idle .fresh

def upsert (storageKey : Text) : Statement :=
  proceed (.published p)
    (change st t ⟨.hosted, p.repo, p.path⟩ (some ⟨p.newSize, false, storageKey⟩))

/-- Commit once all triggers have run. -/
def commit : Option Statement :=
  if t.queued = [] then some ⟨[], .commit t.changes t.ledger, ⟨.idle, .fresh⟩⟩ else none

def code (q : Request) (a : Action) : Option Statement :=
  match q.phase, a with
  | .idle, .begin => some (proceed .writing .fresh)
  | .idle, .publish p => some (checkQuotaLocked cfg p)
  | .idle, _ => none
  | _, .rollback => some (proceed .idle .fresh)
  | .writing, .change key new => some (proceed .writing (change st q.txn key new))
  | .writing, .move key repo name new =>
    (move st q.txn key repo name new).map (proceed .writing)
  | .writing, .fire => (fire st q.txn).map (proceed .writing)
  | .writing, .reconcile r =>
    if q.txn.queued = [] then some (proceed (.reconciling r .start .pass) q.txn) else none
  | .writing, .commit => commit q.txn
  | .reconciling r stage back, a => reconcileUsageLedgerInTx st q.txn r back stage a
  | .checking p, .countRepo => some (countRepo cfg st q.txn p)
  | .counted p repoTotal, .countProject => some (projectLedgerRows cfg st q.txn p repoTotal)
  | .seeding p repoTotal sum unseeded, .seed => some (seed q.txn p repoTotal sum unseeded)
  | .summed p repoTotal projectTotal, .existingAtPath =>
    some (decideQuota cfg st q.txn p repoTotal projectTotal)
  | .admitted p, .upsert storageKey => some (upsert st q.txn p storageKey)
  | .published p, .fire => (fire st q.txn).map (proceed (.published p))
  | .published _, .commit => commit q.txn
  | _, _ => none

def service : Protocol Store Request Lock Action Effect where
  holds q := q.txn.locks
  apply := Effect.apply
  code := code cfg

/-! ### What a statement of a transaction can do -/

open Option

variable {cfg} {st} {q : Request} {a : Action} {o : Statement}

variable (cfg : Config) (st : Store) in
/-- The statements that leave the store as it is. -/
inductive Moves : Request → Action → Request → Prop
  | reset (q : Request) (a : Action) : Moves q a ⟨.idle, .fresh⟩
  | begin (t : Txn) : Moves ⟨.idle, t⟩ .begin ⟨.writing, .fresh⟩
  | missed (t : Txn) (key : Key) (new : Option Row) :
    Moves ⟨.writing, t⟩ (.change key new) ⟨.writing, t⟩
  | change (t : Txn) (key : Key) (old new : Option Row) (found : (t.view st).lookup key = old)
      (writes : old.isSome ∨ new.isSome) :
    Moves ⟨.writing, t⟩ (.change key new) ⟨.writing, t.change ⟨key, old, new⟩⟩
  | move (t : Txn) (key : Key) (repo : ℕ) (name : Text) (old new : Row)
      (found : (t.view st).lookup key = some old)
      (vacant : (t.view st).lookup ⟨key.table, repo, name⟩ = none) :
    Moves ⟨.writing, t⟩ (.move key repo name new) ⟨.writing, t.move key repo name old new⟩
  | fire (phase : Phase) (t : Txn) (call : Call) (rest : List Call) (next : t.queued = call :: rest)
      (active : phase = .writing ∨ ∃ p, phase = .published p) :
    Moves ⟨phase, t⟩ .fire ⟨phase, t.charge st call rest⟩
  | reconcile (t : Txn) (r : ℕ) (settled : t.queued = []) :
    Moves ⟨.writing, t⟩ (.reconcile r) ⟨.reconciling r .start .pass, t⟩
  | insertRow (t : Txn) (r : ℕ) (back : Return) :
    Moves ⟨.reconciling r .start back, t⟩ .insertRow
      ⟨.reconciling r .inserted back, t.insertLedger st r⟩
  | lockRow (t : Txn) (r : ℕ) (back : Return) :
    Moves ⟨.reconciling r .inserted back, t⟩ .lockRow
      ⟨.reconciling r .locked back, t.lock (.ledger r)⟩
  | sumHosted (t : Txn) (r : ℕ) (back : Return) :
    Moves ⟨.reconciling r .locked back, t⟩ .sum
      ⟨.reconciling r (.hosted (liveSum st t r .hosted)) back, t⟩
  | sumProxy (t : Txn) (r : ℕ) (back : Return) (h : ℤ) :
    Moves ⟨.reconciling r (.hosted h) back, t⟩ .sum
      ⟨.reconciling r (.proxied h (liveSum st t r .proxy)) back, t⟩
  | sumOci (t : Txn) (r : ℕ) (back : Return) (h p : ℤ) :
    Moves ⟨.reconciling r (.proxied h p) back, t⟩ .sum
      ⟨.reconciling r (.summed h p (liveSum st t r .oci)) back, t⟩
  | writeRow (t : Txn) (r : ℕ) (back : Return) (h p o : ℤ) :
    Moves ⟨.reconciling r (.summed h p o) back, t⟩ .writeRow
      ⟨back.resume (h + p + o), t.setLedger r (columns h p o)⟩
  | unlimited (t : Txn) (p : Publish) (repo : finiteQuota (cfg.quotaBytes p.repo) = none)
      (project : cfg.projectQuota p.repo = none) :
    Moves ⟨.idle, t⟩ (.publish p) ⟨.admitted p, .fresh⟩
  | check (t : Txn) (p : Publish) (project : cfg.projectQuota p.repo = none) :
    Moves ⟨.idle, t⟩ (.publish p) ⟨.checking p, .fresh⟩
  | checkProject (t : Txn) (p : Publish) (id : ℕ) (quota : ℤ)
      (project : cfg.projectQuota p.repo = some (id, quota)) :
    Moves ⟨.idle, t⟩ (.publish p) ⟨.checking p, Txn.fresh.lock (.project id)⟩
  | countRow (t : Txn) (p : Publish) (u : Usage) (found : t.row st p.repo = some u) :
    Moves ⟨.checking p, t⟩ .countRepo
      ⟨.counted p (some u.total), t.lock (.ledger p.repo)⟩
  | missing (t : Txn) (p : Publish) (found : t.row st p.repo = none) :
    Moves ⟨.checking p, t⟩ .countRepo ⟨.reconciling p.repo .start (.repo p), t⟩
  | uncounted (t : Txn) (p : Publish) (repo : finiteQuota (cfg.quotaBytes p.repo) = none) :
    Moves ⟨.checking p, t⟩ .countRepo ⟨.counted p none, t⟩
  | countProject (t : Txn) (p : Publish) (repoTotal : Option ℤ) (id : ℕ) (quota : ℤ)
      (project : cfg.projectQuota p.repo = some (id, quota)) :
    Moves ⟨.counted p repoTotal, t⟩ .countProject
      ⟨.seeding p repoTotal (ledgerBytes st t (cfg.members id))
        ((cfg.members id).filter fun r => (t.row st r).isNone), t⟩
  | noProject (t : Txn) (p : Publish) (repoTotal : Option ℤ)
      (project : cfg.projectQuota p.repo = none) :
    Moves ⟨.counted p repoTotal, t⟩ .countProject ⟨.summed p repoTotal none, t⟩
  | seeded (t : Txn) (p : Publish) (repoTotal : Option ℤ) (sum : ℤ) :
    Moves ⟨.seeding p repoTotal sum [], t⟩ .seed ⟨.summed p repoTotal (some sum), t⟩
  | seed (t : Txn) (p : Publish) (repoTotal : Option ℤ) (sum : ℤ) (r : ℕ) (rest : List ℕ) :
    Moves ⟨.seeding p repoTotal sum (r :: rest), t⟩ .seed
      ⟨.reconciling r .start (.sibling p repoTotal sum rest), t⟩
  | allow (t : Txn) (p : Publish) (repoTotal projectTotal : Option ℤ)
      (allowed : quotaDenial (finiteQuota (cfg.quotaBytes p.repo)) (repoTotal.getD 0)
        ((cfg.projectQuota p.repo).map Prod.snd) (projectTotal.getD 0)
        (p.newSize - existingAtPath st t p) = none) :
    Moves ⟨.summed p repoTotal projectTotal, t⟩ .existingAtPath ⟨.admitted p, t⟩
  | upsert (t : Txn) (p : Publish) (old : Option Row) (storageKey : Text)
      (found : (t.view st).lookup ⟨.hosted, p.repo, p.path⟩ = old) :
    Moves ⟨.admitted p, t⟩ (.upsert storageKey) ⟨.published p,
      t.change ⟨⟨.hosted, p.repo, p.path⟩, old, some ⟨p.newSize, false, storageKey⟩⟩⟩

/-- A transaction is committed after its last ledger call. -/
structure Commits (q : Request) (o : Statement) : Prop where
  settled : q.txn.queued = []
  effect : o.effect = .commit q.txn.changes q.txn.ledger
  next : o.next = ⟨.idle, .fresh⟩
  active : q.phase = .writing ∨ ∃ p, q.phase = .published p

def Does (cfg : Config) (st : Store) (q : Request) (a : Action) (o : Statement) : Prop :=
  (o.effect = .none ∧ Moves cfg st q a o.next) ∨ Commits q o

theorem change_moves (key : Key) (new : Option Row) :
    Moves cfg st ⟨.writing, t⟩ (.change key new) ⟨.writing, change st t key new⟩ := by
  unfold change
  dsimp only
  split_ifs with nothing
  · exact .missed t key new
  · refine .change t key _ new rfl ?_
    cases found : (t.view st).lookup key with
    | some _ => exact .inl rfl
    | none =>
      cases new with
      | some _ => exact .inr rfl
      | none => exact absurd ⟨found, rfl⟩ nothing

variable {t} {t' : Txn}

theorem move_moves {key : Key} {repo : ℕ} {name : Text} {new : Row}
    (h : move st t key repo name new = some t') :
    Moves cfg st ⟨.writing, t⟩ (.move key repo name new) ⟨.writing, t'⟩ := by
  unfold move at h
  split_ifs at h with vacant
  obtain ⟨old, found, rfl⟩ := map_eq_some_iff.1 h
  exact .move t key repo name old new found vacant

theorem fire_moves {phase : Phase} (active : phase = .writing ∨ ∃ p, phase = .published p)
    (h : fire st t = some t') : Moves cfg st ⟨phase, t⟩ .fire ⟨phase, t'⟩ := by
  unfold fire at h
  split at h
  · cases h
  · next call rest next =>
    cases h
    exact .fire phase t call rest next active

theorem reconcile_moves {r : ℕ} {stage : Stage} {back : Return}
    (h : reconcileUsageLedgerInTx st t r back stage a = some o) :
    o.effect = .none ∧ Moves cfg st ⟨.reconciling r stage back, t⟩ a o.next := by
  revert h
  fun_cases reconcileUsageLedgerInTx st t r back stage a <;> intro h
  · cases h; exact ⟨rfl, .insertRow t r back⟩
  · obtain ⟨_, -, rfl⟩ := map_eq_some_iff.1 h
    exact ⟨rfl, .lockRow t r back⟩
  · cases h; exact ⟨rfl, .sumHosted t r back⟩
  · cases h; exact ⟨rfl, .sumProxy t r back _⟩
  · cases h; exact ⟨rfl, .sumOci t r back _ _⟩
  · cases h; exact ⟨rfl, .writeRow t r back _ _ _⟩
  · cases h

variable (t)

theorem checkQuotaLocked_moves :
    (checkQuotaLocked cfg p).effect = .none ∧
      Moves cfg st ⟨.idle, t⟩ (.publish p) (checkQuotaLocked cfg p).next := by
  unfold checkQuotaLocked
  split
  · next repo project => exact ⟨rfl, .unlimited t p repo project⟩
  · next project => exact ⟨rfl, .check t p project⟩
  · next project => exact ⟨rfl, .checkProject t p _ _ project⟩

theorem countRepo_moves :
    (countRepo cfg st t p).effect = .none ∧
      Moves cfg st ⟨.checking p, t⟩ .countRepo (countRepo cfg st t p).next := by
  unfold countRepo
  split
  · split
    · next u found => exact ⟨rfl, .countRow t p u found⟩
    · next found => exact ⟨rfl, .missing t p found⟩
  · next repo => exact ⟨rfl, .uncounted t p repo⟩

theorem projectLedgerRows_moves :
    (projectLedgerRows cfg st t p repoTotal).effect = .none ∧
      Moves cfg st ⟨.counted p repoTotal, t⟩ .countProject
        (projectLedgerRows cfg st t p repoTotal).next := by
  unfold projectLedgerRows
  split
  · next project => exact ⟨rfl, .countProject t p repoTotal _ _ project⟩
  · next project => exact ⟨rfl, .noProject t p repoTotal project⟩

theorem seed_moves (sum : ℤ) (unseeded : List ℕ) :
    (seed t p repoTotal sum unseeded).effect = .none ∧
      Moves cfg st ⟨.seeding p repoTotal sum unseeded, t⟩ .seed
        (seed t p repoTotal sum unseeded).next := by
  cases unseeded with
  | nil => exact ⟨rfl, .seeded t p repoTotal sum⟩
  | cons r rest => exact ⟨rfl, .seed t p repoTotal sum r rest⟩

theorem decideQuota_moves (projectTotal : Option ℤ) :
    (decideQuota cfg st t p repoTotal projectTotal).effect = .none ∧
      Moves cfg st ⟨.summed p repoTotal projectTotal, t⟩ .existingAtPath
        (decideQuota cfg st t p repoTotal projectTotal).next := by
  unfold decideQuota
  split
  · next allowed => exact ⟨rfl, .allow t p repoTotal projectTotal allowed⟩
  · exact ⟨rfl, .reset _ _⟩

theorem upsert_moves (storageKey : Text) :
    (upsert st t p storageKey).effect = .none ∧
      Moves cfg st ⟨.admitted p, t⟩ (.upsert storageKey) (upsert st t p storageKey).next := by
  have next : (upsert st t p storageKey).next = ⟨.published p, t.change
      ⟨⟨.hosted, p.repo, p.path⟩, (t.view st).lookup ⟨.hosted, p.repo, p.path⟩,
        some ⟨p.newSize, false, storageKey⟩⟩⟩ := by
    simp [upsert, proceed, change]
  rw [next]
  exact ⟨rfl, .upsert t p _ storageKey rfl⟩

theorem commit_commits (h : commit q.txn = some o)
    (active : q.phase = .writing ∨ ∃ p, q.phase = .published p) : Commits q o := by
  unfold commit at h
  split_ifs at h with settled
  cases h
  exact ⟨settled, rfl, rfl, active⟩

theorem code_moves (h : code cfg st q a = some o) : Does cfg st q a o := by
  obtain ⟨_, t⟩ := q
  simp only [code] at h
  -- the arms of `code`, in their order
  split at h
  · cases h; exact .inl ⟨rfl, .begin t⟩
  · cases h; exact .inl (checkQuotaLocked_moves t _)
  · cases h
  · cases h; exact .inl ⟨rfl, .reset _ _⟩
  · cases h; exact .inl ⟨rfl, change_moves t _ _⟩
  · obtain ⟨_, moved, rfl⟩ := map_eq_some_iff.1 h
    exact .inl ⟨rfl, move_moves moved⟩
  · obtain ⟨_, fired, rfl⟩ := map_eq_some_iff.1 h
    exact .inl ⟨rfl, fire_moves (.inl rfl) fired⟩
  · split_ifs at h with settled
    cases h
    exact .inl ⟨rfl, .reconcile t _ settled⟩
  · exact .inr (commit_commits h (.inl rfl))
  · exact .inl (reconcile_moves h)
  · cases h; exact .inl (countRepo_moves t _)
  · cases h; exact .inl (projectLedgerRows_moves t _ _)
  · cases h; exact .inl (seed_moves t _ _ _ _)
  · cases h; exact .inl (decideQuota_moves t _ _ _)
  · cases h; exact .inl (upsert_moves t _ _)
  · obtain ⟨_, fired, rfl⟩ := map_eq_some_iff.1 h
    exact .inl ⟨rfl, fire_moves (.inr ⟨_, rfl⟩) fired⟩
  · exact .inr (commit_commits h (.inr ⟨_, rfl⟩))
  · cases h

end ArtifactKeeper.UsageLedger
