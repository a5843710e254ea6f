import ArtifactKeeper.UsageLedger.Booking

/-!
# Quotas

Every quota has a row that all publishes it concerns lock.  While a publish holds it, the usage it
has counted can only fall, by at least what the row it replaces loses.
-/

namespace ArtifactKeeper.UsageLedger

open Changes StepSystem List Option

variable (cfg : Config) (st : Store) (t : Txn) (q : Request) (p : Publish)

/-! ### What a publish knows -/

def Publish.key : Key := ⟨.hosted, p.repo, p.path⟩

/-- The new size fits once the row at the path is replaced. -/
def Room (l : Limit) : Prop :=
  st.load l.repos - weight (tally l.repos) p.key (st.tables.lookup p.key) + p.newSize ≤ l.quota

/-- The ledger charges no more than the live sums. -/
def Tight (r : ℕ) : Prop := ∀ c, st.charged r c ≤ st.live r c

/-- The ledger rows a publish has created were exact. -/
def Seeded : Prop := ∀ r, (t.ledger r).isSome → Tight st r

def ProjectLocked : Prop :=
  ∀ id quota, cfg.projectQuota p.repo = some (id, quota) → .project id ∈ t.locks

/-- A finite quota of the repository is counted under the lock of its ledger row. -/
def RepoCounted (repoTotal : Option ℤ) : Prop :=
  ∀ quota, finiteQuota (cfg.quotaBytes p.repo) = some quota →
    .ledger p.repo ∈ t.locks ∧ st.ledgerTotal p.repo ≤ repoTotal.getD 0

def ProjectCounted (sum : ℤ) : Prop :=
  ∀ id quota, cfg.projectQuota p.repo = some (id, quota) → st.load (cfg.members id) ≤ sum

/-- What the caller of a reconciliation knows. -/
def Backed (r : ℕ) : Return → Prop
  | .pass => ∀ c ∈ t.changes, Drops c
  | .repo p => t.changes = [] ∧ ProjectLocked cfg t p ∧ Seeded st t ∧ r = p.repo ∧ Tight st r
  | .sibling p repoTotal sum _ => t.changes = [] ∧ ProjectLocked cfg t p ∧
      RepoCounted cfg st t p repoTotal ∧ ProjectCounted cfg st p sum

/-- What a request knows between two statements. -/
def Careful : Prop :=
  match q.phase with
  | .idle => True
  | .writing => ∀ c ∈ q.txn.changes, Drops c
  | .reconciling r _ back => Backed cfg st q.txn r back
  | .checking p => q.txn.changes = [] ∧ ProjectLocked cfg q.txn p ∧ Seeded st q.txn
  | .counted p repoTotal => q.txn.changes = [] ∧ ProjectLocked cfg q.txn p ∧ Seeded st q.txn ∧
      RepoCounted cfg st q.txn p repoTotal
  | .seeding p repoTotal sum _ => q.txn.changes = [] ∧ ProjectLocked cfg q.txn p ∧
      RepoCounted cfg st q.txn p repoTotal ∧ ProjectCounted cfg st p sum
  | .summed p repoTotal projectTotal => q.txn.changes = [] ∧ ProjectLocked cfg q.txn p ∧
      RepoCounted cfg st q.txn p repoTotal ∧ ProjectCounted cfg st p (projectTotal.getD 0)
  | .admitted p => q.txn.changes = [] ∧
      ∀ l, cfg.Limits l → p.repo ∈ l.repos → l.guard ∈ q.txn.locks ∧ Room st p l
  | .published p => (∃ old row, q.txn.changes = [⟨p.key, old, some row⟩]) ∧
      ∀ l, cfg.Limits l → p.repo ∈ l.repos → l.guard ∈ q.txn.locks ∧
        st.load l.repos + deltas (tally l.repos) q.txn.changes ≤ l.quota

/-! ### Commits of others -/

/-- A transaction that may commit. -/
structure Closing : Prop where
  booked : q.txn.Booked st
  covered : Covered st
  settled : q.txn.queued = []
  careful : Careful cfg st q
  active : q.phase = .writing ∨ ∃ p, q.phase = .published p

variable {cfg st t q p} {t' : Txn}

section

variable {l : Limit} (closing : Closing cfg st q)
include closing

theorem Closing.deltas_le {repos : List ℕ}
    (outside : ∀ p, q.phase = .published p → p.repo ∉ repos) {f : Key → Row → ℤ}
    (part : PartOf repos f) : deltas f q.txn.changes ≤ 0 := by
  obtain ⟨_, t⟩ := q
  obtain ⟨-, -, -, careful, rfl | ⟨p, rfl⟩⟩ := closing
  · exact deltas_nonpos fun c mem => (careful c mem).delta_nonpos part
  · obtain ⟨⟨_, row, only⟩, -⟩ := careful
    have elsewhere : p.key.repo ∉ repos := outside p rfl
    have nothing (row : Option Row) : weight f p.key row = 0 := by
      cases row with
      | none => rfl
      | some row =>
        obtain ⟨low, high⟩ := part p.key row
        rw [tally, if_neg elsewhere] at high
        exact le_antisymm high low
    refine deltas_nonpos fun c mem => ?_
    rw [only, mem_singleton] at mem
    rw [mem, Change.delta, nothing, nothing]
    exact le_rfl

theorem Closing.outside (limits : cfg.Limits l) (unlocked : l.guard ∉ q.txn.locks) (p : Publish)
    (published : q.phase = .published p) : p.repo ∉ l.repos := by
  obtain ⟨_, t⟩ := q
  subst published
  exact fun mem => unlocked (closing.careful.2 l limits mem).1

theorem Closing.load (limits : cfg.Limits l) : (q.txn.commit st).load l.repos ≤
    st.load l.repos + deltas (tally l.repos) q.txn.changes :=
  load_commit closing.booked closing.covered closing.settled limits.nodup

theorem Closing.load_le (limits : cfg.Limits l) (unlocked : l.guard ∉ q.txn.locks) :
    (q.txn.commit st).load l.repos ≤ st.load l.repos := by
  have moved := closing.load limits
  have lower := closing.deltas_le (closing.outside limits unlocked) (partOf_tally _)
  omega

/-- It falls at least as far as the row that a publish is going to replace. -/
theorem Closing.room (limits : cfg.Limits l) (unlocked : l.guard ∉ q.txn.locks)
    (room : Room st p l) : Room (q.txn.commit st) p l := by
  have moved := closing.load limits
  have replaced : weight (tally l.repos) p.key ((q.txn.commit st).tables.lookup p.key) = _ :=
    weight_applyAll (tally l.repos) p.key closing.booked.valid
  have split (k : Key) (row : Row) : tally l.repos k row =
      (if k = p.key then tally l.repos k row else 0) +
        if k = p.key then 0 else tally l.repos k row := by
    split_ifs <;> simp
  have rest : PartOf l.repos fun k row => if k = p.key then 0 else tally l.repos k row := by
    intro k row
    have nonneg := tally_nonneg l.repos k row
    dsimp only
    split_ifs
    · exact ⟨le_rfl, nonneg⟩
    · exact ⟨nonneg, le_rfl⟩
  have lower := closing.deltas_le (closing.outside limits unlocked) rest
  rw [deltas_add split] at moved
  unfold Room at room ⊢
  rw [replaced]
  omega

theorem Closing.tight {r : ℕ} (tight : Tight st r) : Tight (q.txn.commit st) r := by
  intro c
  have moved := (commit_bounds closing.booked closing.covered closing.settled r c).2
  have := tight c
  rw [live_commit closing.booked.valid]
  omega

end

variable {l : Limit} {repoTotal : Option ℤ} {r : ℕ} {back : Return}

theorem Careful.of_commit {q' : Request} (careful : Careful cfg st q') (mover : Closing cfg st q)
    (apart : ∀ l ∈ q'.txn.locks, l ∉ q.txn.locks) : Careful cfg (q.txn.commit st) q' := by
  have repoCounted {p : Publish} {repoTotal : Option ℤ}
      (counted : RepoCounted cfg st q'.txn p repoTotal) :
      RepoCounted cfg (q.txn.commit st) q'.txn p repoTotal := by
    intro quota finite
    obtain ⟨locked, bound⟩ := counted quota finite
    have lower := mover.load_le (.repository finite) (apart _ locked)
    rw [load_singleton, load_singleton] at lower
    exact ⟨locked, lower.trans bound⟩
  have projectCounted {p : Publish} {sum : ℤ} (locked : ProjectLocked cfg q'.txn p)
      (counted : ProjectCounted cfg st p sum) : ProjectCounted cfg (q.txn.commit st) p sum := by
    intro id quota project
    exact (mover.load_le (.project (finite_of_projectQuota project))
      (apart _ (locked id quota project))).trans (counted id quota project)
  have seeded (known : Seeded st q'.txn) : Seeded (q.txn.commit st) q'.txn := fun r own =>
    mover.tight (known r own)
  obtain ⟨phase, t⟩ := q'
  cases phase with
  | idle => trivial
  | writing => exact careful
  | reconciling r _ back =>
    cases back with
    | pass => exact careful
    | repo =>
      obtain ⟨unchanged, locked, known, same, tight⟩ := careful
      exact ⟨unchanged, locked, seeded known, same, mover.tight tight⟩
    | sibling =>
      obtain ⟨unchanged, locked, repo, project⟩ := careful
      exact ⟨unchanged, locked, repoCounted repo, projectCounted locked project⟩
  | checking =>
    obtain ⟨unchanged, locked, known⟩ := careful
    exact ⟨unchanged, locked, seeded known⟩
  | counted =>
    obtain ⟨unchanged, locked, known, repo⟩ := careful
    exact ⟨unchanged, locked, seeded known, repoCounted repo⟩
  | seeding | summed =>
    obtain ⟨unchanged, locked, repo, project⟩ := careful
    exact ⟨unchanged, locked, repoCounted repo, projectCounted locked project⟩
  | admitted =>
    obtain ⟨unchanged, fits⟩ := careful
    refine ⟨unchanged, fun l limits mem => ?_⟩
    obtain ⟨locked, room⟩ := fits l limits mem
    exact ⟨locked, mover.room limits (apart _ locked) room⟩
  | published =>
    obtain ⟨only, fits⟩ := careful
    refine ⟨only, fun l limits mem => ?_⟩
    obtain ⟨locked, _⟩ := fits l limits mem
    have lower := mover.load_le limits (apart _ locked)
    exact ⟨locked, by omega⟩

/-! ### Statements of a publish -/

theorem charge_changes (t : Txn) (st : Store) (call : Call) (rest : List Call) :
    (t.charge st call rest).changes = t.changes := by
  unfold Txn.charge
  dsimp only
  split_ifs
  · rfl
  · split <;> rfl

theorem mem_locks_charge {l : Lock} (held : l ∈ t.locks) (call : Call) (rest : List Call) :
    l ∈ (t.charge st call rest).locks := by
  unfold Txn.charge
  dsimp only
  split_ifs
  · exact held
  · split
    · exact .tail _ held
    · exact held

theorem tight_of_missing (missing : t.row st r = none) : Tight st r := by
  have committed : st.ledger r = none := (or_eq_none_iff.1 missing).2
  intro c
  rw [Store.charged, committed]
  exact live_nonneg st r c

section

variable (h : t.Booked st) (settled : t.queued = []) (unchanged : t.changes = [])
  (seeded : Seeded st t)
include h settled unchanged seeded

/-- What a publish reads from the ledger is at least what is committed there. -/
theorem charged_le_row (r : ℕ) (c : Component) : st.charged r c ≤ (t.row st r).elim 0 (· c) := by
  cases own : t.ledger r with
  | none => rw [Txn.row, own, none_or]; exact le_rfl
  | some u =>
    have tallies := h.settled settled r
    rw [own, unchanged] at tallies
    have low := (tallies c).1
    have tight := seeded r (by rw [own]; rfl) c
    simp only [deltas, map_nil, sum_nil, add_zero] at low
    rw [Txn.row, own, some_or]
    exact tight.trans low

theorem ledgerTotal_le_row (r : ℕ) : st.ledgerTotal r ≤ (t.row st r).elim 0 Usage.total := by
  have hosted := charged_le_row h settled unchanged seeded r .hosted
  have proxy := charged_le_row h settled unchanged seeded r .proxy
  have oci := charged_le_row h settled unchanged seeded r .oci
  unfold Store.ledgerTotal Usage.total
  cases row : t.row st r with
  | none | some u =>
    rw [row] at hosted proxy oci
    simp only [Option.elim] at *
    omega

theorem load_le_ledgerBytes (repos : List ℕ) : st.load repos ≤ ledgerBytes st t repos :=
  sum_le_sum fun r _ => ledgerTotal_le_row h settled unchanged seeded r

end

/-- What a publish knows survives further locks. -/
theorem ProjectLocked.mono (locked : ProjectLocked cfg t p) (more : t.locks ⊆ t'.locks) :
    ProjectLocked cfg t' p :=
  fun id quota project => more (locked id quota project)

theorem RepoCounted.mono (counted : RepoCounted cfg st t p repoTotal)
    (more : t.locks ⊆ t'.locks) : RepoCounted cfg st t' p repoTotal :=
  fun quota finite => ⟨more (counted quota finite).1, (counted quota finite).2⟩

theorem Seeded.setLedger (seeded : Seeded st t) (tight : Tight st r) (u : Usage) :
    Seeded st (t.setLedger r u) := by
  intro s own
  by_cases same : s = r
  · rw [same]
    exact tight
  · refine seeded s ?_
    simpa only [Txn.setLedger, Function.update_of_ne same] using own

theorem insertLedger_cases (t : Txn) (st : Store) (r : ℕ) : t.insertLedger st r = t ∨
    t.row st r = none ∧ t.insertLedger st r = t.setLedger r fun _ => 0 := by
  unfold Txn.insertLedger
  split
  · exact .inl rfl
  · next missing => exact .inr ⟨missing, rfl⟩

theorem Backed.mono (backed : Backed cfg st t r back) (same : t'.changes = t.changes)
    (more : t.locks ⊆ t'.locks) (seeds : Tight st r → Seeded st t → Seeded st t') :
    Backed cfg st t' r back := by
  cases back with
  | pass => exact fun c mem => backed c (same ▸ mem)
  | repo =>
    obtain ⟨unchanged, locked, seeded, repo, tight⟩ := backed
    exact ⟨same.trans unchanged, locked.mono more, seeds tight seeded, repo, tight⟩
  | sibling =>
    obtain ⟨unchanged, locked, repo, project⟩ := backed
    exact ⟨same.trans unchanged, locked.mono more, repo.mono more, project⟩

theorem Backed.insertLedger (backed : Backed cfg st t r back) :
    Backed cfg st (t.insertLedger st r) r back := by
  rcases insertLedger_cases t st r with same | ⟨_, created⟩
  · rw [same]
    exact backed
  · rw [created]
    exact backed.mono rfl (subset_cons_self _ _) fun tight seeded => seeded.setLedger tight _

theorem liveSum_unchanged (h : t.Booked st) (unchanged : t.changes = []) (r : ℕ) (c : Component) :
    liveSum st t r c = st.live r c := by
  rw [h.liveSum_eq, unchanged]
  simp [deltas]

/-- The caller of a reconciliation counts with its total. -/
theorem Backed.resume {hosted proxy oci : ℤ} (h : t.Booked st)
    (summed : Summed st t r (.summed hosted proxy oci)) (backed : Backed cfg st t r back) :
    Careful cfg st ⟨back.resume (hosted + proxy + oci),
      t.setLedger r (columns hosted proxy oci)⟩ := by
  obtain ⟨-, rfl, rfl, rfl⟩ := summed
  have more (u : Usage) : t.locks ⊆ (t.setLedger r u).locks := subset_cons_self _ _
  cases back with
  | pass => exact backed
  | repo =>
    obtain ⟨unchanged, locked, seeded, rfl, tight⟩ := backed
    refine ⟨unchanged, locked.mono (more _), seeded.setLedger tight _, fun quota _ => ⟨.head _, ?_⟩⟩
    have hosted := tight .hosted
    have proxy := tight .proxy
    have oci := tight .oci
    rw [liveSum_unchanged h unchanged, liveSum_unchanged h unchanged, liveSum_unchanged h unchanged]
    simp only [Store.ledgerTotal, Usage.total, getD_some]
    omega
  | sibling =>
    obtain ⟨unchanged, locked, repo, project⟩ := backed
    refine ⟨unchanged, locked.mono (more _), repo.mono (more _), fun id quota found => ?_⟩
    have before := project id quota found
    have hosted := live_nonneg st r .hosted
    have proxy := live_nonneg st r .proxy
    have oci := live_nonneg st r .oci
    rw [liveSum_unchanged h unchanged, liveSum_unchanged h unchanged, liveSum_unchanged h unchanged]
    omega

/-! ### The decision -/

theorem pos_of_finiteQuota {quota : Option ℤ} {limit : ℤ} (finite : finiteQuota quota = some limit) :
    0 < limit := by
  simp only [finiteQuota, filter_eq_some_iff, decide_eq_true_eq] at finite
  exact finite.2

theorem quotaAllows_finite {quota : ℤ} (positive : 0 < quota) (usage additional : ℤ) :
    quotaAllows (some quota) usage additional = true ↔ usage + additional ≤ quota := by
  simp [quotaAllows, positive]

/-- An upload that is not refused adds nothing or fits under both quotas. -/
theorem quotaDenial_eq_none {repoQuota projectQuota : Option ℤ}
    {repoUsage projectUsage additional : ℤ}
    (allowed : quotaDenial repoQuota repoUsage projectQuota projectUsage additional = none) :
    additional ≤ 0 ∨ quotaAllows repoQuota repoUsage additional = true ∧
      quotaAllows projectQuota projectUsage additional = true := by
  unfold quotaDenial at allowed
  split_ifs at allowed with nothing repo project
  · exact .inl nothing
  · exact .inr ⟨by simpa using repo, by simpa using project⟩

/-- The bytes netted out are those of the row at the path. -/
theorem existingAtPath_eq (unchanged : t.changes = []) {repos : List ℕ} (mem : p.repo ∈ repos) :
    existingAtPath st t p = weight (tally repos) p.key (st.tables.lookup p.key) := by
  have view : t.view st = st.tables := by rw [Txn.view, unchanged]; rfl
  unfold existingAtPath
  rw [view]
  change (st.tables.lookup p.key).elim 0 _ = _
  cases st.tables.lookup p.key with
  | none => rfl
  | some _ => exact (if_pos mem).symm

theorem room_of_allowed {projectTotal : Option ℤ} (limited : Limited cfg st)
    (unchanged : t.changes = []) (repo : RepoCounted cfg st t p repoTotal)
    (project : ProjectCounted cfg st p (projectTotal.getD 0))
    (allowed : quotaDenial (finiteQuota (cfg.quotaBytes p.repo)) (repoTotal.getD 0)
      ((cfg.projectQuota p.repo).map Prod.snd) (projectTotal.getD 0)
      (p.newSize - existingAtPath st t p) = none) (limits : cfg.Limits l)
    (mem : p.repo ∈ l.repos) : Room st p l := by
  rw [existingAtPath_eq unchanged mem] at allowed
  unfold Room
  rcases quotaDenial_eq_none allowed with _ | ⟨repoFits, projectFits⟩
  · have within := limited l limits
    omega
  · rcases limits.of_mem mem with ⟨quota, finite, rfl⟩ | ⟨id, quota, found, rfl⟩
    · rw [finite, quotaAllows_finite (pos_of_finiteQuota finite)] at repoFits
      have counted := (repo quota finite).2
      rw [load_singleton]
      dsimp only at *
      omega
    · rw [found, map_some,
        quotaAllows_finite (pos_of_finiteQuota (finite_of_projectQuota found))] at projectFits
      have counted := project id quota found
      dsimp only at *
      omega

theorem guard_of_counted (repo : RepoCounted cfg st t p repoTotal)
    (locked : ProjectLocked cfg t p) (limits : cfg.Limits l) (mem : p.repo ∈ l.repos) :
    l.guard ∈ t.locks := by
  rcases limits.of_mem mem with ⟨quota, finite, rfl⟩ | ⟨id, quota, found, rfl⟩
  · exact (repo quota finite).1
  · exact locked id quota found

theorem load_upsert {old : Option Row} (storageKey : Text)
    (found : st.tables.lookup p.key = old) (mem : p.repo ∈ l.repos) (room : Room st p l) :
    st.load l.repos +
      deltas (tally l.repos) [⟨p.key, old, some ⟨p.newSize, false, storageKey⟩⟩] ≤ l.quota := by
  have size : tally l.repos p.key ⟨p.newSize, false, storageKey⟩ ≤ p.newSize := by
    unfold tally
    rw [if_pos (show p.key.repo ∈ l.repos from mem)]
    simp only [Publish.key, contribution]
    split_ifs <;> simp
  unfold Room at room
  rw [found] at room
  simp only [deltas, Change.delta, map_singleton, sum_singleton]
  have new : weight (tally l.repos) p.key (some ⟨p.newSize, false, storageKey⟩) =
      tally l.repos p.key ⟨p.newSize, false, storageKey⟩ := rfl
  omega

theorem Moves.careful {a : Action} {q' : Request} (moves : Moves cfg st q a q')
    (limited : Limited cfg st) (known : Accounted st q) (allowed : deletes st q a = true)
    (h : Careful cfg st q) : Careful cfg st q' := by
  cases moves with
  | reset => trivial
  | begin => exact nofun
  | missed | reconcile | sumHosted | sumProxy | sumOci | seeded | seed => exact h
  | change t _ old =>
    intro c mem
    rcases mem_append.1 mem with before | last
    · exact h c before
    · rw [mem_singleton.1 last]
      exact drops_of_deletes allowed old
  | move => cases allowed
  | fire _ t call rest _ active =>
    rcases active with rfl | ⟨p, rfl⟩
    · intro c mem
      exact h c (charge_changes t st call rest ▸ mem)
    · obtain ⟨only, fits⟩ := h
      refine ⟨(charge_changes t st call rest).symm ▸ only, fun l limits mem => ?_⟩
      obtain ⟨locked, bound⟩ := fits l limits mem
      exact ⟨mem_locks_charge locked call rest, (charge_changes t st call rest).symm ▸ bound⟩
  | insertRow => exact Backed.insertLedger h
  | lockRow => exact Backed.mono h rfl (subset_cons_self _ _) fun _ => id
  | writeRow => exact Backed.resume known.txn known.standing.2 h
  | unlimited t p repo project =>
    refine ⟨rfl, fun l limits mem => ?_⟩
    rcases limits.of_mem mem with ⟨_, finite, -⟩ | ⟨_, _, found, -⟩
    · rw [repo] at finite; cases finite
    · rw [project] at found; cases found
  | check t p project =>
    refine ⟨rfl, fun id quota found => ?_, nofun⟩
    rw [project] at found
    cases found
  | checkProject t p _ _ project =>
    refine ⟨rfl, fun id' quota' found => ?_, nofun⟩
    rw [project] at found
    cases found
    exact .head _
  | countRow t p u found =>
    obtain ⟨unchanged, locked, seeded⟩ := h
    have counted := ledgerTotal_le_row known.txn known.standing unchanged seeded p.repo
    rw [show t.row st p.repo = some u from found] at counted
    exact ⟨unchanged, locked.mono (subset_cons_self _ _), seeded, fun _ _ => ⟨.head _, counted⟩⟩
  | missing t p found =>
    obtain ⟨unchanged, locked, seeded⟩ := h
    exact ⟨unchanged, locked, seeded, rfl, tight_of_missing found⟩
  | uncounted t p repo =>
    obtain ⟨unchanged, locked, seeded⟩ := h
    refine ⟨unchanged, locked, seeded, fun quota finite => ?_⟩
    rw [repo] at finite
    cases finite
  | countProject t p _ _ _ project =>
    obtain ⟨unchanged, locked, seeded, repo⟩ := h
    refine ⟨unchanged, locked, repo, fun id' quota' found => ?_⟩
    rw [project] at found
    cases found
    exact load_le_ledgerBytes known.txn known.standing unchanged seeded _
  | noProject t p _ project =>
    obtain ⟨unchanged, locked, _, repo⟩ := h
    refine ⟨unchanged, locked, repo, fun id quota found => ?_⟩
    rw [project] at found
    cases found
  | allow t p _ _ decided =>
    obtain ⟨unchanged, locked, repo, project⟩ := h
    exact ⟨unchanged, fun l limits mem => ⟨guard_of_counted repo locked limits mem,
      room_of_allowed limited unchanged repo project decided limits mem⟩⟩
  | upsert t p old storageKey found =>
    obtain ⟨unchanged, fits⟩ := h
    have unchanged : t.changes = [] := unchanged
    have committed : st.tables.lookup p.key = old := by
      rw [Txn.view, unchanged] at found
      exact found
    have only : (t.change ⟨p.key, old, some ⟨p.newSize, false, storageKey⟩⟩).changes =
        [⟨p.key, old, some ⟨p.newSize, false, storageKey⟩⟩] := by
      simp only [Txn.change, unchanged, nil_append]
    refine ⟨⟨old, _, only⟩, fun l limits mem => ?_⟩
    obtain ⟨locked, room⟩ := fits l limits mem
    refine ⟨.tail _ locked, ?_⟩
    have bound := load_upsert storageKey committed mem room
    exact only.symm ▸ bound

theorem Closing.limited (closing : Closing cfg st q) (limited : Limited cfg st) :
    Limited cfg (q.txn.commit st) := by
  intro l limits
  have within := limited l limits
  have moved := closing.load limits
  by_cases inside : ∃ p, q.phase = .published p ∧ p.repo ∈ l.repos
  · obtain ⟨p, published, mem⟩ := inside
    obtain ⟨_, t⟩ := q
    subst published
    exact moved.trans (closing.careful.2 l limits mem).2
  · have lower := closing.deltas_le (fun p published mem => inside ⟨p, published, mem⟩)
      (partOf_tally _)
    omega

/-! ### Runs -/

/-- No transaction is open, the ledger is within the quotas and not below the live sums. -/
structure CoveredStart (cfg : Config) (w : World Store Request Lock) : Prop where
  idle : Idle w
  within : Within cfg w.store.ledgerTotal
  covered : Covered w.store

/-- After every commit the ledger is within all quotas, if it starts at or above the live sums. -/
theorem quotas_kept {w} (h : Reach (service cfg).step (CoveredStart cfg) PublishOrDelete w) :
    Within cfg w.store.ledgerTotal := by
  have known := h.strengthen fun v reached =>
    accounted (fun _ start => ⟨start.idle, start.covered⟩) reached
  suffices held : (service cfg).Holds (Limited cfg) (Careful cfg) w from
    within_iff_limited.2 held.store
  refine Protocol.invariant ?_ ?_ ?_ known
  · intro w e o before allowed coded
    obtain ⟨books, allowed⟩ := allowed
    rcases code_moves coded with ⟨nothing, moves⟩ | commits
    · rw [nothing]
      exact ⟨before.store, moves.careful before.store (books.procs e.1) allowed (before.procs e.1)⟩
    · rw [commits.effect, commits.next]
      exact ⟨Closing.limited ⟨(books.procs e.1).txn, books.store, commits.settled, before.procs e.1,
        commits.active⟩ before.store, trivial⟩
  · intro w e o j before allowed coded _ apart
    rcases code_moves coded with ⟨nothing, _⟩ | commits
    · rw [nothing]
      exact before.procs j
    · rw [commits.effect]
      exact (before.procs j).of_commit ⟨(allowed.1.procs e.1).txn, allowed.1.store, commits.settled,
        before.procs e.1, commits.active⟩ fun l held => (apart l held).2.2
  · intro w start
    exact .of_idle start.idle rfl (within_iff_limited.1 start.within) trivial

def capped : Config := ⟨[0], by decide, fun _ => some 100, fun _ => none, fun _ => false,
  fun _ => none⟩

/-- An artifact of 100 bytes that the ledger knows or does not know. -/
def fullStart (ledger : Option Usage) : World Store Request Lock :=
  ⟨⟨put ∅ ⟨.hosted, 0, []⟩ (some ⟨100, false, []⟩), fun r => if r = 0 then ledger else none⟩,
    .idle ⟨.idle, .fresh⟩⟩

theorem fullStart_live (ledger : Option Usage) (r : ℕ) (c : Component) :
    (fullStart ledger).store.live r c = if r = 0 ∧ c = .hosted then 100 else 0 := by
  have one : (fullStart ledger).store.live r c =
      charge r c ⟨.hosted, 0, []⟩ ⟨100, false, []⟩ + 0 := rfl
  rw [one, add_zero, charge]
  simp only [eq_comm (a := r), eq_comm (a := c)]
  rfl

theorem within_capped {used : ℕ → ℤ} (h : ∀ r, used r ≤ 100) : Within capped used where
  repository r quota finite := by
    cases (show some 100 = some quota from finite)
    exact h r
  project _ _ finite := nomatch finite

theorem fullStart_covered : CoveredStart capped (fullStart (some (columns 100 0 0))) where
  idle := rfl
  within := by
    refine within_capped fun r => ?_
    by_cases zero : r = 0
    · subst zero
      decide
    · simp [Store.ledgerTotal, Store.charged, Usage.total, fullStart, zero]
  covered r c := by
    rw [fullStart_live]
    by_cases zero : r = 0
    · subst zero
      cases c <;> decide
    · simp [Store.charged, fullStart, zero]

/-- A publish replaces the artifact by a smaller one, and the artifact is deleted. -/
theorem quotas_kept_replacement :
    ∃ w, Reach (service capped).step (CoveredStart capped) PublishOrDelete w ∧
      w.store.ledgerTotal 0 = 0 ∧ Within capped w.store.ledgerTotal := by
  obtain ⟨w, reached, ends⟩ :=
    Reach.exists_of_start (service capped).step _ (fun w e => @id (PublishOrDelete w e)) _ fullStart_covered
      [(0, .publish ⟨0, [], 80⟩), (0, .countRepo), (1, .begin), (0, .countProject),
        (0, .existingAtPath), (0, .upsert []), (0, .fire), (0, .commit),
        (1, .change ⟨.hosted, 0, []⟩ none), (1, .fire), (1, .commit)]
      (fun w => w.store.ledgerTotal 0 = 0) (by decide)
  exact ⟨w, reached, ends, quotas_kept reached⟩

/-- No transaction is open and the usage is within the quotas, by the ledger and by the rows. -/
structure WithinStart (cfg : Config) (w : World Store Request Lock) : Prop where
  idle : Idle w
  ledger : Within cfg w.store.ledgerTotal
  rows : Within cfg fun r => (w.store.live r).total

theorem fullStart_within : WithinStart capped (fullStart none) where
  idle := rfl
  ledger := by
    refine within_capped fun r => ?_
    simp [Store.ledgerTotal, Store.charged, Usage.total, fullStart]
  rows := by
    refine within_capped fun r => ?_
    simp only [Usage.total, fullStart_live]
    split_ifs <;> simp_all

/-- A publish that replaces an artifact in a repository without a ledger row creates the row.  The
delete of the artifact does not see that row and takes nothing off it, and the publish adds its
bytes on top of those it had counted as replaced. -/
theorem quota_exceeded_by_replacement :
    ∃ w, Reach (service capped).step (WithinStart capped) PublishOrDelete w ∧
      ¬Within capped w.store.ledgerTotal := by
  obtain ⟨w, reached, ends⟩ :=
    Reach.exists_of_start (service capped).step _ (fun w e => @id (PublishOrDelete w e)) _ fullStart_within
      [(0, .publish ⟨0, [], 100⟩), (0, .countRepo), (0, .insertRow), (0, .lockRow), (0, .sum),
        (0, .sum), (0, .sum), (0, .writeRow), (0, .countProject), (0, .existingAtPath),
        (1, .begin), (1, .change ⟨.hosted, 0, []⟩ none), (1, .fire), (1, .commit),
        (0, .upsert []), (0, .fire), (0, .commit)]
      (fun w => w.store.ledgerTotal 0 = 200) (by decide)
  refine ⟨w, reached, fun within => ?_⟩
  have bound := within.repository 0 100 rfl
  rw [ends] at bound
  exact absurd bound (by decide)

end ArtifactKeeper.UsageLedger
