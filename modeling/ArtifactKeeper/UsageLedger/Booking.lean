import ArtifactKeeper.UsageLedger.Requests
import Mathlib.Tactic.Linarith

/-!
# What a transaction has booked

The changes of a transaction are split into those whose ledger calls have run and the groups that
the queued calls still stand for (`Txn.Booked`).  A ledger row it has written lies between the live
sums and the committed counters, both moved by the booked changes; elsewhere these add up to
nothing.
-/

namespace ArtifactKeeper.UsageLedger

open Changes StepSystem List Option Function

variable {cfg : Config} {st : Store} {t t' : Txn} {q : Request}

/-! ### The calls of the triggers -/

def Books (call : Call) (cs : List (Change Key Row)) : Prop :=
  ∀ r c, (if call.repo = r then call.usage c else 0) = deltas (charge r c) cs

theorem trigger_eq (table : Component) : trigger table = ledgerTrigger table := by
  cases table <;> rfl

theorem delta_charge (r : ℕ) (c : Component) (k : Key) (old new : Option Row) :
    Change.delta (charge r c) ⟨k, old, new⟩ = if k.repo = r ∧ k.table = c then
      (new.elim 0 fun row => (contribution k.table row : ℤ)) -
        old.elim 0 fun row => (contribution k.table row : ℤ) else 0 := by
  cases old <;> cases new <;> simp only [Change.delta, weight, Option.elim, charge] <;>
    split_ifs <;> simp

theorem usage_eq (r repo : ℕ) (table c : Component) (delta : ℤ) :
    (if repo = r then (Call.mk repo table delta).usage c else 0) =
      if repo = r ∧ table = c then delta else 0 := by
  simp only [Call.usage]
  split_ifs <;> simp_all

variable {k : Key} {old new : Option Row}

theorem triggered_books (writes : old.isSome ∨ new.isSome) :
    ∃ call, triggered ⟨k, old, new⟩ = [call] ∧ Books call [⟨k, old, new⟩] := by
  have single (delta : ℤ) (same : delta = (new.elim 0 fun row => (contribution k.table row : ℤ)) -
      old.elim 0 fun row => (contribution k.table row : ℤ)) :
      Books ⟨k.repo, k.table, delta⟩ [⟨k, old, new⟩] := by
    intro r c
    rw [usage_eq, deltas, map_singleton, sum_singleton, delta_charge, same]
  unfold triggered
  rw [trigger_eq]
  cases old with
  | none =>
    cases new with
    | none => simp at writes
    | some _ => exact ⟨_, rfl, single _ (by simp)⟩
  | some before =>
    cases new with
    | none => exact ⟨_, rfl, single _ (by simp)⟩
    | some row =>
      refine ⟨⟨k.repo, k.table, contribution k.table row - contribution k.table before⟩, ?_,
        single _ rfl⟩
      simp [ledgerTrigger]

theorem moved_books (k : Key) (repo : ℕ) (name : Text) (old new : Row) :
    ∃ groups, Forall₂ Books (trigger k.table (some (k.repo, old)) (some (repo, new))) groups ∧
      groups.flatten = [⟨k, some old, none⟩, ⟨⟨k.table, repo, name⟩, none, some new⟩] := by
  rw [trigger_eq]
  unfold ledgerTrigger
  dsimp only
  split_ifs with moved
  · refine ⟨[[⟨k, some old, none⟩], [⟨⟨k.table, repo, name⟩, none, some new⟩]],
      .cons ?_ (.cons ?_ .nil), rfl⟩
    · intro r c
      rw [usage_eq, deltas, map_singleton, sum_singleton, delta_charge]
      simp
    · intro r c
      rw [usage_eq, deltas, map_singleton, sum_singleton, delta_charge]
      simp
  · have stays : repo = k.repo := not_not.1 moved
    refine ⟨[[⟨k, some old, none⟩, ⟨⟨k.table, repo, name⟩, none, some new⟩]], .cons ?_ .nil, rfl⟩
    intro r c
    rw [usage_eq, deltas, map_cons, map_singleton, sum_cons, sum_singleton,
      delta_charge, delta_charge, stays]
    simp only [Option.elim]
    split_ifs
    · omega
    · rfl

/-! ### Booked changes -/

/-- The ledger row a transaction has written, against the changes it has booked. -/
def Tallies (st : Store) (r : ℕ) (done : List (Change Key Row)) : Option Usage → Prop
  | none => ∀ c, deltas (charge r c) done = 0
  | some u => ∀ c, st.live r c + deltas (charge r c) done ≤ u c ∧
      u c ≤ st.charged r c + deltas (charge r c) done

structure Txn.Held (st : Store) (t : Txn) : Prop where
  valid : Valid st.tables t.changes
  rows : ∀ c ∈ t.changes, .row c.key ∈ t.locks
  ledgers : ∀ r, (t.ledger r).isSome → .ledger r ∈ t.locks

/-- The state of a transaction before its commit. -/
structure Txn.Booked (st : Store) (t : Txn) : Prop extends t.Held st where
  booked : ∃ done groups, t.changes = done ++ groups.flatten ∧
    Forall₂ Books t.queued groups ∧ ∀ r, Tallies st r done (t.ledger r)

/-- The ledger does not fall below the live sums. -/
def Covered (st : Store) : Prop := ∀ r c, st.live r c ≤ st.charged r c

theorem live_nonneg (st : Store) (r : ℕ) (c : Component) : 0 ≤ st.live r c :=
  total_nonneg (charge_nonneg r c) st.tables

theorem live_add_deltas_nonneg {cs ds : List (Change Key Row)} (valid : Valid st.tables (cs ++ ds))
    (r : ℕ) (c : Component) : 0 ≤ st.live r c + deltas (charge r c) cs := by
  have moved := total_applyAll (charge r c) (valid_append.1 valid).1
  have nonneg := total_nonneg (charge_nonneg r c) (applyAll st.tables cs)
  rw [moved] at nonneg
  exact nonneg

namespace Txn.Booked

theorem fresh (st : Store) : Txn.fresh.Booked st where
  valid := trivial
  rows := nofun
  ledgers := nofun
  booked := ⟨[], [], rfl, .nil, fun _ _ => rfl⟩

theorem lock (h : t.Booked st) (l : Lock) : (t.lock l).Booked st where
  valid := h.valid
  rows c mem := .tail _ (h.rows c mem)
  ledgers r written := .tail _ (h.ledgers r written)
  booked := h.booked

theorem settled (h : t.Booked st) (settled : t.queued = []) (r : ℕ) :
    Tallies st r t.changes (t.ledger r) := by
  obtain ⟨_, _, split, pending, tallies⟩ := h.booked
  rw [settled] at pending
  cases pending
  rw [split, flatten_nil, append_nil]
  exact tallies r

theorem change (h : t.Booked st) (found : (t.view st).lookup k = old)
    (writes : old.isSome ∨ new.isSome) :
    (t.change ⟨k, old, new⟩).Booked st where
  valid := valid_append.2 ⟨h.valid, found, trivial⟩
  rows c mem := by
    rcases mem_append.1 mem with before | last
    · exact .tail _ (h.rows c before)
    · rw [mem_singleton.1 last]
      exact .head _
  ledgers r written := .tail _ (h.ledgers r written)
  booked := by
    obtain ⟨done, groups, split, pending, tallies⟩ := h.booked
    obtain ⟨_, queued, books⟩ := triggered_books (k := k) writes
    refine ⟨done, groups ++ [[⟨k, old, new⟩]], ?_, ?_, tallies⟩
    · simp only [Txn.change, split, flatten_append, flatten_singleton, append_assoc]
    · simp only [Txn.change, queued]
      exact rel_append pending (.cons books .nil)

theorem move (h : t.Booked st) {repo : ℕ} {name : Text} {old new : Row}
    (found : (t.view st).lookup k = some old)
    (vacant : (t.view st).lookup ⟨k.table, repo, name⟩ = none) :
    (t.move k repo name old new).Booked st where
  valid := by
    refine valid_append.2 ⟨h.valid, found, ?_, trivial⟩
    rw [Change.apply, lookup_put]
    split_ifs
    · rfl
    · exact vacant
  rows c mem := by
    rcases mem_append.1 mem with before | last
    · exact .tail _ (.tail _ (h.rows c before))
    · rcases mem_cons.1 last with rfl | last
      · exact .tail _ (.head _)
      · rw [mem_singleton.1 last]
        exact .head _
  ledgers r written := .tail _ (.tail _ (h.ledgers r written))
  booked := by
    obtain ⟨done, groups, split, pending, tallies⟩ := h.booked
    obtain ⟨added, books, flat⟩ := moved_books k repo name old new
    refine ⟨done, groups ++ added, ?_, rel_append pending books, tallies⟩
    simp only [Txn.move, split, flatten_append, flat, append_assoc]

end Txn.Booked

/-! ### Ledger calls -/

variable {call : Call} {done : List (Change Key Row)}

theorem apply_some (moves : call.delta ≠ 0) (u : Usage) :
    akUsageLedgerApply call.usage (some u) = some fun c => max (u c + call.usage c) 0 := by
  have nonzero : ¬(call.usage .hosted = 0 ∧ call.usage .proxy = 0 ∧ call.usage .oci = 0) := by
    cases column : call.column <;> simp [Call.usage, column, moves]
  unfold akUsageLedgerApply
  rw [if_neg nonzero]
  split_ifs <;> rfl

theorem apply_none_of_pos (grows : 0 < call.delta) :
    akUsageLedgerApply call.usage none = some call.usage := by
  have nonzero : ¬(call.usage .hosted = 0 ∧ call.usage .proxy = 0 ∧ call.usage .oci = 0) := by
    cases column : call.column <;> simp [Call.usage, column, grows.ne']
  have nonneg : 0 ≤ call.usage .hosted ∧ 0 ≤ call.usage .proxy ∧ 0 ≤ call.usage .oci := by
    cases column : call.column <;> simp [Call.usage, column, grows.le]
  unfold akUsageLedgerApply
  rw [if_neg nonzero, if_pos nonneg]
  rfl

variable {r : ℕ}

theorem row_bounds (covered : Covered st) (tallies : Tallies st r done (t.ledger r)) :
    (∀ c, st.live r c + deltas (charge r c) done ≤ (t.row st r).elim 0 (· c)) ∧
      ∀ c, (t.row st r).elim 0 (· c) ≤ st.charged r c + deltas (charge r c) done := by
  cases own : t.ledger r with
  | some u =>
    rw [own] at tallies
    simp only [Txn.row, own]
    exact ⟨fun c => (tallies c).1, fun c => (tallies c).2⟩
  | none =>
    rw [own] at tallies
    have committed (c : Component) : (t.row st r).elim 0 (· c) = st.charged r c := by
      simp only [Txn.row, own, none_or, Store.charged]
    refine ⟨fun c => ?_, fun c => ?_⟩
    · rw [committed, tallies c, add_zero]
      exact covered r c
    · rw [committed, tallies c, add_zero]

/-- A call keeps the bounds: the floor at zero never acts, and only growth meets a missing row. -/
theorem tallies_charge {group rest : List (Change Key Row)}
    (covered : Covered st) (valid : Valid st.tables ((done ++ group) ++ rest))
    (books : Books call group) (before : Tallies st call.repo done (t.ledger call.repo))
    (moves : call.delta ≠ 0) :
    ∃ u, akUsageLedgerApply call.usage (t.row st call.repo) = some u ∧
      Tallies st call.repo (done ++ group) (some u) := by
  have amount (c : Component) : call.usage c = deltas (charge call.repo c) group := by
    rw [← books call.repo c, if_pos rfl]
  have floor (c : Component) : 0 ≤ st.live call.repo c + deltas (charge call.repo c) done +
      call.usage c := by
    have nonneg := live_add_deltas_nonneg valid call.repo c
    rw [deltas_append, ← amount] at nonneg
    omega
  obtain ⟨low, high⟩ := row_bounds covered before
  cases row : t.row st call.repo with
  | some v =>
    rw [row] at low high
    refine ⟨_, apply_some moves v, fun c => ?_⟩
    have := low c
    have := high c
    have := floor c
    simp only [Option.elim] at *
    rw [deltas_append, ← amount]
    omega
  | none =>
    rw [row] at low high
    have grows : 0 < call.delta := by
      have low := low call.column
      have floor := floor call.column
      simp only [Option.elim, Call.usage, if_pos] at low floor
      omega
    refine ⟨_, apply_none_of_pos grows, fun c => ?_⟩
    have := low c
    have := high c
    simp only [Option.elim] at *
    rw [deltas_append, ← amount]
    omega

theorem Tallies.of_books {group : List (Change Key Row)} {row : Option Usage}
    (h : Tallies st r done row) (books : Books call group)
    (other : call.repo ≠ r ∨ call.delta = 0) : Tallies st r (done ++ group) row := by
  have nothing (c : Component) : deltas (charge r c) group = 0 := by
    rw [← books r c]
    rcases other with other | zero
    · rw [if_neg other]
    · simp [Call.usage, zero]
  cases row with
  | none | some u =>
    intro c
    rw [deltas_append, nothing, add_zero]
    exact h c

namespace Txn.Booked

theorem setLedger (h : t.Held st) {u : Usage} {groups : List (List (Change Key Row))}
    (split : t.changes = done ++ groups.flatten) (pending : Forall₂ Books t.queued groups)
    (tallies : ∀ s, s ≠ r → Tallies st s done (t.ledger s)) (new : Tallies st r done (some u)) :
    (t.setLedger r u).Booked st where
  valid := h.valid
  rows c mem := .tail _ (h.rows c mem)
  ledgers s written := by
    by_cases same : s = r
    · rw [same]
      exact .head _
    · simp only [Txn.setLedger, update_of_ne same] at written
      exact .tail _ (h.ledgers s written)
  booked := by
    refine ⟨done, groups, split, pending, fun s => ?_⟩
    by_cases same : s = r
    · subst same
      simpa only [Txn.setLedger, update_self] using new
    · simpa only [Txn.setLedger, update_of_ne same] using tallies s same

theorem charge (h : t.Booked st) (covered : Covered st) {rest : List Call}
    (next : t.queued = call :: rest) : (t.charge st call rest).Booked st := by
  obtain ⟨done, groups, split, pending, tallies⟩ := h.booked
  rw [next] at pending
  cases pending with
  | @cons _ group _ groups books pending =>
  rw [flatten_cons, ← append_assoc] at split
  have others (s : ℕ) (ne : s ≠ call.repo) : Tallies st s (done ++ group) (t.ledger s) :=
    (tallies s).of_books books (.inl ne.symm)
  have held : Txn.Held st { t with queued := rest } := ⟨h.valid, h.rows, h.ledgers⟩
  unfold Txn.charge
  dsimp only
  split_ifs with zero
  · exact ⟨held, _, _, split, pending, fun s => (tallies s).of_books books (.inr zero)⟩
  · obtain ⟨u, applied, new⟩ :=
      tallies_charge covered (split ▸ h.valid) books (tallies call.repo) zero
    have popped : Txn.row { t with queued := rest } st call.repo = t.row st call.repo := rfl
    rw [popped, applied]
    exact setLedger held split pending others new

/-- A new row is created at zero where nothing is charged. -/
theorem insertLedger (h : t.Booked st) (covered : Covered st) (r : ℕ) :
    (t.insertLedger st r).Booked st := by
  unfold Txn.insertLedger
  split
  · exact h
  · next missing =>
    obtain ⟨_, _, split, pending, tallies⟩ := h.booked
    obtain ⟨low, high⟩ := row_bounds covered (tallies r)
    rw [missing] at low high
    exact setLedger h.toHeld split pending (fun s _ => tallies s) fun c => ⟨low c, high c⟩

theorem liveSum_eq (h : t.Booked st) (r : ℕ) (c : Component) :
    liveSum st t r c = st.live r c + deltas (UsageLedger.charge r c) t.changes :=
  total_applyAll _ h.valid

theorem writeLedger (h : t.Booked st) (covered : Covered st) (settled : t.queued = []) {u : Usage}
    (sums : ∀ c, u c = liveSum st t r c) : (t.setLedger r u).Booked st := by
  have split : t.changes = t.changes ++ ([] : List (List (Change Key Row))).flatten :=
    (append_nil _).symm
  refine setLedger h.toHeld split (settled ▸ .nil) (fun s _ => h.settled settled s) fun c => ?_
  rw [sums, h.liveSum_eq]
  have := covered r c
  omega

end Txn.Booked

/-! ### Commits -/

abbrev Txn.commit (t : Txn) (st : Store) : Store := (Effect.commit t.changes t.ledger).apply st

theorem live_commit (valid : Valid st.tables t.changes) (r : ℕ) (c : Component) :
    (t.commit st).live r c = st.live r c + deltas (charge r c) t.changes :=
  total_applyAll _ valid

theorem charged_commit (t : Txn) (st : Store) (r : ℕ) (c : Component) :
    (t.commit st).charged r c = (t.row st r).elim 0 (· c) := rfl

theorem commit_bounds (h : t.Booked st) (covered : Covered st) (settled : t.queued = []) (r : ℕ)
    (c : Component) : (t.commit st).live r c ≤ (t.commit st).charged r c ∧
      (t.commit st).charged r c ≤ st.charged r c + deltas (charge r c) t.changes := by
  obtain ⟨low, high⟩ := row_bounds covered (h.settled settled r)
  rw [live_commit h.valid, charged_commit]
  exact ⟨low c, high c⟩

theorem commit_unlocked (h : t.Booked st) (settled : t.queued = [])
    (unlocked : .ledger r ∉ t.locks) : t.ledger r = none ∧
      ∀ c, deltas (charge r c) t.changes = 0 := by
  have tallies := h.settled settled r
  cases own : t.ledger r with
  | some u => exact absurd (h.ledgers r (by rw [own]; rfl)) unlocked
  | none =>
    rw [own] at tallies
    exact ⟨rfl, tallies⟩

theorem Txn.Booked.of_commit (h : t.Booked st) (other : t'.Booked st) (settled : t'.queued = [])
    (apart : ∀ l ∈ t.locks, l ∉ t'.locks) : t.Booked (t'.commit st) where
  valid := by
    refine h.valid.congr fun c mem => lookup_applyAll_of_notMem fun written => ?_
    obtain ⟨d, mem', same⟩ := mem_map.1 written
    exact apart _ (h.rows c mem) (same ▸ other.rows d mem')
  rows := h.rows
  ledgers := h.ledgers
  booked := by
    obtain ⟨done, groups, split, pending, tallies⟩ := h.booked
    refine ⟨done, groups, split, pending, fun r => ?_⟩
    have before := tallies r
    cases own : t.ledger r with
    | none => rw [own] at before; exact before
    | some u =>
      rw [own] at before
      obtain ⟨unwritten, still⟩ :=
        commit_unlocked other settled (apart _ (h.ledgers r (by rw [own]; rfl)))
      intro c
      rw [live_commit other.valid, still, charged_commit, Txn.row, unwritten, none_or, add_zero]
      exact before c

/-! ### Reconciliations -/

/-- The sums a reconciliation has read so far. -/
def Summed (st : Store) (t : Txn) (r : ℕ) : Stage → Prop
  | .start | .inserted => True
  | .locked => .ledger r ∈ t.locks
  | .hosted h => .ledger r ∈ t.locks ∧ h = liveSum st t r .hosted
  | .proxied h p => .ledger r ∈ t.locks ∧ h = liveSum st t r .hosted ∧ p = liveSum st t r .proxy
  | .summed h p o => .ledger r ∈ t.locks ∧ h = liveSum st t r .hosted ∧
      p = liveSum st t r .proxy ∧ o = liveSum st t r .oci

/-- Between statements all triggers have run. -/
def Standing (st : Store) (q : Request) : Prop :=
  match q.phase with
  | .idle | .writing | .published _ => True
  | .reconciling r stage _ => q.txn.queued = [] ∧ Summed st q.txn r stage
  | .checking _ | .counted _ _ | .seeding _ _ _ _ | .summed _ _ _ | .admitted _ =>
    q.txn.queued = []

/-- What is known of a request at any time. -/
structure Accounted (st : Store) (q : Request) : Prop where
  txn : q.txn.Booked st
  standing : Standing st q

theorem insertLedger_queued (t : Txn) (st : Store) (r : ℕ) :
    (t.insertLedger st r).queued = t.queued := by
  unfold Txn.insertLedger
  split <;> rfl

theorem standing_resume {total : ℤ} (back : Return) (settled : t.queued = []) :
    Standing st ⟨back.resume total, t⟩ := by
  cases back with
  | pass => trivial
  | _ => exact settled

theorem liveSum_commit (h : t.Booked st) (other : t'.Booked st) (settled : t'.queued = [])
    (apart : ∀ l ∈ t.locks, l ∉ t'.locks) (locked : .ledger r ∈ t.locks) (c : Component) :
    liveSum (t'.commit st) t r c = liveSum st t r c := by
  obtain ⟨-, still⟩ := commit_unlocked other settled (apart _ locked)
  rw [(h.of_commit other settled apart).liveSum_eq, h.liveSum_eq, live_commit other.valid, still,
    add_zero]

theorem Accounted.of_commit (h : Accounted st q) (other : t'.Booked st) (settled : t'.queued = [])
    (apart : ∀ l ∈ q.txn.locks, l ∉ t'.locks) : Accounted (t'.commit st) q := by
  refine ⟨h.txn.of_commit other settled apart, ?_⟩
  have same {r : ℕ} (locked : .ledger r ∈ q.txn.locks) (c : Component) :=
    liveSum_commit h.txn other settled apart locked c
  obtain ⟨phase, t⟩ := q
  have standing := h.standing
  cases phase with
  | reconciling r stage =>
    refine ⟨standing.1, ?_⟩
    have summed := standing.2
    cases stage with
    | start | inserted => trivial
    | locked => exact summed
    | hosted => exact ⟨summed.1, by rw [same summed.1]; exact summed.2⟩
    | proxied => exact ⟨summed.1, by rw [same summed.1, same summed.1]; exact summed.2⟩
    | summed =>
      exact ⟨summed.1, by rw [same summed.1, same summed.1, same summed.1]; exact summed.2⟩
  | _ => exact standing

theorem Moves.accounted {a : Action} {q' : Request} (moves : Moves cfg st q a q')
    (covered : Covered st) (h : Accounted st q) : Accounted st q' := by
  obtain ⟨booked, standing⟩ := h
  cases moves with
  | reset | begin => exact ⟨.fresh st, trivial⟩
  | missed => exact ⟨booked, trivial⟩
  | change t _ _ _ found writes => exact ⟨booked.change found writes, trivial⟩
  | move t _ _ _ _ _ found vacant => exact ⟨booked.move found vacant, trivial⟩
  | fire _ t _ _ next active =>
    refine ⟨booked.charge covered next, ?_⟩
    rcases active with rfl | ⟨p, rfl⟩ <;> trivial
  | reconcile t r settled => exact ⟨booked, settled, trivial⟩
  | insertRow t r => 
    exact ⟨booked.insertLedger covered r, (insertLedger_queued t st r).trans standing.1, trivial⟩
  | lockRow => exact ⟨booked.lock _, standing.1, .head _⟩
  | sumHosted => exact ⟨booked, standing.1, standing.2, rfl⟩
  | sumProxy => exact ⟨booked, standing.1, standing.2.1, standing.2.2, rfl⟩
  | sumOci =>
    exact ⟨booked, standing.1, standing.2.1, standing.2.2.1, standing.2.2.2, rfl⟩
  | writeRow t r back =>
    obtain ⟨settled, -, hosted, proxy, oci⟩ := standing
    refine ⟨booked.writeLedger covered settled fun c => ?_, standing_resume back settled⟩
    cases c with
    | hosted => exact hosted
    | proxy => exact proxy
    | oci => exact oci
  | unlimited | check => exact ⟨.fresh st, rfl⟩
  | checkProject => exact ⟨(Txn.Booked.fresh st).lock _, rfl⟩
  | countRow => exact ⟨booked.lock _, standing⟩
  | missing | seed => exact ⟨booked, standing, trivial⟩
  | uncounted | countProject | noProject | seeded | allow => exact ⟨booked, standing⟩
  | upsert t p _ _ found => exact ⟨booked.change found (.inr rfl), trivial⟩

variable (w : World Store Request Lock)

def Idle : Prop := w.pool = .idle ⟨.idle, .fresh⟩

theorem accounted {init : World Store Request Lock → Prop}
    {ok : World Store Request Lock → ℕ × Action → Prop}
    (starts : ∀ w, init w → Idle w ∧ Covered w.store) {w}
    (h : Reach (service cfg).step init ok w) : (service cfg).Holds Covered Accounted w := by
  refine Protocol.invariant ?_ ?_ ?_ h
  · intro w e o before _ coded
    rcases code_moves coded with ⟨nothing, moves⟩ | commits
    · rw [nothing]
      exact ⟨before.store, moves.accounted before.store (before.procs e.1)⟩
    · rw [commits.effect, commits.next]
      refine ⟨fun r c => ?_, .fresh _, trivial⟩
      exact (commit_bounds (before.procs e.1).txn before.store commits.settled r c).1
  · intro w e o j before _ coded _ apart
    rcases code_moves coded with ⟨nothing, _⟩ | commits
    · rw [nothing]
      exact before.procs j
    · rw [commits.effect]
      exact (before.procs j).of_commit (before.procs e.1).txn commits.settled fun l held =>
        (apart l held).2.2
  · intro w initial
    obtain ⟨idle, covered⟩ := starts w initial
    exact .of_idle idle rfl covered ⟨.fresh _, trivial⟩

/-! ### Exactness of the ledger -/

def Exact (st : Store) : Prop := ∀ r c, st.charged r c = st.live r c

/-- No transaction is open and the ledger is exact. -/
structure ExactStart : Prop where
  idle : Idle w
  exact : Exact w.store

theorem exact_commit (h : t.Booked st) (settled : t.queued = []) (exact : Exact st) :
    Exact (t.commit st) := by
  intro r c
  obtain ⟨_, _⟩ := commit_bounds h (fun r c => (exact r c).ge) settled r c
  rw [live_commit h.valid] at *
  have := exact r c
  omega

/-- After every commit all components of the ledger equal the live sums. -/
theorem ledger_exact {w} (h : Reach (service cfg).step ExactStart Any w) : Exact w.store := by
  have known := h.strengthen fun v reached =>
    accounted (fun _ start => ⟨start.idle, fun r c => (start.exact r c).ge⟩) reached
  refine known.invariant (fun w start => start.exact) fun w e w' exact allowed taken => ?_
  obtain ⟨o, coded, -, -, rfl⟩ := Protocol.step_eq_some taken
  rcases code_moves coded with ⟨nothing, -⟩ | commits
  · rw [nothing]
    exact exact
  · rw [commits.effect]
    exact exact_commit (allowed.1.procs e.1).txn commits.settled exact

def emptyStart : World Store Request Lock := ⟨⟨∅, fun _ => none⟩, .idle ⟨.idle, .fresh⟩⟩

def unlimitedPair : Config := ⟨[0, 1], by decide, fun _ => none, fun _ => none, fun _ => false,
  fun _ => none⟩

theorem emptyStart_exact : ExactStart emptyStart := ⟨rfl, fun _ _ => rfl⟩

/-- A reconciliation between the insert of a row and its commit, and a move to another repository.
-/
theorem ledger_exact_moved : ∃ w, Reach (service unlimitedPair).step ExactStart Any w ∧
    w.store.charged 1 .hosted = 70 ∧ Exact w.store := by
  obtain ⟨w, reached, ends⟩ := Reach.exists_of_free (service unlimitedPair).step _ _ emptyStart_exact
      [(0, .begin), (0, .change ⟨.hosted, 0, []⟩ (some ⟨50, false, []⟩)),
        (1, .begin), (1, .reconcile 0), (1, .insertRow), (1, .lockRow), (1, .sum), (1, .sum),
        (1, .sum), (1, .writeRow), (1, .commit), (0, .fire), (0, .commit),
        (1, .begin), (1, .move ⟨.hosted, 0, []⟩ 1 [] ⟨70, false, []⟩), (1, .fire), (1, .fire),
        (1, .commit)] (fun w => w.store.charged 1 .hosted = 70) (by decide)
  exact ⟨w, reached, ends, ledger_exact reached⟩

/-! ### Limits on the ledger -/

open Bool

structure Within (cfg : Config) (used : ℕ → ℤ) : Prop where
  repository : ∀ r quota, finiteQuota (cfg.quotaBytes r) = some quota → used r ≤ quota
  project : ∀ id quota, finiteQuota (cfg.projectQuotaBytes id) = some quota →
    ((cfg.members id).map used).sum ≤ quota

def Store.ledgerTotal (st : Store) (r : ℕ) : ℤ := (st.charged r).total

/-- Writes outside publishes only delete or soft-delete artifact rows. -/
def deletes (st : Store) (q : Request) : Action → Bool
  | .change key new => key.table = .hosted && (new = none ||
      new = ((q.txn.view st).lookup key).map fun row => { row with isDeleted := true })
  | .move _ _ _ _ => false
  | _ => true

def PublishOrDelete (e : ℕ × Action) : Prop :=
  deletes w.store (w.pool.proc e.1) e.2 = true

/-! ### Limits -/

/-- A finite quota: the repositories whose usage it bounds and the row that publishes to them lock.
-/
structure Limit where
  repos : List ℕ
  guard : Lock
  quota : ℤ

inductive Config.Limits (cfg : Config) : Limit → Prop
  | repository {r : ℕ} {quota : ℤ} (finite : finiteQuota (cfg.quotaBytes r) = some quota) :
    cfg.Limits ⟨[r], .ledger r, quota⟩
  | project {id : ℕ} {quota : ℤ} (finite : finiteQuota (cfg.projectQuotaBytes id) = some quota) :
    cfg.Limits ⟨cfg.members id, .project id, quota⟩

/-- The ledger totals of some repositories, added up. -/
def Store.load (st : Store) (repos : List ℕ) : ℤ := (repos.map st.ledgerTotal).sum

def Limited (cfg : Config) (st : Store) : Prop := ∀ l, cfg.Limits l → st.load l.repos ≤ l.quota

theorem load_singleton (st : Store) (r : ℕ) : st.load [r] = st.ledgerTotal r := sum_singleton

theorem load_cons (st : Store) (r : ℕ) (repos : List ℕ) :
    st.load (r :: repos) = st.ledgerTotal r + st.load repos := sum_cons

theorem within_iff_limited : Within cfg st.ledgerTotal ↔ Limited cfg st := by
  constructor
  · rintro ⟨repository, project⟩ l (finite | finite)
    · rw [load_singleton]
      exact repository _ _ finite
    · exact project _ _ finite
  · refine fun limited => ⟨fun r quota finite => ?_, fun id quota finite =>
      limited _ (.project finite)⟩
    rw [← load_singleton]
    exact limited _ (.repository finite)

theorem Config.Limits.nodup {l : Limit} (limits : cfg.Limits l) : l.repos.Nodup := by
  cases limits with
  | repository => exact nodup_singleton _
  | project => exact cfg.distinct.filter _

theorem finite_of_projectQuota {id : ℕ} {quota : ℤ}
    (project : cfg.projectQuota r = some (id, quota)) :
    finiteQuota (cfg.projectQuotaBytes id) = some quota := by
  simp only [Config.projectQuota, bind_eq_some_iff, map_eq_some_iff] at project
  obtain ⟨_, -, _, finite, rfl, rfl⟩ := project
  exact finite

theorem Config.Limits.of_mem {l : Limit} (limits : cfg.Limits l) (mem : r ∈ l.repos) :
    (∃ quota, finiteQuota (cfg.quotaBytes r) = some quota ∧ l = ⟨[r], .ledger r, quota⟩) ∨
      ∃ id quota, cfg.projectQuota r = some (id, quota) ∧
        l = ⟨cfg.members id, .project id, quota⟩ := by
  cases limits with
  | repository finite =>
    obtain rfl := mem_singleton.1 mem
    exact .inl ⟨_, finite, rfl⟩
  | @project id quota finite =>
    refine .inr ⟨id, quota, ?_, rfl⟩
    have member := (mem_filter.1 mem).2
    simp only [and_eq_true, decide_eq_true_eq] at member
    simp [Config.projectQuota, member.1, finite]

/-! ### Usage of several repositories -/

def tally (repos : List ℕ) (k : Key) (row : Row) : ℤ :=
  if k.repo ∈ repos then contribution k.table row else 0

theorem tally_nonneg (repos : List ℕ) (k : Key) (row : Row) : 0 ≤ tally repos k row := by
  unfold tally
  split_ifs
  · exact Int.natCast_nonneg _
  · exact le_rfl

variable {repos : List ℕ}

theorem tally_cons (new : r ∉ repos) (k : Key) (row : Row) :
    tally (r :: repos) k row = tally [r] k row + tally repos k row := by
  unfold tally
  by_cases here : k.repo = r
  · simp [here, new]
  · simp [here]

theorem deltas_tally_singleton (r : ℕ) (cs : List (Change Key Row)) :
    deltas (tally [r]) cs = Usage.total fun c => deltas (charge r c) cs := by
  have split (k : Key) (row : Row) : tally [r] k row =
      charge r .hosted k row + (charge r .proxy k row + charge r .oci k row) := by
    unfold tally charge
    by_cases here : k.repo = r
    · cases table : k.table <;> simp [here]
    · simp [here]
  rw [deltas_add split, deltas_add fun k row => rfl]
  exact (Int.add_assoc _ _ _).symm

theorem load_commit (h : t.Booked st) (covered : Covered st) (settled : t.queued = [])
    (nodup : repos.Nodup) :
    (t.commit st).load repos ≤ st.load repos + deltas (tally repos) t.changes := by
  induction repos with
  | nil =>
    have none (k : Key) (row : Row) : tally [] k row = tally [] k row + tally [] k row := by
      simp [tally]
    have nothing := deltas_add none t.changes
    simp only [Store.load, map_nil]
    omega
  | cons r _ ih =>
    obtain ⟨new, nodup⟩ := nodup_cons.1 nodup
    have rest := ih nodup
    have one : (t.commit st).ledgerTotal r ≤ st.ledgerTotal r + deltas (tally [r]) t.changes := by
      have hosted := (commit_bounds h covered settled r .hosted).2
      have proxy := (commit_bounds h covered settled r .proxy).2
      have oci := (commit_bounds h covered settled r .oci).2
      rw [deltas_tally_singleton]
      simp only [Store.ledgerTotal, Usage.total]
      omega
    rw [load_cons, load_cons, deltas_add (tally_cons new)]
    omega

/-! ### Deletes -/

def Drops (c : Change Key Row) : Prop := ∀ row, c.new = some row → contribution c.key.table row = 0

def PartOf (repos : List ℕ) (f : Key → Row → ℤ) : Prop :=
  ∀ k row, 0 ≤ f k row ∧ f k row ≤ tally repos k row

theorem partOf_tally (repos : List ℕ) : PartOf repos (tally repos) :=
  fun k row => ⟨tally_nonneg repos k row, le_rfl⟩

theorem Drops.delta_nonpos {f : Key → Row → ℤ} {c : Change Key Row} (drops : Drops c)
    (part : PartOf repos f) : c.delta f ≤ 0 := by
  have old : 0 ≤ weight f c.key c.old := by
    cases c.old with
    | none => exact le_rfl
    | some row => exact (part c.key row).1
  have new : weight f c.key c.new ≤ 0 := by
    cases after : c.new with
    | none => exact le_rfl
    | some row =>
      refine (part c.key row).2.trans ?_
      simp [tally, drops row after]
  rw [Change.delta]
  omega

theorem drops_of_deletes {key : Key} (allowed : deletes st q (.change key new) = true)
    (old : Option Row) : Drops ⟨key, old, new⟩ := by
  simp only [deletes, and_eq_true, or_eq_true, decide_eq_true_eq] at allowed
  obtain ⟨hosted, rfl | soft⟩ := allowed
  · exact nofun
  · intro _ after
    simp only [soft, map_eq_some_iff] at after
    obtain ⟨_, -, rfl⟩ := after
    simp [hosted, contribution, Row.isHosted]

end ArtifactKeeper.UsageLedger
