import ArtifactKeeper.Library.StepSystem
import ArtifactKeeper.Library.Text
import Mathlib.Data.List.Pairwise

/-!
# Scheduler leases

The row of one job in `scheduler_leases` and the statements on it, in database time.  `leases` only
observes the run: a lease lasts from its grant until the expiry that was last stored under its token,
and an owner that acquires again gives its earlier leases up.
-/

namespace ArtifactKeeper.SchedulerLeases

open StepSystem Text List

structure Row where
  owner : Text
  token : ℕ
  expires : ℤ

variable (row : Option Row)

/-- The row that is written, if one is. -/
def tryAcquireSchedulerLease (now : ℤ) (owner : Text) (token : ℕ) (ttl : ℤ) : Option Row :=
  if row.all fun r => r.expires ≤ now || r.owner = owner then some ⟨owner, token, now + ttl⟩ else none

/-- The row after the statement and the expiry it returns. -/
def renewSchedulerLeaseByToken (now : ℤ) (token : ℕ) (ttl : ℤ) : Option Row × Option ℤ :=
  match row with
  | none => (none, none)
  | some r =>
    if r.token = token then (some { r with expires := now + ttl }, some (now + ttl)) else (some r, none)

structure SchedulerLease where
  token : ℕ
  expires : ℤ

def SchedulerLease.renew (lease : SchedulerLease) (row : Option Row) (now ttl : ℤ) :
    Option Row × SchedulerLease × Bool :=
  let (row, expires) := renewSchedulerLeaseByToken row now lease.token ttl
  (row, { lease with expires := expires.getD lease.expires }, expires.isSome)

def release (now : ℤ) (token : ℕ) : Option Row :=
  row.map fun r => if r.token = token then { r with expires := now } else r

/-! ### Runs -/

structure Lease where
  owner : Text
  token : ℕ
  start : ℤ
  stop : ℤ

structure State where
  now : ℤ
  row : Option Row
  leases : List Lease

/-- Both renewals run the same statement, one of them with the token of its handle. -/
inductive Call
  | tryAcquire (owner : Text) (token : ℕ) (ttl : ℤ)
  | renew (token : ℕ) (ttl : ℤ)
  | release (token : ℕ)

def Lease.giveUp (owner : Text) (now : ℤ) (l : Lease) : Lease :=
  if l.owner = owner then { l with stop := min l.stop now } else l

def Lease.lasting (token : ℕ) (expires : ℤ) (l : Lease) : Lease :=
  if l.token = token then { l with stop := expires } else l

variable (s : State)

def perform (now : ℤ) : Call → State
  | .tryAcquire owner token ttl =>
    match tryAcquireSchedulerLease s.row now owner token ttl with
    | some r => ⟨now, some r, ⟨owner, token, now, r.expires⟩ :: s.leases.map (.giveUp owner now)⟩
    | none => { s with now }
  | .renew token ttl =>
    match renewSchedulerLeaseByToken s.row now token ttl with
    | (row, some expires) => ⟨now, row, s.leases.map (.lasting token expires)⟩
    | (row, none) => ⟨now, row, s.leases⟩
  | .release token =>
    ⟨now, release s.row now token,
      if s.row.any (·.token = token) then s.leases.map (.lasting token now) else s.leases⟩

/-- Lease durations are positive, and `gen_random_uuid` draws no token twice. -/
def Call.valid : Call → Bool
  | .tryAcquire _ token ttl => 0 < ttl && s.leases.all (·.token ≠ token)
  | .renew _ ttl => 0 < ttl
  | .release _ => true

def step (e : ℤ × Call) : Option State :=
  if s.now ≤ e.1 ∧ e.2.valid s then some (perform s e.1 e.2) else none

def Initial : Prop := s.row = none ∧ s.leases = []

/-! ### Exclusion -/

/-- Of two leases the older one ends before the newer one starts. -/
def After (newer older : Lease) : Prop := older.stop ≤ newer.start ∧ older.token ≠ newer.token

/-- The newest lease is the one in the row. -/
inductive Inv : State → Prop
  | absent {now : ℤ} : Inv ⟨now, none, []⟩
  | held {now start : ℤ} {r : Row} {rest : List Lease} (started : start ≤ now)
      (older : ∀ l ∈ rest, After ⟨r.owner, r.token, start, r.expires⟩ l)
      (ordered : rest.Pairwise After) :
      Inv ⟨now, some r, ⟨r.owner, r.token, start, r.expires⟩ :: rest⟩

variable {s} {now : ℤ}

theorem Inv.ordered (inv : Inv s) : s.leases.Pairwise After := by
  cases inv with
  | absent => exact .nil
  | held _ older ordered => exact .cons older ordered

theorem Inv.mono (inv : Inv s) (later : s.now ≤ now) : Inv { s with now } := by
  cases inv with
  | absent => exact .absent
  | held started older ordered => exact .held (started.trans later) older ordered

theorem Inv.tryAcquire (inv : Inv s) (later : s.now ≤ now) {owner : Text} {token : ℕ} {ttl : ℤ}
    (fresh : ∀ l ∈ s.leases, l.token ≠ token)
    (free : s.row.all (fun r => r.expires ≤ now || r.owner = owner) = true) :
    Inv ⟨now, some ⟨owner, token, now + ttl⟩,
      ⟨owner, token, now, now + ttl⟩ :: s.leases.map (.giveUp owner now)⟩ := by
  have keeps l : (Lease.giveUp owner now l).start = l.start ∧
      (Lease.giveUp owner now l).token = l.token ∧ (Lease.giveUp owner now l).stop ≤ l.stop := by
    unfold Lease.giveUp
    split_ifs <;> simp
  -- a lease of another owner has expired, one of the same owner is given up
  have ended : ∀ l ∈ s.leases, (Lease.giveUp owner now l).stop ≤ now := by
    cases inv with
    | absent => exact fun l mem => nomatch mem
    | @held _ _ r _ started older _ =>
      intro l mem
      rcases mem_cons.1 mem with rfl | mem
      · simp only [Option.all_some, Bool.or_eq_true, decide_eq_true_eq] at free
        unfold Lease.giveUp
        split_ifs with same
        · exact min_le_right _ _
        · exact free.resolve_right same
      · exact (keeps l).2.2.trans ((older l mem).1.trans (started.trans later))
  refine .held (r := ⟨owner, token, now + ttl⟩) le_rfl ?_ (pairwise_map.2 (inv.ordered.imp ?_))
  · intro _ mem
    obtain ⟨l, held, rfl⟩ := mem_map.1 mem
    exact ⟨ended l held, (keeps l).2.1 ▸ fresh l held⟩
  · intro newer older after
    exact ⟨(keeps older).2.2.trans ((keeps newer).1 ▸ after.1),
      (keeps older).2.1 ▸ (keeps newer).2.1 ▸ after.2⟩

/-- A new expiry stored under the token of the row moves the end of the newest lease. -/
theorem Inv.lasting {r : Row} (inv : Inv s) (found : s.row = some r) (later : s.now ≤ now)
    (expires : ℤ) :
    Inv ⟨now, some { r with expires }, s.leases.map (.lasting r.token expires)⟩ := by
  cases inv with
  | absent => cases found
  | @held _ _ _ rest started older ordered =>
    cases found
    have same : rest.map (.lasting r.token expires) = rest :=
      (map_congr_left fun l mem => if_neg (older l mem).2).trans (map_id rest)
    rw [map_cons, same, Lease.lasting, if_pos rfl]
    exact .held (r := { r with expires }) (started.trans later) older ordered

theorem renew_cases (row : Option Row) (now : ℤ) (token : ℕ) (ttl : ℤ) :
    renewSchedulerLeaseByToken row now token ttl = (row, none) ∨
      ∃ r, row = some r ∧ r.token = token ∧ renewSchedulerLeaseByToken row now token ttl =
        (some { r with expires := now + ttl }, some (now + ttl)) := by
  cases row with
  | none => exact .inl rfl
  | some r =>
    by_cases same : r.token = token
    · exact .inr ⟨r, rfl, same, if_pos same⟩
    · exact .inl (if_neg same)

theorem Inv.perform (inv : Inv s) (later : s.now ≤ now) {c : Call} (valid : c.valid s = true) :
    Inv (perform s now c) := by
  cases c with
  | tryAcquire owner =>
    simp only [Call.valid, Bool.and_eq_true, all_eq_true, decide_eq_true_eq] at valid
    unfold SchedulerLeases.perform tryAcquireSchedulerLease
    by_cases free : s.row.all (fun r => r.expires ≤ now || r.owner = owner) = true
    · simp only [if_pos free]
      exact inv.tryAcquire later valid.2 free
    · simp only [if_neg free]
      exact inv.mono later
  | renew token ttl =>
    unfold SchedulerLeases.perform
    obtain same | ⟨r, found, rfl, renewed⟩ := renew_cases s.row now token ttl
    · simp only [same]
      exact inv.mono later
    · simp only [renewed]
      exact inv.lasting found later _
  | release token =>
    unfold SchedulerLeases.perform release
    cases found : s.row with
    | none => simpa [found] using inv.mono later
    | some r =>
      by_cases same : r.token = token
      · subst same
        simpa using inv.lasting found later now
      · simpa [same, found] using inv.mono later

theorem inv_of_reach (reached : Reach step Initial Any s) : Inv s := by
  refine reached.invariant ?_ ?_
  · rintro ⟨_, _⟩ ⟨absent, empty⟩
    cases absent
    cases empty
    exact .absent
  · intro s e _ inv _ taken
    obtain ⟨⟨later, valid⟩, same⟩ := Option.ite_none_right_eq_some.1 taken
    cases same
    exact inv.perform later valid

/-- The leases of two owners do not overlap, and a token that is not in the row changes nothing. -/
theorem scheduler_leases_exclusive (reached : Reach step Initial Any s) :
    (∀ a ∈ s.leases, ∀ b ∈ s.leases, a.owner ≠ b.owner → a.stop ≤ b.start ∨ b.stop ≤ a.start) ∧
      ∀ r, s.row = some r →
        (∃ l ∈ s.leases, l.owner = r.owner ∧ l.token = r.token ∧ l.stop = r.expires) ∧
          ∀ token ≠ r.token, ∀ now ttl expires,
            renewSchedulerLeaseByToken s.row now token ttl = (s.row, none) ∧
              SchedulerLease.renew ⟨token, expires⟩ s.row now ttl = (s.row, ⟨token, expires⟩, false) ∧
              release s.row now token = s.row := by
  have inv := inv_of_reach reached
  constructor
  · intro a mem b mem'
    refine Pairwise.forall_of_forall_of_flip
      (R := fun a b => a.owner ≠ b.owner → a.stop ≤ b.start ∨ b.stop ≤ a.start)
      (fun l _ same => absurd rfl same) (inv.ordered.imp fun after _ => .inr after.1)
      (inv.ordered.imp fun after _ => .inl after.1) mem mem'
  · intro r found
    refine ⟨?_, fun token other now ttl expires => ?_⟩
    · cases inv with
      | absent => cases found
      | held =>
        cases found
        exact ⟨_, mem_cons_self, rfl, rfl, rfl⟩
    · have renewal : renewSchedulerLeaseByToken s.row now token ttl = (s.row, none) := by
        rw [found]
        exact if_neg other.symm
      refine ⟨renewal, by simp [SchedulerLease.renew, renewal], ?_⟩
      simp [found, release, other.symm]

/-- A renewed lease is released, and another owner takes over. -/
theorem scheduler_leases_exclusive_takeover :
    ∃ s, Reach step Initial Any s ∧ s.leases.map (fun l => (l.owner, l.start, l.stop)) =
      [(['b'], 8, 18), (['a'], 0, 7)] ∧
      ∀ a ∈ s.leases, ∀ b ∈ s.leases, a.owner ≠ b.owner → a.stop ≤ b.start ∨ b.stop ≤ a.start := by
  obtain ⟨s, reached, ends⟩ := Reach.exists_of_free step Initial ⟨0, none, []⟩ ⟨rfl, rfl⟩
      [(0, .tryAcquire ['a'] 0 5), (4, .renew 0 9), (6, .tryAcquire ['b'] 1 9),
        (7, .release 0), (8, .tryAcquire ['b'] 1 10), (9, .renew 0 9)]
      (fun s => s.leases.map (fun l => (l.owner, l.start, l.stop)) =
        [(['b'], 8, 18), (['a'], 0, 7)]) (by decide)
  exact ⟨s, reached, ends, (scheduler_leases_exclusive reached).1⟩

/-- An owner can acquire the job just if no other owner has a valid lease of it. -/
theorem acquired_iff_free (reached : Reach step Initial Any s) (later : s.now ≤ now) (owner : Text)
    (token : ℕ) (ttl : ℤ) : (tryAcquireSchedulerLease s.row now owner token ttl).isSome ↔
      ∀ l ∈ s.leases, now < l.stop → l.owner = owner := by
  cases inv_of_reach reached with
  | absent => simp [tryAcquireSchedulerLease]
  | @held _ _ r rest started older =>
    have past : ∀ l ∈ rest, now < l.stop → l.owner = owner := fun l mem valid =>
      absurd valid (not_lt.2 ((older l mem).1.trans (started.trans later)))
    rw [forall_mem_cons, and_iff_left past]
    simp [tryAcquireSchedulerLease, imp_iff_not_or]

theorem acquired_iff_free_renewed : ∃ s, Reach step Initial Any s ∧ (s.now ≤ 12 ∧ ∃ l ∈ s.leases, 12 < l.stop) ∧
    ((tryAcquireSchedulerLease s.row 12 ['b'] 1 5).isSome ↔
      ∀ l ∈ s.leases, 12 < l.stop → l.owner = ['b']) := by
  obtain ⟨s, reached, ends⟩ := Reach.exists_of_free step Initial ⟨0, none, []⟩ ⟨rfl, rfl⟩
    [(0, .tryAcquire ['a'] 0 5), (4, .renew 0 9)]
    (fun s => s.now ≤ 12 ∧ ∃ l ∈ s.leases, 12 < l.stop) (by decide)
  exact ⟨s, reached, ends, acquired_iff_free reached ends.1 _ _ _⟩

end ArtifactKeeper.SchedulerLeases
