import ArtifactKeeper.Library.StepSystem

/-!
# Concurrent requests over a shared store

A `Protocol` describes concurrent requests over one durable store.  `code st q a` is what a request
in local state `q` does when it takes the action `a`: the `effect` on the store, the next local
state, and the rows the statement `touches` without keeping them locked.  A step is blocked while
another request owns a row it touches or locks, and a run is an arbitrary interleaving.

`Protocol.invariant` is the proof rule: each step establishes the store invariant and the assertion
of the request that moves (`own`) and keeps those of the others (`others`), whose locked rows it
neither touches nor locks.  `Protocol.pairwise` is the same for relations between two requests.
-/

/-! ### Processes and their locks -/

structure Pool (π κ : Type*) where
  proc : ℕ → π
  owner : κ → Option ℕ

namespace Pool

variable {π κ : Type*} (holds : π → List κ) {q : π}

/-- The lock `k` is available to process `i`. -/
def free (p : Pool π κ) (i : ℕ) (k : κ) : Bool := p.owner k == none || p.owner k == some i

/-- The lock table agrees with the local states. -/
def Coherent (p : Pool π κ) : Prop := ∀ k i, p.owner k = some i ↔ k ∈ holds (p.proc i)

def idle (q : π) : Pool π κ := ⟨fun _ => q, fun _ => none⟩

theorem free_iff (p : Pool π κ) (i : ℕ) (k : κ) :
    p.free i k = true ↔ p.owner k = none ∨ p.owner k = some i := by
  simp [free]

theorem coherent_idle (lockless : holds q = []) : (idle q : Pool π κ).Coherent holds := by
  intro k i
  simp [idle, lockless]

variable {i j : ℕ} {p : Pool π κ}

/-- A lock that is available to `i` is held by no other process. -/
theorem Coherent.not_held_of_free {holds : π → List κ} (h : p.Coherent holds) {k : κ} (ne : j ≠ i)
    (free : p.owner k = none ∨ p.owner k = some i) : k ∉ holds (p.proc j) := by
  intro held
  have owner := (h k j).2 held
  rcases free with none | mine
  · rw [none] at owner; cases owner
  · rw [mine] at owner; exact ne (Option.some.inj owner).symm

section Moves

variable [DecidableEq κ]

/-- Process `i` takes the local state `q`. -/
def move (p : Pool π κ) (i : ℕ) (q : π) : Pool π κ where
  proc := Function.update p.proc i q
  owner k := if k ∈ holds q then some i else if p.owner k = some i then none else p.owner k

/-- Move process `i` to `q`, or block while one of the locks of `q` belongs to someone else. -/
def advance (p : Pool π κ) (i : ℕ) (q : π) : Option (Pool π κ) :=
  if (holds q).all (p.free i) then some (p.move holds i q) else none

@[simp] theorem move_proc_self (p : Pool π κ) (i : ℕ) (q : π) : (p.move holds i q).proc i = q := by
  simp [move]

theorem move_proc_ne (p : Pool π κ) (q : π) (h : j ≠ i) : (p.move holds i q).proc j = p.proc j := by
  simp [move, h]

theorem advance_eq_some {p' : Pool π κ} :
    p.advance holds i q = some p' ↔
      (∀ k ∈ holds q, p.owner k = none ∨ p.owner k = some i) ∧ p' = p.move holds i q := by
  unfold advance
  split_ifs with h
  · simp only [List.all_eq_true, free_iff] at h
    simp only [Option.some.injEq]
    exact ⟨fun e => ⟨h, e.symm⟩, fun e => e.2.symm⟩
  · simp only [List.all_eq_true, free_iff] at h
    exact ⟨nofun, fun all => absurd all.1 h⟩

theorem Coherent.move {holds : π → List κ} (h : p.Coherent holds)
    (avail : ∀ k ∈ holds q, p.owner k = none ∨ p.owner k = some i) :
    (p.move holds i q).Coherent holds := by
  intro k j
  by_cases ji : j = i
  · subst ji
    rw [move_proc_self]
    by_cases taken : k ∈ holds q
    · simp [Pool.move]
    · by_cases mine : p.owner k = some j <;> simp [Pool.move]
  · rw [move_proc_ne _ _ _ ji, ← h k j]
    by_cases taken : k ∈ holds q
    · have other : p.owner k ≠ some j := by
        rcases avail k taken with none | mine
        · simp [none]
        · rw [mine]; exact fun e => ji (Option.some.inj e).symm
      simp [Pool.move, taken, other, Ne.symm ji]
    · by_cases mine : p.owner k = some i
      · simp [Pool.move, mine, Ne.symm ji]
      · simp [Pool.move, taken, mine]

/-- Non-interference: the mover establishes its assertion and disturbs nobody else's. -/
theorem forall_proc_move {after : π → Prop} (own : after q)
    (others : ∀ j, j ≠ i → after (p.proc j)) (j : ℕ) : after ((p.move holds i q).proc j) := by
  by_cases ji : j = i
  · subst ji; rw [move_proc_self]; exact own
  · rw [move_proc_ne _ _ _ ji]; exact others j ji

end Moves

end Pool

/-! ### Concurrent requests over a shared store -/

/-- What one statement of a request does. -/
structure Outcome (π κ η : Type*) where
  touches : List κ
  effect : η
  next : π

/-- The code of concurrent requests: local states `π`, row locks `κ`, actions `α`, effects `η` on a
store `φ`. -/
structure Protocol (φ π κ α η : Type*) where
  holds : π → List κ
  apply : η → φ → φ
  code : φ → π → α → Option (Outcome π κ η)

structure World (φ π κ : Type*) where
  store : φ
  pool : Pool π κ

namespace Protocol

open StepSystem Option List Pool

variable {φ π κ α η : Type*} [DecidableEq κ] (P : Protocol φ π κ α η)

/-- Request `e.1` takes the action `e.2`. -/
def step (w : World φ π κ) (e : ℕ × α) : Option (World φ π κ) :=
  (P.code w.store (w.pool.proc e.1) e.2).bind fun o =>
    if o.touches.all (w.pool.free e.1) then
      (w.pool.advance P.holds e.1 o.next).map fun pool => ⟨P.apply o.effect w.store, pool⟩
    else none

variable {P}

variable {w w' : World φ π κ} {init : World φ π κ → Prop} {check : World φ π κ → ℕ × α → Bool}

theorem step_eq_some {e : ℕ × α} (h : P.step w e = some w') :
    ∃ o, P.code w.store (w.pool.proc e.1) e.2 = some o ∧
      (∀ k ∈ o.touches, w.pool.owner k = none ∨ w.pool.owner k = some e.1) ∧
      (∀ k ∈ P.holds o.next, w.pool.owner k = none ∨ w.pool.owner k = some e.1) ∧
      w' = ⟨P.apply o.effect w.store, w.pool.move P.holds e.1 o.next⟩ := by
  simp only [step, bind_eq_some_iff] at h
  obtain ⟨o, coded, h⟩ := h
  split_ifs at h with touch
  simp only [map_eq_some_iff, advance_eq_some] at h
  obtain ⟨_, ⟨avail, rfl⟩, rfl⟩ := h
  simp only [List.all_eq_true, free_iff] at touch
  exact ⟨o, coded, touch, avail, rfl⟩

/-- A run leaves every request alone that takes no action in it. -/
theorem proc_of_run {es : List (ℕ × α)} (taken : run check P.step w es = some w') {j : ℕ}
    (absent : j ∉ es.map Prod.fst) :
    w'.pool.proc j = w.pool.proc j := by
  induction es generalizing w with
  | nil =>
    simp only [run, some.injEq] at taken
    rw [taken]
  | cons e _ ih =>
    simp only [map_cons, mem_cons, not_or] at absent
    simp only [run] at taken
    split_ifs at taken
    obtain ⟨_, first, rest⟩ := bind_eq_some_iff.1 taken
    obtain ⟨o, _, _, _, rfl⟩ := step_eq_some first
    rw [ih rest absent.2]
    exact move_proc_ne _ _ _ absent.1

/-- The requests from `n` on are in the local state `q`. -/
def Resting (n : ℕ) (q : π) (w : World φ π κ) : Prop := ∀ j, n ≤ j → w.pool.proc j = q

/-- A concrete run of the first `n` requests, for side conditions that look at all requests. -/
theorem exists_of_run_below {ok : World φ π κ → ℕ × α → Prop} {n : ℕ} {q : π}
    (checked : ∀ w e, Resting n q w → check w e = true → ok w e)
    (reached : Reach P.step init ok w) (resting : Resting n q w) (es : List (ℕ × α))
    (p : World φ π κ → Prop) [DecidablePred p]
    (ends : (run (fun w e => decide (e.1 < n) && check w e) P.step w es).any
      (fun w => decide (p w)) = true) : ∃ w', Reach P.step init ok w' ∧ p w' := by
  induction es generalizing w with
  | nil => exact ⟨w, reached, of_decide_eq_true ends⟩
  | cons e _ ih =>
    simp only [run] at ends
    split_ifs at ends with here
    · simp only [Bool.and_eq_true, decide_eq_true_eq] at here
      cases taken : P.step w e with
      | none => rw [taken] at ends; cases ends
      | some _ =>
        rw [taken] at ends
        refine ih (.next reached (checked w e resting here.2) taken) (fun j high => ?_) ends
        obtain ⟨o, _, _, _, rfl⟩ := step_eq_some taken
        have other : j ≠ e.1 := by
          rintro rfl
          exact absurd here.1 (Nat.not_lt.2 high)
        exact (move_proc_ne _ _ _ other).trans (resting j high)
    · cases ends

/-- Store invariant, assertions of all requests and lock coherence, together. -/
structure Holds (P : Protocol φ π κ α η) (inv : φ → Prop) (assertion : φ → π → Prop)
    (w : World φ π κ) : Prop where
  store : inv w.store
  procs : ∀ i, assertion w.store (w.pool.proc i)
  locks : w.pool.Coherent P.holds

omit [DecidableEq κ] in
theorem Holds.of_idle {inv : φ → Prop} {assertion : φ → π → Prop} {q : π} (idle : w.pool = .idle q)
    (lockless : P.holds q = []) (store : inv w.store) (resting : assertion w.store q) :
    P.Holds inv assertion w := by
  refine ⟨store, fun i => ?_, ?_⟩
  · rw [idle]
    exact resting
  · rw [idle]
    exact coherent_idle _ lockless

/-- The mover keeps the invariant and establishes its own next assertion. -/
def Own (P : Protocol φ π κ α η) (ok : World φ π κ → ℕ × α → Prop) (inv : φ → Prop)
    (assertion : φ → π → Prop) : Prop :=
  ∀ w e o, P.Holds inv assertion w → ok w e → P.code w.store (w.pool.proc e.1) e.2 = some o →
    inv (P.apply o.effect w.store) ∧ assertion (P.apply o.effect w.store) o.next

/-- No step disturbs another request `j`, whose locked rows it neither touches nor locks. -/
def Others (P : Protocol φ π κ α η) (ok : World φ π κ → ℕ × α → Prop) (inv : φ → Prop)
    (assertion : φ → π → Prop) : Prop :=
  ∀ w e o j, P.Holds inv assertion w → ok w e →
    P.code w.store (w.pool.proc e.1) e.2 = some o → j ≠ e.1 →
    (∀ k ∈ P.holds (w.pool.proc j),
      k ∉ o.touches ∧ k ∉ P.holds o.next ∧ k ∉ P.holds (w.pool.proc e.1)) →
    assertion (P.apply o.effect w.store) (w.pool.proc j)

variable {ok : World φ π κ → ℕ × α → Prop} {inv : φ → Prop} {assertion : φ → π → Prop}

theorem Holds.step (own : P.Own ok inv assertion) (others : P.Others ok inv assertion)
    {e : ℕ × α} (h : P.Holds inv assertion w) (allowed : ok w e)
    (taken : P.step w e = some w') : P.Holds inv assertion w' := by
  obtain ⟨o, coded, touched, locked, rfl⟩ := step_eq_some taken
  obtain ⟨store, mover⟩ := own w e o h allowed coded
  refine ⟨store, ?_, h.locks.move locked⟩
  refine forall_proc_move P.holds mover fun j ne => ?_
  refine others w e o j h allowed coded ne fun k held => ⟨?_, ?_, ?_⟩
  · exact fun touch => h.locks.not_held_of_free ne (touched k touch) held
  · exact fun lock => h.locks.not_held_of_free ne (locked k lock) held
  · exact fun mine => h.locks.not_held_of_free ne (.inr ((h.locks k e.1).2 mine)) held

theorem invariant (own : P.Own ok inv assertion)
    (others : P.Others ok inv assertion) (base : ∀ w, init w → P.Holds inv assertion w)
    (h : Reach P.step init ok w) : P.Holds inv assertion w :=
  h.invariant base fun _ _ _ before allowed taken => before.step own others allowed taken

/-! ### Relations between two requests -/

/-- A relation that holds between any two requests. -/
def Pairs (rel : φ → π → π → Prop) (w : World φ π κ) : Prop :=
  ∀ i j, i ≠ j → rel w.store (w.pool.proc i) (w.pool.proc j)

variable (P ok) (rel : φ → π → π → Prop)

/-- The mover is related to every other request, in both directions. -/
def Meets : Prop :=
  ∀ w e o j, Pairs rel w → ok w e → P.code w.store (w.pool.proc e.1) e.2 = some o → j ≠ e.1 →
    rel (P.apply o.effect w.store) o.next (w.pool.proc j) ∧
      rel (P.apply o.effect w.store) (w.pool.proc j) o.next

/-- No step disturbs the relation between two other requests. -/
def Apart : Prop :=
  ∀ w e o i j, Pairs rel w → ok w e →
    P.code w.store (w.pool.proc e.1) e.2 = some o → i ≠ e.1 → j ≠ e.1 → i ≠ j →
    rel (P.apply o.effect w.store) (w.pool.proc i) (w.pool.proc j)

variable {P ok rel}

/-- The relation holds between any two requests of every reached state. -/
theorem pairwise (meets : P.Meets ok rel)
    (apart : P.Apart ok rel) (base : ∀ w, init w → Pairs rel w)
    (h : Reach P.step init ok w) : Pairs rel w := by
  refine h.invariant base fun v e v' before allowed taken i j distinct => ?_
  obtain ⟨o, coded, _, _, rfl⟩ := step_eq_some taken
  by_cases first : i = e.1
  · subst first
    have other : j ≠ e.1 := Ne.symm distinct
    rw [move_proc_self, move_proc_ne _ _ _ other]
    exact (meets v e o j before allowed coded other).1
  · rw [move_proc_ne _ _ _ first]
    by_cases second : j = e.1
    · subst second
      rw [move_proc_self]
      exact (meets v e o i before allowed coded first).2
    · rw [move_proc_ne _ _ _ second]
      exact apart v e o i j before allowed coded first second distinct

end Protocol

/-! ### Numbers drawn from a counter -/

namespace Protocol

open StepSystem

variable {φ π κ α η : Type*} [DecidableEq κ] {P : Protocol φ π κ α η} {counter : φ → ℕ}
  {tickets : π → List ℕ} {init : World φ π κ → Prop} {ok : World φ π κ → ℕ × α → Prop}
  {w : World φ π κ}

variable (P counter tickets) in
/-- Numbers come from the counter only. -/
structure Draws : Prop where
  grows : ∀ st q a o, P.code st q a = some o → counter st ≤ counter (P.apply o.effect st)
  drawn : ∀ st q a o, P.code st q a = some o → ∀ t ∈ tickets o.next,
    t ∈ tickets q ∨ (t = counter st ∧ t < counter (P.apply o.effect st))

/-- The numbers of a request are below `n`. -/
def Under (tickets : π → List ℕ) (n : ℕ) (q : π) : Prop := ∀ t ∈ tickets q, t < n

variable (counter tickets w) in
/-- Every number in use has been drawn. -/
def Below : Prop := ∀ i, Under tickets (counter w.store) (w.pool.proc i)

theorem Draws.below (draws : P.Draws counter tickets) (base : ∀ w, init w → Below counter tickets w)
    (h : Reach P.step init ok w) : Below counter tickets w := by
  refine h.invariant base fun v e v' before _ taken => ?_
  obtain ⟨o, coded, _, _, rfl⟩ := step_eq_some taken
  have grows := draws.grows _ _ _ _ coded
  have mover : Under tickets (counter (P.apply o.effect v.store)) o.next := by
    intro t mem
    rcases draws.drawn _ _ _ _ coded t mem with old | ⟨_, new⟩
    · exact Nat.lt_of_lt_of_le (before e.1 t old) grows
    · exact new
  refine Pool.forall_proc_move P.holds mover fun j _ t mem => ?_
  exact Nat.lt_of_lt_of_le (before j t mem) grows

/-- Two requests without a common number. -/
def Disjoint (tickets : π → List ℕ) (_ : φ) (q q' : π) : Prop := ∀ t ∈ tickets q, t ∉ tickets q'

/-- No two requests draw the same number. -/
theorem Draws.apart (draws : P.Draws counter tickets) (base : ∀ w, init w → Below counter tickets w)
    (alone : ∀ w, init w → Pairs (Disjoint tickets) w) (h : Reach P.step init ok w) :
    Pairs (Disjoint tickets) w := by
  have known := h.strengthen fun _ reached => draws.below base reached
  refine pairwise (P := P) ?_ ?_ alone known
  · intro v e o j before allowed coded other
    have fresh : ∀ t ∈ tickets o.next, t ∉ tickets (v.pool.proc j) := by
      intro t mem theirs
      rcases draws.drawn _ _ _ _ coded t mem with old | ⟨_, _⟩
      · exact before e.1 j (Ne.symm other) t old theirs
      · exact absurd (allowed.1 j t theirs) (by omega)
    exact ⟨fresh, fun t theirs mine => fresh t mine theirs⟩
  · exact fun v e o i j before _ _ _ _ distinct => before i j distinct

end Protocol
