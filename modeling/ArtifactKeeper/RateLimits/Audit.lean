import ArtifactKeeper.Library.StepSystem
import ArtifactKeeper.Library.Text

/-!
# The audit of refused logins

A refusal is audited once in a window.  The limiters have windows of their own and share one table of
the last audits, which is pruned when it is full.
-/

namespace ArtifactKeeper.LoginAudit

open StepSystem List

inductive LoginLimiter
  | perAccount
  | globalBackstop
  deriving DecidableEq

def loginAuditMaxTracked : ℕ := 10000

structure Refusal where
  limiter : LoginLimiter
  source : Text
  now : ℕ

def Refusal.key (r : Refusal) : LoginLimiter × Text :=
  match r.limiter with
  | .perAccount => (.perAccount, r.source)
  | .globalBackstop => (.globalBackstop, "*")

/-- The last audit of each key. -/
abbrev Seen := List ((LoginLimiter × Text) × ℕ)

/-- A refusal of a new key finds the table full. -/
def prunes (seen : Seen) (r : Refusal) : Bool :=
  !seen.any (·.1 = r.key) && loginAuditMaxTracked ≤ seen.length

def retain (window : ℕ) (r : Refusal) (seen : Seen) : Seen :=
  if prunes seen r then seen.filter fun e => r.now - e.2 < window else seen

def insert (r : Refusal) (seen : Seen) : Seen := (r.key, r.now) :: seen.filter (·.1 ≠ r.key)

/-- Whether the refusal is audited, and the table after it. -/
def loginAuditShouldRecord (seen : Seen) (r : Refusal) (window : ℕ) : Bool × Seen :=
  if seen.any fun e => e.1 = r.key && r.now - e.2 < window then (false, seen)
  else
    let seen := retain window r seen
    if prunes seen r then (false, seen) else (true, insert r seen)

/-! ### Runs -/

structure World where
  seen : Seen
  audited : List Refusal
  now : ℕ

variable (windows : LoginLimiter → ℕ)

def step (w : World) (r : Refusal) : Option World :=
  if w.now ≤ r.now then
    let (audits, seen) := loginAuditShouldRecord w.seen r (windows r.limiter)
    some ⟨seen, if audits then r :: w.audited else w.audited, r.now⟩
  else none

def Initial (w : World) : Prop := w.seen = [] ∧ w.audited = []

/-- The table is not pruned with a window shorter than that of `l`. -/
def Sheltered (l : LoginLimiter) (w : World) (r : Refusal) : Prop :=
  prunes w.seen r → windows l ≤ windows r.limiter

def Spaced (l : LoginLimiter) (later earlier : Refusal) : Prop :=
  later.limiter = l → later.key = earlier.key → earlier.now + windows l ≤ later.now

/-! ### One refusal -/

variable {windows} {l : LoginLimiter} {seen : Seen} {r : Refusal} {w w' : World}
  {window : ℕ} {e : (LoginLimiter × Text) × ℕ}

theorem mem_retain :
    e ∈ retain window r seen ↔ e ∈ seen ∧ (prunes seen r = true → r.now - e.2 < window) := by
  unfold retain
  split_ifs with full <;> simp [full]

theorem length_retain : (retain window r seen).length ≤ seen.length := by
  unfold retain
  split_ifs
  · exact length_filter_le _ _
  · exact le_rfl

theorem length_insert (room : prunes seen r = false) (bounded : seen.length ≤ loginAuditMaxTracked) :
    (insert r seen).length ≤ loginAuditMaxTracked := by
  rw [prunes, Bool.and_eq_false_iff, Bool.not_eq_false', decide_eq_false_iff_not] at room
  rcases room with present | room
  · obtain ⟨e, mem, same⟩ := any_eq_true.1 present
    have less : (seen.filter (·.1 ≠ r.key)).length < seen.length :=
      length_filter_lt_length_iff_exists.2 ⟨e, mem, by simpa using same⟩
    exact (Nat.succ_le_of_lt less).trans bounded
  · exact Nat.succ_le_of_lt ((length_filter_le _ _).trans_lt (Nat.lt_of_not_le room))

/-- A refusal in the window of an audit finds its key and prunes nothing. -/
theorem loginAuditShouldRecord_eq (seen : Seen) (r : Refusal) (window : ℕ) :
    loginAuditShouldRecord seen r window =
      if (∃ e ∈ seen, e.1 = r.key ∧ r.now - e.2 < window) ∨ prunes (retain window r seen) r then
        (false, retain window r seen)
      else (true, insert r (retain window r seen)) := by
  by_cases live : ∃ e ∈ seen, e.1 = r.key ∧ r.now - e.2 < window
  · have found : (seen.any fun e => e.1 = r.key && r.now - e.2 < window) = true := by
      simpa using live
    have present : prunes seen r = false := by
      obtain ⟨e, mem, same, -⟩ := live
      rw [prunes, any_eq_true.2 ⟨e, mem, decide_eq_true same⟩]
      rfl
    rw [loginAuditShouldRecord, if_pos found, if_pos (.inl live), retain, present]
    rfl
  · have missing : (seen.any fun e => e.1 = r.key && r.now - e.2 < window) = false := by
      simpa using live
    simp only [loginAuditShouldRecord, missing, Bool.false_eq_true, if_false, live, false_or]

theorem step_cases (taken : step windows w r = some w') :
    w.now ≤ r.now ∧ (w' = ⟨retain (windows r.limiter) r w.seen, w.audited, r.now⟩ ∨
      (∀ e ∈ w.seen, e.1 = r.key → windows r.limiter ≤ r.now - e.2) ∧
        prunes (retain (windows r.limiter) r w.seen) r = false ∧
        w' = ⟨insert r (retain (windows r.limiter) r w.seen), r :: w.audited, r.now⟩) := by
  rw [step, loginAuditShouldRecord_eq] at taken
  split_ifs at taken with time refused
  · exact ⟨time, .inl (Option.some.inj taken).symm⟩
  · push Not at refused
    exact ⟨time, .inr ⟨refused.1, Bool.eq_false_of_not_eq_true refused.2,
      (Option.some.inj taken).symm⟩⟩

theorem step_bounded (bounded : w.seen.length ≤ loginAuditMaxTracked)
    (taken : step windows w r = some w') : w'.seen.length ≤ loginAuditMaxTracked := by
  obtain ⟨-, rfl | ⟨-, room, rfl⟩⟩ := step_cases taken
  · exact length_retain.trans bounded
  · exact length_insert room (length_retain.trans bounded)

/-- An audit of `l` is in the table as long as its window lasts. -/
structure Inv (windows : LoginLimiter → ℕ) (l : LoginLimiter) (w : World) : Prop where
  past : ∀ a ∈ w.audited, a.now ≤ w.now
  known : ∀ a ∈ w.audited, a.limiter = l →
    a.now + windows l ≤ w.now ∨ ∃ e ∈ w.seen, e.1 = a.key ∧ a.now ≤ e.2
  spaced : w.audited.Pairwise (Spaced windows l)

theorem Inv.retain (inv : Inv windows l w) (time : w.now ≤ r.now)
    (sheltered : Sheltered windows l w r) :
    Inv windows l ⟨retain (windows r.limiter) r w.seen, w.audited, r.now⟩ := by
  refine ⟨fun a mem => (inv.past a mem).trans time, fun a mem mine => ?_, inv.spaced⟩
  have past := (inv.past a mem).trans time
  rcases inv.known a mem mine with ended | ⟨e, entry, same, later⟩
  · exact .inl (ended.trans time)
  · by_cases keeps : prunes w.seen r = true → r.now - e.2 < windows r.limiter
    · exact .inr ⟨e, mem_retain.2 ⟨entry, keeps⟩, same, later⟩
    · rw [Classical.not_imp] at keeps
      have longer := sheltered keeps.1
      exact .inl (by dsimp only; omega)

theorem Inv.insert (inv : Inv windows l ⟨seen, w.audited, r.now⟩)
    (spaced : ∀ a ∈ w.audited, Spaced windows l r a) :
    Inv windows l ⟨insert r seen, r :: w.audited, r.now⟩ := by
  refine ⟨forall_mem_cons.2 ⟨le_rfl, inv.past⟩,
    forall_mem_cons.2 ⟨fun _ => .inr ⟨_, mem_cons_self, rfl, le_rfl⟩, fun a mem mine => ?_⟩,
    .cons spaced inv.spaced⟩
  rcases inv.known a mem mine with ended | ⟨e, entry, same, later⟩
  · exact .inl ended
  · by_cases replaced : e.1 = r.key
    · exact .inr ⟨_, mem_cons_self, replaced.symm.trans same, inv.past a mem⟩
    · exact .inr ⟨e, .tail _ (mem_filter.2 ⟨entry, decide_eq_true replaced⟩), same, later⟩

theorem Refusal.key_fst (r : Refusal) : r.key.1 = r.limiter := by
  obtain ⟨_ | _, _⟩ := r <;> rfl

theorem Inv.spaced_of_expired (inv : Inv windows l w) (time : w.now ≤ r.now)
    (expired : ∀ e ∈ w.seen, e.1 = r.key → windows r.limiter ≤ r.now - e.2) :
    ∀ a ∈ w.audited, Spaced windows l r a := by
  rintro a mem rfl same
  have past := inv.past a mem
  rcases inv.known a mem (by rw [← a.key_fst, ← same, r.key_fst]) with ended | ⟨e, entry, key, _⟩
  · exact ended.trans time
  · have old := expired e entry (key.trans same.symm)
    omega

theorem Inv.step (inv : Inv windows l w) (sheltered : Sheltered windows l w r)
    (taken : step windows w r = some w') : Inv windows l w' := by
  obtain ⟨time, rfl | ⟨expired, -, rfl⟩⟩ := step_cases taken
  · exact inv.retain time sheltered
  · exact (inv.retain time sheltered).insert (inv.spaced_of_expired time expired)

/-- The table stays within its cap, and the audits of a limiter are spaced by its window as long as
no limiter with a shorter one prunes the table. -/
theorem audited_refusals_spaced (windows : LoginLimiter → ℕ) :
    (∀ w, Reach (step windows) Initial Any w → w.seen.length ≤ loginAuditMaxTracked) ∧
      ∀ l w, Reach (step windows) Initial (Sheltered windows l) w →
        w.audited.Pairwise (Spaced windows l) := by
  refine ⟨fun w reached => ?_, fun l w reached => Inv.spaced (w := w) ?_⟩
  · refine reached.invariant (fun s initial => ?_) fun _ _ _ inv _ taken => step_bounded inv taken
    simp [initial.1]
  · refine reached.invariant (fun s initial => ?_) fun _ _ _ inv ok taken => inv.step ok taken
    constructor <;> simp [initial.2]

/-! ### Windows of different lengths -/

/-- The windows of the default configuration, in nanoseconds. -/
def configured : LoginLimiter → ℕ
  | .perAccount => 900000000000
  | .globalBackstop => 60000000000

theorem audited_refusals_spaced_twice :
    ∃ w, Reach (step configured) Initial (Sheltered configured .perAccount) w ∧
      w.audited.length = 2 ∧ w.audited.Pairwise (Spaced configured .perAccount) := by
  have first : Reach (step configured) Initial (Sheltered configured .perAccount) _ :=
    .next (s := ⟨[], [], 0⟩) (e := ⟨.perAccount, [], 0⟩) (.start ⟨rfl, rfl⟩) nofun rfl
  have second := first.next (e := ⟨.perAccount, [], 900000000000⟩) nofun rfl
  exact ⟨_, second, rfl, (audited_refusals_spaced configured).2 _ _ second⟩

variable (windows) in
theorem step_new (new : ∀ e ∈ w.seen, e.1 ≠ r.key) (time : w.now ≤ r.now)
    (room : (retain (windows r.limiter) r w.seen).length < loginAuditMaxTracked) :
    step windows w r = some
      ⟨(r.key, r.now) :: retain (windows r.limiter) r w.seen, r :: w.audited, r.now⟩ := by
  have audits : ¬((∃ e ∈ w.seen, e.1 = r.key ∧ r.now - e.2 < windows r.limiter) ∨
      prunes (retain (windows r.limiter) r w.seen) r = true) := by
    rintro (⟨e, mem, same, -⟩ | full)
    · exact new e mem same
    · exact absurd room (by simpa [prunes] using And.right (Bool.and_eq_true_iff.1 full))
  have others : (retain (windows r.limiter) r w.seen).filter (·.1 ≠ r.key) =
      retain (windows r.limiter) r w.seen :=
    filter_eq_self.2 fun e mem => decide_eq_true (new e (mem_retain.1 mem).1)
  rw [step, if_pos time, loginAuditShouldRecord_eq, if_neg audits, insert, others]
  rfl

/-- The table after refusals of `n` sources at the time 0. -/
def filled : ℕ → Seen
  | 0 => []
  | n + 1 => ((.perAccount, replicate n 'a'), 0) :: filled n

theorem mem_filled {n : ℕ} (mem : e ∈ filled n) :
    e.1.1 = .perAccount ∧ e.1.2.length < n ∧ e.2 = 0 := by
  induction n with
  | zero => cases mem
  | succ n ih =>
    rcases mem_cons.1 mem with rfl | old
    · simp
    · obtain ⟨limiter, less, time⟩ := ih old
      exact ⟨limiter, less.trans n.lt_succ_self, time⟩

theorem length_filled (n : ℕ) : (filled n).length = n := by
  induction n with
  | zero => rfl
  | succ n ih => exact congrArg (· + 1) ih

theorem reach_filled {n : ℕ} (room : n < loginAuditMaxTracked) :
    ∃ audited, Reach (step configured) Initial Any ⟨filled (n + 1), audited, 0⟩ ∧
      ⟨.perAccount, [], 0⟩ ∈ audited := by
  induction n with
  | zero =>
    refine ⟨[⟨.perAccount, [], 0⟩], ?_, mem_singleton_self _⟩
    exact .next (s := ⟨[], [], 0⟩) (e := ⟨.perAccount, [], 0⟩) (.start ⟨rfl, rfl⟩) trivial rfl
  | succ n ih =>
    obtain ⟨audited, reached, mem⟩ := ih (Nat.lt_of_succ_lt room)
    have free : (filled (n + 1)).length < loginAuditMaxTracked := by rwa [length_filled]
    have taken := step_new configured (w := ⟨filled (n + 1), audited, 0⟩)
      (r := ⟨.perAccount, replicate (n + 1) 'a', 0⟩) (fun e mem same => ?_) le_rfl
      (length_retain.trans_lt free)
    · rw [retain, prunes, decide_eq_false (Nat.not_le.2 free), Bool.and_false] at taken
      exact ⟨_, reached.next trivial taken, .tail _ mem⟩
    · have shorter := (mem_filled mem).2.1
      rw [same] at shorter
      simp [Refusal.key] at shorter

def backstop : Refusal := ⟨.globalBackstop, [], 60000000000⟩

theorem backstop_new : ∀ e ∈ filled 10000, e.1 ≠ backstop.key := by
  intro e mem same
  have limiter := (mem_filled mem).1
  rw [same] at limiter
  cases limiter

theorem backstop_prunes : retain (configured backstop.limiter) backstop (filled 10000) = [] := by
  have full : prunes (filled 10000) backstop = true := by
    simpa [prunes, length_filled, loginAuditMaxTracked] using
      fun l k t mem => backstop_new ((l, k), t) mem
  refine eq_nil_iff_forall_not_mem.2 fun e kept => ?_
  obtain ⟨mem, live⟩ := mem_retain.1 kept
  have young := live full
  rw [(mem_filled mem).2.2] at young
  exact absurd young (by decide)

/-- The global limiter prunes an audit that the window of its own limiter still needs. -/
theorem shorter_window_forgets_audit : ∃ w, Reach (step configured) Initial Any w ∧
    ¬w.audited.Pairwise (Spaced configured .perAccount) := by
  obtain ⟨audited, reached, mem⟩ := reach_filled (n := 9999) (by decide)
  have taken := step_new configured (w := ⟨filled 10000, audited, 0⟩) backstop_new
    (Nat.zero_le _) (backstop_prunes.symm ▸ by decide)
  rw [backstop_prunes] at taken
  refine ⟨_, (reached.next trivial taken).next (e := ⟨.perAccount, [], 60000000001⟩) trivial rfl, ?_⟩
  intro spaced
  exact absurd ((pairwise_cons.1 spaced).1 _ (.tail _ mem) rfl rfl) (by decide)

end ArtifactKeeper.LoginAudit
