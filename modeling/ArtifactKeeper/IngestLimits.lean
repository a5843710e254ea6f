import Mathlib.Data.List.Basic
import Mathlib.Logic.Function.Basic

/-!
# Limits of concurrent extractions

A call looks up the semaphore of its tenant, takes a permit of it and then a global one.  The
registry refers to semaphores weakly: one that no call holds is dead, and a lookup that creates a
semaphore prunes the dead ones.
-/

namespace ArtifactKeeper.IngestLimits

open List Function

variable {K : Type*} [DecidableEq K]

inductive Stage
  | looked
  | permitted
  | guarded
  deriving DecidableEq

/-- A call under way, or the guard it has returned. -/
structure Call (K : Type*) where
  key : K
  sem : ℕ
  stage : Stage
  deriving DecidableEq

structure State (K : Type*) where
  registry : K → Option ℕ
  permits : ℕ → ℕ
  globalPermits : ℕ
  calls : List (Call K)
  nextSem : ℕ

structure Limits where
  perTenant : ℕ
  global : ℕ

variable (limits : Limits)

def boot : State K := ⟨fun _ => none, fun _ => 0, limits.global, [], 0⟩

variable (s : State K)

def State.strongCount (sem : ℕ) : ℕ := s.calls.countP (·.sem = sem)

def State.upgrade (key : K) : Option ℕ := (s.registry key).filter (0 < s.strongCount ·)

def tenantSemaphoreFor (key : K) : ℕ × State K :=
  match s.upgrade key with
  | some existing => (existing, s)
  | none => (s.nextSem,
      { s with
        registry := update s.upgrade key (some s.nextSem)
        permits := update s.permits s.nextSem limits.perTenant
        nextSem := s.nextSem + 1 })

/-- The call goes on to a stage or ends, with the permits that are then left. -/
def State.settle (c : Call K) (next : List Stage) (permits globalPermits : ℕ) : State K :=
  { s with
    permits := update s.permits c.sem permits
    globalPermits := globalPermits
    calls := next.map ({ c with stage := · }) ++ s.calls.erase c }

/-- A call takes the tenant's permit, then the global one, and its guard is dropped.  One that finds
no permit returns an error and drops what it holds. -/
def advance (c : Call K) : State K :=
  match c.stage, s.permits c.sem, s.globalPermits with
  | .looked, 0, global => s.settle c [] 0 global
  | .looked, tenant + 1, global => s.settle c [.permitted] tenant global
  | .permitted, tenant, 0 => s.settle c [] (tenant + 1) 0
  | .permitted, tenant, global + 1 => s.settle c [.guarded] tenant global
  | .guarded, tenant, global => s.settle c [] (tenant + 1) (global + 1)

inductive Event (K : Type*)
  | lookup (key : K)
  | advance (c : Call K)

def step : Event K → State K
  | .lookup key =>
    let (sem, s) := tenantSemaphoreFor limits s key
    { s with calls := ⟨key, sem, .looked⟩ :: s.calls }
  | .advance c => if c ∈ s.calls then advance s c else s

/-! ### Permits -/

def Call.holds (sem : ℕ) (c : Call K) : Bool := c.sem = sem && c.stage ≠ .looked

def Call.isGuard (c : Call K) : Bool := c.stage = .guarded

/-- The semaphore of a call is the registered one of its tenant. -/
structure Inv : Prop where
  registered : ∀ c ∈ s.calls, s.registry c.key = some c.sem
  below : ∀ k sem, s.registry k = some sem → sem < s.nextSem
  permits : ∀ sem < s.nextSem, s.permits sem + s.calls.countP (Call.holds sem) = limits.perTenant
  global : s.globalPermits + s.calls.countP Call.isGuard = limits.global

variable {limits s} (inv : Inv limits s)

include inv

theorem Inv.tenantSemaphoreFor (key : K) :
    let (sem, t) := tenantSemaphoreFor limits s key
    Inv limits t ∧ t.registry key = some sem := by
  unfold IngestLimits.tenantSemaphoreFor
  have known {k : K} {sem : ℕ} (found : s.upgrade k = some sem) : s.registry k = some sem :=
    (Option.filter_eq_some_iff.1 found).1
  cases found : s.upgrade key with
  | some _ => exact ⟨inv, known found⟩
  | none =>
    -- A call keeps the semaphore of its tenant alive.
    have alive {c : Call K} (mem : c ∈ s.calls) : s.upgrade c.key = some c.sem := by
      have counted : 0 < s.strongCount c.sem := countP_pos_iff.2 ⟨c, mem, by simp⟩
      simp [State.upgrade, inv.registered c mem, Option.filter_some, counted]
    refine ⟨⟨fun c mem => ?_, fun k sem found => ?_, fun sem below => ?_, inv.global⟩,
      update_self ..⟩
    · have other : c.key ≠ key := by
        rintro rfl
        simp [alive mem] at found
      exact (update_of_ne other ..).trans (alive mem)
    · dsimp only at found ⊢
      by_cases same : k = key
      · subst same
        obtain rfl : s.nextSem = sem := by simpa using found
        exact Nat.lt_succ_self _
      · rw [update_of_ne same] at found
        exact Nat.lt_succ_of_lt (inv.below k sem (known found))
    · dsimp only at below ⊢
      by_cases new : sem = s.nextSem
      · subst new
        have fresh (c) (mem : c ∈ s.calls) : c.sem ≠ s.nextSem :=
          Nat.ne_of_lt (inv.below _ _ (inv.registered c mem))
        simpa [Call.holds] using fun c mem same => absurd same (fresh c mem)
      · rw [update_of_ne new]
        exact inv.permits sem (by omega)

omit [DecidableEq K] in
theorem Inv.looked {key : K} {sem : ℕ} (registered : s.registry key = some sem) :
    Inv limits { s with calls := ⟨key, sem, .looked⟩ :: s.calls } :=
  ⟨forall_mem_cons.2 ⟨registered, inv.registered⟩, inv.below,
    fun sem old => by simpa [Call.holds] using inv.permits sem old,
    by simpa [Call.isGuard] using inv.global⟩

theorem Inv.settle {c : Call K} {next : List Stage} {n g : ℕ} (mem : c ∈ s.calls)
    (permits : n + next.countP (· ≠ .looked) = s.permits c.sem + if c.stage ≠ .looked then 1 else 0)
    (global : g + next.countP (· = .guarded) =
      s.globalPermits + if c.stage = .guarded then 1 else 0) :
    Inv limits (s.settle c next n g) := by
  have split (p : Call K → Bool) :
      s.calls.countP p = (s.calls.erase c).countP p + if p c then 1 else 0 := by
    rw [(perm_cons_erase mem).countP_eq, countP_cons]
  refine ⟨?_, inv.below, fun sem below => ?_, ?_⟩
  · refine forall_mem_append.2 ⟨?_, fun c' old => inv.registered c' (mem_of_mem_erase old)⟩
    simpa [State.settle] using fun _ _ => inv.registered c mem
  · have before := inv.permits sem below
    rw [split] at before
    by_cases own : sem = c.sem
    · subst own
      simp_all [State.settle, Call.holds, countP_map, comp_def]
      omega
    · simpa [State.settle, Call.holds, countP_map, comp_def, own, Ne.symm own] using before
  · have before := inv.global
    rw [split] at before
    simp_all [State.settle, Call.isGuard, countP_map, comp_def]
    omega

theorem Inv.step (e : Event K) : Inv limits (step limits s e) := by
  cases e with
  | lookup key =>
    obtain ⟨inv, registered⟩ := inv.tenantSemaphoreFor key
    exact inv.looked registered
  | advance c =>
    simp only [IngestLimits.step, advance]
    split_ifs with mem
    · split <;> exact inv.settle mem (by simp_all) (by simp_all)
    · exact inv

omit inv

/-- However calls interleave, no tenant has more guards than its limit and all have no more than the
global one. -/
theorem guards_within_limits (events : List (Event K)) (key : K) :
    let s := events.foldl (step limits) (boot limits)
    s.calls.countP (fun c => c.isGuard && c.key = key) ≤ limits.perTenant ∧
      s.calls.countP Call.isGuard ≤ limits.global := by
  intro s
  have inv : Inv limits s :=
    foldlRecOn events _ ⟨nofun, nofun, nofun, rfl⟩ fun _ inv e _ => inv.step e
  refine ⟨?_, by have := inv.global; omega⟩
  by_cases some : ∃ c ∈ s.calls, c.key = key
  · obtain ⟨c, mem, rfl⟩ := some
    have known := inv.registered c mem
    have held : s.calls.countP (fun c' => c'.isGuard && c'.key = c.key) ≤
        s.calls.countP (Call.holds c.sem) := by
      refine countP_mono_left fun c' mem' guard => ?_
      simp only [Call.isGuard, Bool.and_eq_true, decide_eq_true_eq] at guard
      have same := inv.registered c' mem'
      rw [guard.2, known, Option.some.injEq] at same
      simp [Call.holds, same, guard.1]
    have := inv.permits c.sem (inv.below _ _ known)
    omega
  · rw [countP_eq_zero.2 fun c mem => by simpa using fun _ same => some ⟨c, mem, same⟩]
    exact Nat.zero_le _

end ArtifactKeeper.IngestLimits
