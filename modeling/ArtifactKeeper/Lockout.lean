import ArtifactKeeper.Library.Machine
import ArtifactKeeper.Library.StepSystem

/-!
# Account lockout

A login with a wrong password reads the row of its account, checks the password and writes the new
count and lock back.
-/

namespace ArtifactKeeper.Lockout

open Machine StepSystem List Function

def minutes (n : ℤ) : ℤ := seconds (60 * n)

structure Config where
  threshold : ℕ
  durationMinutes : ℤ
  positive : 0 < threshold

structure Row where
  failedLoginAttempts : ℤ
  lockedUntil : Option ℤ
  lastFailedLoginAt : Option ℤ

variable (cfg : Config)

def shouldLock (attemptsAfterFailure now : ℤ) : Option ℤ :=
  if cfg.threshold = 0 then none
  else if asI32 cfg.threshold ≤ attemptsAfterFailure then some (now + minutes cfg.durationMinutes)
  else none

/-- The row after a wrong password, from the row that was read. -/
def recordFailure (user : Row) (now : ℤ) : Row :=
  let newCount := asI32 (user.failedLoginAttempts + 1)
  ⟨newCount, shouldLock cfg newCount now, some now⟩

/-! ### Runs -/

/-- An attempt in flight: what it has read, and whether its password was found wrong. -/
structure Attempt where
  user : Row
  now : ℤ
  mismatched : Bool

/-- `returned` lists the times at which the attempts that have returned read their row. -/
structure World where
  row : Row
  clock : ℤ
  attempts : ℕ → Option Attempt
  returned : List ℤ

inductive Event
  | tick (elapsed : ℕ)
  | fetch (i : ℕ)
  | verify (i : ℕ)
  | update (i : ℕ)

def step (w : World) : Event → Option World
  | .tick elapsed => some { w with clock := w.clock + elapsed }
  | .fetch i =>
    match w.attempts i with
    | none => some { w with attempts := update w.attempts i (some ⟨w.row, w.clock, false⟩) }
    | some _ => none
  | .verify i => (w.attempts i).map fun a =>
      { w with attempts := update w.attempts i (some { a with mismatched := true }) }
  | .update i =>
    match w.attempts i with
    | some ⟨user, now, true⟩ => some
        ⟨recordFailure cfg user now, w.clock, update w.attempts i none, now :: w.returned⟩
    | _ => none

def Initial (count : ℕ) (w : World) : Prop :=
  w.row.failedLoginAttempts = count ∧ (∀ i, w.attempts i = none) ∧ w.returned = []

/-- Attempts do not overlap, and the count does not overflow. -/
def Serial (w : World) : Event → Prop
  | .fetch _ => ∀ i, w.attempts i = none
  | .update _ => w.row.failedLoginAttempts < 2147483647
  | _ => True

/-! ### Counting -/

structure Inv (count : ℕ) (w : World) : Prop where
  counted : w.row.failedLoginAttempts = count + w.returned.length
  alone : ∀ i j, w.attempts i ≠ none → w.attempts j ≠ none → i = j
  read : ∀ i a, w.attempts i = some a → a.user = w.row ∧ a.now ≤ w.clock ∧ ∀ s ∈ w.returned, s ≤ a.now
  past : ∀ s ∈ w.returned, s ≤ w.clock
  locked : cfg.threshold ≤ w.returned.length →
    ∃ t, w.row.lockedUntil = some t ∧ ∀ s ∈ w.returned, s + minutes cfg.durationMinutes ≤ t

variable {cfg} {count : ℕ} {w w' : World} {e : Event}

theorem asI32_eq {n : ℤ} (low : 0 ≤ n) (high : n < 2147483648) : asI32 n = n :=
  Int.bmod_eq_of_le (by omega) (by omega)

theorem asI32_le (n : ℕ) : asI32 n ≤ n := by
  rw [asI32, Int.bmod_def]
  split_ifs <;> omega

theorem shouldLock_eq_some {attempts now : ℤ} (reached : cfg.threshold ≤ attempts) :
    shouldLock cfg attempts now = some (now + minutes cfg.durationMinutes) := by
  rw [shouldLock, if_neg cfg.positive.ne', if_pos ((asI32_le _).trans reached)]

theorem Inv.update {i : ℕ} {a : Attempt} (inv : Inv cfg count w) (found : w.attempts i = some a)
    (fits : w.row.failedLoginAttempts < 2147483647) :
    Inv cfg count ⟨recordFailure cfg a.user a.now, w.clock, update w.attempts i none,
      a.now :: w.returned⟩ := by
  obtain ⟨same, started, later⟩ := inv.read i a found
  have counted := inv.counted
  have next : asI32 (a.user.failedLoginAttempts + 1) = count + (w.returned.length + 1 : ℕ) := by
    rw [same, asI32_eq] <;> push_cast <;> omega
  have idle (j : ℕ) : Function.update w.attempts i none j = none := by
    by_cases mine : j = i
    · rw [mine, update_self]
    · rw [update_of_ne mine]
      by_contra busy
      exact mine (inv.alone j i busy (by simp [found]))
  refine ⟨next, fun j _ busy => absurd (idle j) busy, fun j b found => ?_,
    forall_mem_cons.2 ⟨started, inv.past⟩, fun reached => ⟨_, shouldLock_eq_some ?_, ?_⟩⟩
  · cases (idle j).symm.trans found
  · simp only [length_cons] at reached
    omega
  · exact forall_mem_cons.2 ⟨le_rfl, fun s mem => Int.add_le_add_right (later s mem) _⟩

theorem Inv.put {i : ℕ} {a : Attempt} (inv : Inv cfg count w)
    (only : ∀ j, w.attempts j ≠ none → j = i)
    (mine : a.user = w.row ∧ a.now ≤ w.clock ∧ ∀ s ∈ w.returned, s ≤ a.now) :
    Inv cfg count { w with attempts := Function.update w.attempts i (some a) } := by
  have own (j : ℕ) (busy : Function.update w.attempts i (some a) j ≠ none) : j = i := by
    by_contra other
    rw [update_of_ne other] at busy
    exact other (only j busy)
  refine ⟨inv.counted, fun j k busy busy' => (own j busy).trans (own k busy').symm,
    fun j b found => ?_, inv.past, inv.locked⟩
  dsimp only at found
  cases own j (by simp [found])
  rw [update_self] at found
  cases found
  exact mine

theorem Inv.step (inv : Inv cfg count w) (serial : Serial w e) (taken : step cfg w e = some w') :
    Inv cfg count w' := by
  cases e with
  | tick elapsed =>
    cases taken
    have later : w.clock ≤ w.clock + elapsed := by omega
    refine ⟨inv.counted, inv.alone, fun i a found => ?_, fun s mem => (inv.past s mem).trans later,
      inv.locked⟩
    obtain ⟨same, started, rest⟩ := inv.read i a found
    exact ⟨same, started.trans later, rest⟩
  | fetch i =>
    simp only [Lockout.step, serial i, Option.some.injEq] at taken
    subst taken
    exact inv.put (fun j busy => absurd (serial j) busy) ⟨rfl, le_rfl, inv.past⟩
  | verify i =>
    obtain ⟨a, found, rfl⟩ := Option.map_eq_some_iff.1 taken
    exact inv.put (fun j busy => inv.alone j i busy (by simp [found])) (inv.read i a found)
  | update =>
    simp only [Lockout.step] at taken
    split at taken
    · next _ _ found =>
      cases taken
      exact inv.update found serial
    · cases taken

/-- If attempts do not overlap, every one is counted, and from the threshold on the account is locked
for the whole duration after each of them. -/
theorem wrong_guesses_counted (cfg : Config) (count : ℕ) :
    (∀ w, Reach (step cfg) (Initial count) Serial w →
      count + w.returned.length ≤ w.row.failedLoginAttempts) ∧
    ∀ w, Reach (step cfg) (Initial count) Serial w → cfg.threshold ≤ w.returned.length →
      ∃ t, w.row.lockedUntil = some t ∧ ∀ s ∈ w.returned, s + minutes cfg.durationMinutes ≤ t := by
  have inv (w : World) (h : Reach (step cfg) (Initial count) Serial w) : Inv cfg count w := by
    refine h.invariant (fun s start => ?_) fun _ _ _ inv ok taken => inv.step ok taken
    obtain ⟨_, _⟩ := start
    constructor <;> simp_all [cfg.positive.ne']
  exact ⟨fun w h => (inv w h).counted.ge, fun w h => (inv w h).locked⟩

theorem wrong_guesses_counted_locked :
    ∃ w, Reach (step ⟨1, 30, by decide⟩) (Initial 0) Serial w ∧ w.returned = [0] ∧
      ∃ t, w.row.lockedUntil = some t ∧ ∀ s ∈ w.returned, s + minutes 30 ≤ t := by
  have start : Initial 0 ⟨⟨0, none, none⟩, 0, fun _ => none, []⟩ := ⟨rfl, fun _ => rfl, rfl⟩
  have read : Reach (step ⟨1, 30, by decide⟩) (Initial 0) Serial _ :=
    .next (e := .fetch 0) (.start start) (fun _ => rfl) rfl
  have fits : (0 : ℤ) < 2147483647 := by decide
  have returned := (read.next (e := Event.verify 0) trivial rfl).next (e := Event.update 0) fits rfl
  exact ⟨_, returned, rfl, (wrong_guesses_counted ⟨1, 30, by decide⟩ 0).2 _ returned (by decide)⟩

/-- Two attempts read the same count. -/
theorem overlapping_guess_lost :
    ∃ w, Reach (step ⟨2, 30, by decide⟩) (Initial 0) Any w ∧ w.returned.length = 2 ∧
      w.row.failedLoginAttempts = 1 ∧ w.row.lockedUntil = none :=
  Reach.exists_of_free _ _ ⟨⟨0, none, none⟩, 0, fun _ => none, []⟩ ⟨rfl, fun _ => rfl, rfl⟩
    [.fetch 0, .fetch 1, .verify 0, .verify 1, .update 0, .update 1] _ (by decide)

end ArtifactKeeper.Lockout
