import Mathlib.Data.List.Basic

/-!
# Step systems

A step system is an executable partial function `step : σ → ε → Option σ`.  `Reach step init ok s`
says that `s` is reached from an initial state by steps that each satisfy the side condition `ok` in
the state before the step.
-/

namespace StepSystem

open Option

variable {σ ε : Type*}

/-- The states reached from `init` by steps that satisfy `ok`. -/
inductive Reach (step : σ → ε → Option σ) (init : σ → Prop) (ok : σ → ε → Prop) : σ → Prop
  | start {s : σ} (initial : init s) : Reach step init ok s
  | next {s s' : σ} {e : ε} (before : Reach step init ok s) (allowed : ok s e)
      (taken : step s e = some s') : Reach step init ok s'

def Any (_ : σ) (_ : ε) : Prop := True

def run (check : σ → ε → Bool) (step : σ → ε → Option σ) : σ → List ε → Option σ
  | s, [] => some s
  | s, e :: es => if check s e then (step s e).bind fun s' => run check step s' es else none

def unchecked (_ : σ) (_ : ε) : Bool := true

variable {step : σ → ε → Option σ} {init : σ → Prop} {ok : σ → ε → Prop}

/-- The induction rule of every safety proof. -/
theorem Reach.invariant {inv : σ → Prop} (base : ∀ s, init s → inv s)
    (preserved : ∀ s e s', inv s → ok s e → step s e = some s' → inv s') {s : σ}
    (h : Reach step init ok s) : inv s := by
  induction h with
  | start initial => exact base _ initial
  | next _ allowed taken ih => exact preserved _ _ _ ih allowed taken

theorem Reach.mono {init' : σ → Prop} {ok' : σ → ε → Prop} (starts : ∀ s, init s → init' s)
    (weaker : ∀ s e, ok s e → ok' s e) {s : σ} (h : Reach step init ok s) :
    Reach step init' ok' s := by
  induction h with
  | start initial => exact .start (starts _ initial)
  | next _ allowed taken ih => exact .next ih (weaker _ _ allowed) taken

theorem Reach.strengthen {known : σ → Prop} (also : ∀ s, Reach step init ok s → known s) {s : σ}
    (h : Reach step init ok s) : Reach step init (fun s e => known s ∧ ok s e) s := by
  induction h with
  | start initial => exact .start initial
  | next before allowed taken ih => exact .next ih ⟨also _ before, allowed⟩ taken

theorem Reach.trans {s s' : σ} (h : Reach step init ok s) (rest : Reach step (· = s) ok s') :
    Reach step init ok s' := by
  induction rest with
  | start initial => exact initial ▸ h
  | next _ allowed taken ih => exact .next ih allowed taken

theorem Reach.of_run {check : σ → ε → Bool} (checked : ∀ s e, check s e = true → ok s e) {s s' : σ}
    {es : List ε} (h : Reach step init ok s) (taken : run check step s es = some s') :
    Reach step init ok s' := by
  induction es generalizing s with
  | nil =>
    simp only [run, some.injEq] at taken
    exact taken ▸ h
  | cons e _ ih =>
    simp only [run] at taken
    split_ifs at taken with here
    obtain ⟨_, first, rest⟩ := bind_eq_some_iff.1 taken
    exact ih (.next h (checked s e here) first) rest

/-- A concrete run that ends in a state with `p` proves that such a state is reached. -/
theorem Reach.exists_of_run {check : σ → ε → Bool} (checked : ∀ s e, check s e = true → ok s e)
    (first : Option σ) (es : List ε) (p : σ → Prop) [DecidablePred p]
    (reached : ∀ s, first = some s → Reach step init ok s)
    (ends : (first.bind fun s => run check step s es).any (fun s => decide (p s)) = true) :
    ∃ s', Reach step init ok s' ∧ p s' := by
  obtain ⟨s', ran, holds⟩ := (any_eq_true _ _).1 ends
  obtain ⟨s, found, taken⟩ := bind_eq_some_iff.1 ran
  exact ⟨s', (reached s found).of_run checked taken, of_decide_eq_true holds⟩

variable (step init)

theorem Reach.exists_of_start {check : σ → ε → Bool}
    (checked : ∀ s e, check s e = true → ok s e) (s : σ) (start : init s) (es : List ε)
    (p : σ → Prop) [DecidablePred p]
    (ends : (run check step s es).any (fun s => decide (p s)) = true) :
    ∃ s', Reach step init ok s' ∧ p s' :=
  Reach.exists_of_run checked (some s) es p (fun _ found => .start (some.inj found ▸ start)) ends

theorem Reach.exists_of_free (s : σ) (start : init s) (es : List ε) (p : σ → Prop) [DecidablePred p]
    (ends : (run unchecked step s es).any (fun s => decide (p s)) = true) :
    ∃ s', Reach step init Any s' ∧ p s' :=
  Reach.exists_of_start step init (fun _ _ _ => trivial) s start es p ends

end StepSystem
