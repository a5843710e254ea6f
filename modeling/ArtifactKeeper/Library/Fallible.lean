import Mathlib.Data.List.Basic

/-!
# Computations that may fail

A computation with errors succeeds exactly if each of its parts does.  For loops there are two rules:
what every step keeps holds at the end of a loop that succeeds, and a loop succeeds if each of its
steps does.
-/

namespace Fallible

open List

variable {ε σ τ α : Type}

theorem bind_eq_ok {x : Except ε σ} {f : σ → Except ε τ} {t : τ} :
    x >>= f = .ok t ↔ ∃ s, x = .ok s ∧ f s = .ok t := by
  cases x with
  | error e | ok s => simp [bind, Except.bind]

theorem mapError_eq_ok {ε' : Type} {x : Except ε σ} {f : ε → ε'} {s : σ} :
    x.mapError f = .ok s ↔ x = .ok s := by
  cases x <;> simp [Except.mapError]

variable {step : σ → α → Except ε σ} (Inv : List α → σ → Prop)

section

variable (keep : ∀ done s a s', Inv done s → step s a = .ok s' → Inv (done ++ [a]) s')
include keep

theorem invariant {done todo : List α} {s t : σ} (start : Inv done s)
    (run : todo.foldlM step s = .ok t) :
    Inv (done ++ todo) t := by
  induction todo generalizing done s with
  | nil =>
    cases run
    rwa [append_nil]
  | cons a _ ih =>
    rw [foldlM_cons] at run
    obtain ⟨s', first, rest⟩ := bind_eq_ok.1 run
    rw [append_cons]
    exact ih (keep done s a s' start first) rest

theorem succeeds {done todo : List α} {s : σ} (start : Inv done s)
    (next : ∀ front a back s', todo = front ++ a :: back → Inv (done ++ front) s' →
      ∃ s'', step s' a = .ok s'') :
    ∃ t, todo.foldlM step s = .ok t ∧ Inv (done ++ todo) t := by
  induction todo generalizing done s with
  | nil => exact ⟨s, rfl, by rwa [append_nil]⟩
  | cons a todo ih =>
    obtain ⟨s', first⟩ := next [] a todo s rfl (by rwa [append_nil])
    obtain ⟨t, rest, _⟩ := ih (keep done s a s' start first) (by
      intro front b back s'' split
      rw [append_assoc, singleton_append]
      exact next (a :: front) b back s'' (by rw [split, cons_append]))
    refine ⟨t, ?_, by rwa [append_cons]⟩
    rw [foldlM_cons]
    exact bind_eq_ok.2 ⟨s', first, rest⟩

end

end Fallible
