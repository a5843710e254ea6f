import Mathlib.Data.List.Nodup
import Mathlib.Data.Prod.Lex

/-!
# Capped generation counters

A counter for each key that was bumped, in a table of bounded size, and an epoch that counts how
often the table was cleared.
-/

structure Generations (κ : Type*) where
  epoch : ℕ
  counts : List (κ × ℕ)
  distinct : (counts.map Prod.fst).Nodup

namespace Generations

open List Prod

variable {κ : Type*} [DecidableEq κ] {g : Generations κ} {k k' : κ} {counts : List (κ × ℕ)}

def start : Generations κ := ⟨0, [], nodup_nil⟩

/-- A key that is not in the table has the count zero. -/
def countOf : List (κ × ℕ) → κ → ℕ
  | [], _ => 0
  | (other, n) :: rest, k => if other = k then n else countOf rest k

def stamp (g : Generations κ) (k : κ) : ℕ ×ₗ ℕ := toLex (g.epoch, countOf g.counts k)

def increment : List (κ × ℕ) → κ → List (κ × ℕ)
  | [], k => [(k, 1)]
  | (other, n) :: rest, k =>
    if other = k then (other, n + 1) :: rest else (other, n) :: increment rest k

theorem countOf_increment (counts : List (κ × ℕ)) (k k' : κ) :
    countOf (increment counts k) k' = if k' = k then countOf counts k + 1 else countOf counts k' := by
  induction counts with
  | nil => by_cases same : k = k' <;> simp [increment, countOf, eq_comm]
  | cons entry _ ih =>
    obtain ⟨other, n⟩ := entry
    unfold increment
    by_cases here : other = k
    · subst here
      by_cases same : other = k'
      · simp [countOf, same]
      · simp [countOf, same, Ne.symm same]
    · rw [if_neg here, countOf, countOf, countOf, ih, if_neg here]
      by_cases same : k' = k
      · subst same
        simp [here]
      · simp [same]

theorem mem_increment : k' ∈ (increment counts k).map fst → k' = k ∨ k' ∈ counts.map fst := by
  induction counts with
  | nil => simp [increment]
  | cons entry _ ih =>
    obtain ⟨other, n⟩ := entry
    unfold increment
    by_cases here : other = k
    · rw [if_pos here]
      exact .inr
    · rw [if_neg here, map_cons, map_cons, mem_cons, mem_cons]
      rintro (same | mem)
      · exact .inr (.inl same)
      · exact (ih mem).imp_right .inr

theorem nodup_increment (distinct : (counts.map fst).Nodup) (k : κ) :
    ((increment counts k).map fst).Nodup := by
  induction counts with
  | nil => exact nodup_singleton k
  | cons entry _ ih =>
    obtain ⟨other, n⟩ := entry
    obtain ⟨absent, rest⟩ := nodup_cons.1 distinct
    unfold increment
    by_cases here : other = k
    · rw [if_pos here]
      exact distinct
    · rw [if_neg here]
      refine nodup_cons.2 ⟨fun mem => ?_, ih rest⟩
      rcases mem_increment mem with same | mem
      · exact here same
      · exact absent mem

/-- Count a key; a full table that does not have it is cleared first. -/
def bump (cap : ℕ) (g : Generations κ) (k : κ) : Generations κ :=
  if cap ≤ g.counts.length && !(g.counts.any fun entry => entry.1 = k) then
    ⟨g.epoch + 1, [(k, 1)], nodup_singleton k⟩
  else ⟨g.epoch, increment g.counts k, nodup_increment g.distinct k⟩

theorem stamp_lt_bump (cap : ℕ) (g : Generations κ) (k : κ) : g.stamp k < (g.bump cap k).stamp k := by
  unfold bump stamp
  split_ifs
  · exact Prod.Lex.toLex_lt_toLex.2 (.inl (Nat.lt_succ_self _))
  · refine Prod.Lex.toLex_lt_toLex.2 (.inr ⟨rfl, ?_⟩)
    rw [countOf_increment, if_pos rfl]
    exact Nat.lt_succ_self _

theorem stamp_le_bump (cap : ℕ) (g : Generations κ) (k k' : κ) :
    g.stamp k' ≤ (g.bump cap k).stamp k' := by
  by_cases same : k' = k
  · subst same
    exact (stamp_lt_bump cap g k').le
  · unfold bump stamp
    split_ifs
    · exact Prod.Lex.toLex_le_toLex.2 (.inl (Nat.lt_succ_self _))
    · refine Prod.Lex.toLex_le_toLex.2 (.inr ⟨rfl, ?_⟩)
      rw [countOf_increment, if_neg same]

end Generations
