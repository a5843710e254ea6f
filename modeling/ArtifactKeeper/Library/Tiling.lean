import Mathlib.Algebra.Order.BigOperators.Group.List
import Mathlib.Algebra.Order.Ring.Int

/-!
# Lists of adjacent intervals

An element `a` stands for the integers from `offset a` on, `length a` of them.  `Tiles` says that
the intervals of a list follow each other without a gap from `lo` to `hi`.
-/

namespace Tiling

open List

variable {α : Type*} {offset length : α → ℤ} {lo mid hi : ℤ}

/-- Each interval starts where the one before ends, the first at `lo`, and the last ends at `hi`. -/
def Tiles (offset length : α → ℤ) : List α → ℤ → ℤ → Prop
  | [], lo, hi => lo = hi
  | a :: as, lo, hi => offset a = lo ∧ Tiles offset length as (lo + length a) hi

instance decidableTiles (hi : ℤ) :
    ∀ (as : List α) (lo : ℤ), Decidable (Tiles offset length as lo hi)
  | [], lo => inferInstanceAs (Decidable (lo = hi))
  | a :: as, lo =>
    have := decidableTiles hi as (lo + length a)
    inferInstanceAs (Decidable (_ ∧ _))

/-- The integer belongs to the interval. -/
def Covers (offset length : α → ℤ) (k : ℤ) (a : α) : Prop := offset a ≤ k ∧ k < offset a + length a

theorem Tiles.append {as bs : List α} (first : Tiles offset length as lo mid)
    (second : Tiles offset length bs mid hi) : Tiles offset length (as ++ bs) lo hi := by
  induction as generalizing lo with
  | nil => exact first ▸ second
  | cons a _ ih => exact ⟨first.1, ih first.2⟩

section

variable {as : List α} (h : Tiles offset length as lo hi)
include h

theorem Tiles.total : hi = lo + (as.map length).sum := by
  induction as generalizing lo with
  | nil => simpa using h.symm
  | cons a _ ih =>
    rw [ih h.2, map_cons, sum_cons]
    omega

theorem Tiles.le_mul {bound : ℤ} (bounded : ∀ a ∈ as, length a ≤ bound) :
    hi ≤ lo + as.length * bound := by
  have sum := sum_le_card_nsmul (as.map length) bound (by simpa using bounded)
  rw [length_map, nsmul_eq_mul] at sum
  have total := h.total
  omega

/-- Nonempty tiles lie between the ends. -/
theorem Tiles.bounds (positive : ∀ a ∈ as, 1 ≤ length a) {a : α} (mem : a ∈ as) :
    lo ≤ offset a ∧ offset a + length a ≤ hi := by
  induction as generalizing lo with
  | nil => cases mem
  | cons b bs ih =>
    have rest : ∀ a ∈ bs, 1 ≤ length a := fun a mem => positive a (.tail _ mem)
    have here := positive b (.head _)
    have sum := sum_nonneg (l := bs.map length) (by
      simp only [mem_map, forall_exists_index, and_imp, forall_apply_eq_imp_iff₂]
      exact fun a mem => by have := rest a mem; omega)
    have total := h.2.total
    rcases mem_cons.1 mem with rfl | later
    · have start := h.1
      exact ⟨by omega, by omega⟩
    · have inside := ih h.2 rest later
      exact ⟨by omega, inside.2⟩

theorem Tiles.existsUnique (positive : ∀ a ∈ as, 1 ≤ length a) {k : ℤ}
    (above : lo ≤ k) (below : k < hi) :
    ∃! a, a ∈ as ∧ Covers offset length k a := by
  induction as generalizing lo with
  | nil =>
    have same : lo = hi := h
    omega
  | cons b bs ih =>
    have rest : ∀ a ∈ bs, 1 ≤ length a := fun a mem => positive a (.tail _ mem)
    have start := h.1
    by_cases first : k < lo + length b
    · refine ⟨b, ⟨.head _, by omega, by omega⟩, fun a ⟨mem, covers⟩ => ?_⟩
      rcases mem_cons.1 mem with same | later
      · exact same
      · have inside := h.2.bounds rest later
        have covered := covers.1
        omega
    · obtain ⟨a, ⟨mem, covers⟩, unique⟩ := ih h.2 rest (by omega)
      refine ⟨a, ⟨.tail _ mem, covers⟩, fun a' ⟨mem', covers'⟩ => ?_⟩
      rcases mem_cons.1 mem' with rfl | later
      · have covered := covers'.2
        omega
      · exact unique a' ⟨later, covers'⟩

end

theorem tiles_map {β : Type*} {f : β → α} (bs : List β) :
    Tiles offset length (bs.map f) lo hi ↔ Tiles (offset ∘ f) (length ∘ f) bs lo hi := by
  induction bs generalizing lo with
  | nil => exact .rfl
  | cons b _ ih => exact and_congr_right fun _ => ih

/-- The intervals between consecutive cut points. -/
theorem tiles_map_range {f : ℕ → α} {cut : ℕ → ℤ} (n : ℕ) (starts : ∀ i < n, offset (f i) = cut i)
    (ends : ∀ i < n, length (f i) = cut (i + 1) - cut i) :
    Tiles offset length ((List.range n).map f) (cut 0) (cut n) := by
  induction n with
  | zero => rfl
  | succ n ih =>
    rw [range_succ, map_append]
    have front := ih (fun i less => starts i (by omega)) fun i less => ends i (by omega)
    refine front.append ⟨starts n (by omega), ?_⟩
    show cut n + length (f n) = cut (n + 1)
    have last := ends n (by omega)
    omega

end Tiling
