import Mathlib.Algebra.BigOperators.Group.List.Basic
import Mathlib.Algebra.Order.Ring.Int

/-!
# Cutting a stream into blocks

A writer that collects bytes and sends a block whenever it has enough keeps a `Cut`: the blocks sent
so far have exactly the sizes asked for, what is left is too short for the next one, and together
they are what was read.
-/

namespace Blocks

open List

variable {β : Type*} {size : ℕ → ℕ} {read rest more : List β} {blocks : List (List β)}

def capacity (size : ℕ → ℕ) (n : ℕ) : ℕ := ((range n).map size).sum

theorem capacity_succ (size : ℕ → ℕ) (n : ℕ) : capacity size (n + 1) = capacity size n + size n := by
  simp [capacity, range_succ]

theorem capacity_mono (size : ℕ → ℕ) {n m : ℕ} (le : n ≤ m) : capacity size n ≤ capacity size m := by
  induction le with
  | refl => exact le_rfl
  | step _ ih => exact ih.trans (capacity_succ size _ ▸ Nat.le_add_right ..)

variable (size blocks) in
def Full : Prop :=
  blocks.map length = (range blocks.length).map size

theorem Full.push {block : List β} (full : Full size blocks)
    (exact : block.length = size blocks.length) : Full size (blocks ++ [block]) := by
  unfold Full at full ⊢
  rw [map_append, full, map_singleton, exact, length_append, length_singleton,
    range_succ, map_append, map_singleton]

theorem Full.length_flatten (full : Full size blocks) :
    blocks.flatten.length = capacity size blocks.length := by
  rw [List.length_flatten, full]
  rfl

theorem Full.length_getElem (full : Full size blocks) {i : ℕ} (inside : i < blocks.length) :
    blocks[i].length = size i := by
  have same : (blocks.map length)[i]? = ((range blocks.length).map size)[i]? :=
    congrArg (·[i]?) full
  simpa [inside] using same

variable (size blocks) in
/-- All blocks but the last are full, and the last is not too long. -/
def Sized : Prop :=
  ∀ (i : ℕ) (inside : i < blocks.length),
    blocks[i].length ≤ size i ∧ (i + 1 < blocks.length → blocks[i].length = size i)

theorem Full.sized (full : Full size blocks) : Sized size blocks := fun _ inside =>
  ⟨(full.length_getElem inside).le, fun _ => full.length_getElem inside⟩

theorem Full.sized_append {block : List β} (full : Full size blocks)
    (fits : block.length ≤ size blocks.length) : Sized size (blocks ++ [block]) := by
  intro i inside
  rw [length_append, length_singleton] at inside ⊢
  by_cases last : i = blocks.length
  · subst last
    rw [getElem_concat_length rfl]
    exact ⟨fits, fun after => absurd after (lt_irrefl _)⟩
  · have before : i < blocks.length := by omega
    rw [getElem_append_left before]
    have exact := full.length_getElem before
    exact ⟨exact.le, fun _ => exact⟩

variable (size read blocks) in
structure Cut (rest : List β) : Prop where
  whole : blocks.flatten ++ rest = read
  full : Full size blocks
  short : rest.length < size blocks.length

theorem Cut.nil (positive : 0 < size 0) : Cut size ([] : List β) [] [] := ⟨rfl, rfl, positive⟩

theorem Cut.keep (cut : Cut size read blocks rest)
    (short : (rest ++ more).length < size blocks.length) :
    Cut size (read ++ more) blocks (rest ++ more) :=
  ⟨by rw [← append_assoc, cut.whole], cut.full, short⟩

theorem Cut.push (cut : Cut size read blocks rest)
    (exact : (rest ++ more).length = size blocks.length) (positive : ∀ i, 0 < size i) :
    Cut size (read ++ more) (blocks ++ [rest ++ more]) [] := by
  refine ⟨?_, cut.full.push exact, positive _⟩
  rw [← cut.whole]
  simp

def finish (blocks : List (List β)) (rest : List β) : List (List β) :=
  if rest = [] then blocks else blocks ++ [rest]

section

variable (cut : Cut size read blocks rest)
include cut

theorem Cut.flatten_finish : (finish blocks rest).flatten = read := by
  unfold finish
  split_ifs with empty
  · rw [← cut.whole, empty, append_nil]
  · rw [← cut.whole]
    simp

theorem Cut.sized_finish : Sized size (finish blocks rest) := by
  unfold finish
  split_ifs
  · exact cut.full.sized
  · exact cut.full.sized_append cut.short.le

theorem Cut.length_le : read.length ≤ capacity size (finish blocks rest).length := by
  have full := cut.full.length_flatten
  have short := cut.short
  rw [← cut.whole, length_append, full]
  unfold finish
  split_ifs with empty
  · simp [empty]
  · rw [length_append, length_singleton, capacity_succ]
    omega

end

/-! ### Blocks of one size -/

def slice (n : ℕ) (whole : List β) (index : ℕ) : List β := (whole.drop (index * n)).take n

theorem flatten_slices (n : ℕ) (whole : List β) (count : ℕ) :
    ((range count).map (slice n whole)).flatten = whole.take (count * n) := by
  induction count with
  | zero => simp
  | succ _ ih =>
    rw [range_succ, map_append, flatten_append, ih, map_singleton,
      flatten_singleton, slice, Nat.succ_mul, take_add]

end Blocks
