import Mathlib.Algebra.Order.BigOperators.Group.List
import Mathlib.Algebra.Order.Ring.Int
import Mathlib.Data.List.AList

/-!
# Tables and the changes of a transaction

A table maps keys to rows, and `total f` adds up an integer over its rows.  The writes of a
transaction are a list of `Change`s, each with the row it replaces; `Valid t cs` says that these are
the rows found.
-/

namespace Changes

open List

variable {κ ρ : Type*}

abbrev Table (κ ρ : Type*) := AList (fun _ : κ => ρ)

/-! ### Totals -/

variable (f : κ → ρ → ℤ)

def total (t : Table κ ρ) : ℤ := (t.entries.map fun e => f e.1 e.2).sum

/-- What the row of a key adds to a total, if it is there. -/
def weight (k : κ) (row : Option ρ) : ℤ := row.elim 0 (f k)

theorem total_nonneg {f : κ → ρ → ℤ} (nonneg : ∀ k row, 0 ≤ f k row) (t : Table κ ρ) :
    0 ≤ total f t := by
  refine sum_nonneg fun x mem => ?_
  obtain ⟨e, -, rfl⟩ := mem_map.1 mem
  exact nonneg e.1 e.2

/-! ### Changes -/

structure Change (κ ρ : Type*) where
  key : κ
  old : Option ρ
  new : Option ρ
  deriving DecidableEq

def Change.delta (c : Change κ ρ) : ℤ := weight f c.key c.new - weight f c.key c.old

def deltas (cs : List (Change κ ρ)) : ℤ := (cs.map (Change.delta f)).sum

theorem deltas_append (cs ds : List (Change κ ρ)) :
    deltas f (cs ++ ds) = deltas f cs + deltas f ds := by
  simp [deltas]

theorem deltas_cons (c : Change κ ρ) (cs : List (Change κ ρ)) :
    deltas f (c :: cs) = c.delta f + deltas f cs := by
  simp [deltas]

theorem delta_add {f g h : κ → ρ → ℤ} (split : ∀ k row, f k row = g k row + h k row)
    (c : Change κ ρ) : c.delta f = c.delta g + c.delta h := by
  have weigh (row : Option ρ) : weight f c.key row = weight g c.key row + weight h c.key row := by
    cases row with
    | none => rfl
    | some row => exact split c.key row
  rw [Change.delta, Change.delta, Change.delta, weigh, weigh]
  omega

theorem deltas_add {f g h : κ → ρ → ℤ} (split : ∀ k row, f k row = g k row + h k row)
    (cs : List (Change κ ρ)) : deltas f cs = deltas g cs + deltas h cs := by
  induction cs with
  | nil => rfl
  | cons c _ ih =>
    rw [deltas_cons, deltas_cons, deltas_cons, ih, delta_add split]
    omega

variable {cs : List (Change κ ρ)}

theorem deltas_nonpos {f : κ → ρ → ℤ} (lower : ∀ c ∈ cs, c.delta f ≤ 0) : deltas f cs ≤ 0 := by
  induction cs with
  | nil => simp [deltas]
  | cons c _ ih =>
    have head := lower c (.head _)
    have tail := ih fun d mem => lower d (.tail _ mem)
    rw [deltas_cons]
    omega

/-! ### Writes -/

variable [DecidableEq κ] {t : Table κ ρ}

/-- Write or remove the row of a key. -/
def put (t : Table κ ρ) (k : κ) : Option ρ → Table κ ρ
  | some row => t.insert k row
  | none => t.erase k

theorem lookup_put (t : Table κ ρ) (k k' : κ) (row : Option ρ) :
    (put t k row).lookup k' = if k' = k then row else t.lookup k' := by
  by_cases same : k' = k
  · subst same
    cases row <;> simp [put]
  · cases row <;> simp [put, same]

variable (t) in
theorem total_erase (k : κ) :
    ((List.kerase k t.entries).map fun e => f e.1 e.2).sum =
      total f t - weight f k (t.lookup k) := by
  by_cases present : k ∈ t.keys
  · obtain ⟨row, before, after, _, split, erased⟩ := exists_of_kerase present
    have found : t.lookup k = some row :=
      AList.mem_lookup_iff.2 (by rw [split]; simp)
    have whole : total f t = ((before ++ ⟨k, row⟩ :: after).map fun e => f e.1 e.2).sum := by
      rw [total, split]
    rw [erased, found, whole]
    simp only [map_append, map_cons, sum_append, sum_cons, weight, Option.elim]
    omega
  · have missing : t.lookup k = none := AList.lookup_eq_none.2 present
    rw [kerase_of_notMem_keys present, missing]
    simp [total, weight]

variable (t) in
theorem total_put (k : κ) (row : Option ρ) :
    total f (put t k row) = total f t + (weight f k row - weight f k (t.lookup k)) := by
  have erased := total_erase f t k
  cases row with
  | none =>
    have entries : (put t k none).entries = List.kerase k t.entries := rfl
    rw [total, entries, erased]
    simp only [weight, Option.elim]
    omega
  | some row =>
    have entries : (put t k (some row)).entries = ⟨k, row⟩ :: List.kerase k t.entries :=
      AList.entries_insert
    rw [total, entries, map_cons, sum_cons, erased]
    simp only [weight, Option.elim]
    omega

/-! ### Runs of changes -/

def Change.apply (t : Table κ ρ) (c : Change κ ρ) : Table κ ρ := put t c.key c.new

open Change (delta apply)

def applyAll (t : Table κ ρ) (cs : List (Change κ ρ)) : Table κ ρ := cs.foldl apply t

def Valid : Table κ ρ → List (Change κ ρ) → Prop
  | _, [] => True
  | t, c :: cs => t.lookup c.key = c.old ∧ Valid (c.apply t) cs

theorem valid_append {cs ds : List (Change κ ρ)} :
    Valid t (cs ++ ds) ↔ Valid t cs ∧ Valid (applyAll t cs) ds := by
  induction cs generalizing t with
  | nil => simp [Valid, applyAll]
  | cons c _ ih =>
    rw [cons_append, Valid, Valid, ih, and_assoc]
    rfl

theorem total_applyAll (valid : Valid t cs) :
    total f (applyAll t cs) = total f t + deltas f cs := by
  induction cs generalizing t with
  | nil => simp [applyAll, deltas]
  | cons c cs ih =>
    have tail : total f (applyAll t (c :: cs)) = total f (c.apply t) + deltas f cs := ih valid.2
    rw [tail, apply, total_put, valid.1, deltas_cons, delta]
    omega

theorem lookup_applyAll_of_notMem {k : κ}
    (absent : k ∉ cs.map Change.key) : (applyAll t cs).lookup k = t.lookup k := by
  induction cs generalizing t with
  | nil => rfl
  | cons c cs ih =>
    rw [map_cons, mem_cons, not_or] at absent
    have tail : (applyAll t (c :: cs)).lookup k = (c.apply t).lookup k := ih absent.2
    rw [tail, apply, lookup_put, if_neg absent.1]

theorem weight_applyAll (k : κ) (valid : Valid t cs) :
    weight f k ((applyAll t cs).lookup k) = weight f k (t.lookup k) +
      deltas (fun k' row => if k' = k then f k' row else 0) cs := by
  induction cs generalizing t with
  | nil => simp [applyAll, deltas]
  | cons c cs ih =>
    have tail : weight f k ((applyAll t (c :: cs)).lookup k) = weight f k ((c.apply t).lookup k) +
        deltas (fun k' row => if k' = k then f k' row else 0) cs := ih valid.2
    have head : weight f k ((c.apply t).lookup k) = weight f k (t.lookup k) +
        c.delta fun k' row => if k' = k then f k' row else 0 := by
      rw [apply, lookup_put, delta, ← valid.1]
      by_cases same : k = c.key
      · subst same
        simp [weight]
      · have other : ¬c.key = k := Ne.symm same
        cases t.lookup c.key <;> cases c.new <;> simp [weight, same, other]
    rw [tail, head, deltas_cons]
    omega

theorem Valid.congr {t' : Table κ ρ} (valid : Valid t cs)
    (same : ∀ c ∈ cs, t'.lookup c.key = t.lookup c.key) : Valid t' cs := by
  induction cs generalizing t t' with
  | nil => trivial
  | cons c _ ih =>
    refine ⟨(same c (.head _)).trans valid.1, ih valid.2 fun d mem => ?_⟩
    rw [apply, apply, lookup_put, lookup_put, same d (.tail _ mem)]

end Changes
