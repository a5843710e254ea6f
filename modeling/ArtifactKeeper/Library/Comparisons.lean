import Mathlib.Algebra.Order.Ring.Int

/-!
# Comparisons by parts

A comparison function is a total preorder if it is a `Std.TransCmp`.  Versions are compared by their
parts: by a key (`transCmp_on`), by values of two kinds of which one is below the other (`below`),
and position by position, where a list that has ended goes on with a fixed value (`padded`).
-/

namespace Comparisons

open List Ordering Std.OrientedCmp Std.TransCmp

variable {α β : Type*}

theorem orientedCmp_on (cmp : β → β → Ordering) [Std.OrientedCmp cmp] (key : α → β) :
    Std.OrientedCmp fun a b => cmp (key a) (key b) where
  eq_swap := eq_swap

theorem transCmp_on (cmp : β → β → Ordering) [Std.TransCmp cmp] (key : α → β) :
    Std.TransCmp fun a b => cmp (key a) (key b) where
  eq_swap := eq_swap
  isLE_trans := isLE_trans

theorem transCmp_then (first second : α → α → Ordering) [Std.TransCmp first] [Std.TransCmp second] :
    Std.TransCmp fun a b => (first a b).then (second a b) :=
  inferInstanceAs (Std.TransCmp (compareLex first second))

/-- What lies between two values that are equal to a third is equal to it. -/
theorem eq_of_between {cmp : α → α → Ordering} [Std.TransCmp cmp] {a b c d : α}
    (lower : (cmp a b).isLE = true) (upper : (cmp b c).isLE = true) (first : cmp a d = .eq)
    (last : cmp c d = .eq) : cmp b d = .eq := by
  have least : (cmp d a).isLE = true :=
    isLE_of_eq_eq (eq_comm.1 first)
  have greatest : (cmp c d).isLE = true := isLE_of_eq_eq last
  exact isLE_antisymm (isLE_trans upper greatest) (isLE_trans least lower)

/-! ### Two kinds -/

/-- The values of one kind are below those of the other. -/
def below (low : α → α → Ordering) (high : β → β → Ordering) : α ⊕ β → α ⊕ β → Ordering
  | .inl a, .inl b => low a b
  | .inl _, .inr _ => .lt
  | .inr _, .inl _ => .gt
  | .inr a, .inr b => high a b

instance transCmp_below (low : α → α → Ordering) (high : β → β → Ordering) [Std.TransCmp low]
    [Std.TransCmp high] : Std.TransCmp (below low high) where
  eq_swap {a b} := by
    cases a <;> cases b <;> simp only [below]
    · exact eq_swap
    · rfl
    · rfl
    · exact eq_swap
  isLE_trans {a b c} first second := by
    cases a <;> cases b <;> cases c <;> simp only [below] at first second ⊢
    · exact isLE_trans first second
    · rfl
    · cases second
    · rfl
    · cases first
    · cases first
    · cases second
    · exact isLE_trans first second

/-! ### Lists that go on -/

section Padded

variable (cmp : α → α → Ordering) (pad : α)

def ended : List α → Ordering
  | [] => .eq
  | b :: bs => (cmp pad b).then (ended bs)

/-- Position by position, a missing value being `pad`. -/
def padded : List α → List α → Ordering
  | [], bs => ended cmp pad bs
  | a :: as, [] => (cmp a pad).then (padded as [])
  | a :: as, b :: bs => (cmp a b).then (padded as bs)

/-- The first values of a list that goes on. -/
def goOn (n : ℕ) (as : List α) : List α := as ++ replicate (n - as.length) pad

variable {cmp pad}

@[simp] theorem goOn_nil_succ (n : ℕ) : goOn pad (n + 1) [] = pad :: goOn pad n [] := by
  simp [goOn, replicate_succ]

@[simp] theorem goOn_cons_succ (n : ℕ) (a : α) (as : List α) :
    goOn pad (n + 1) (a :: as) = a :: goOn pad n as := by
  simp [goOn]

/-- Enough values decide. -/
theorem padded_eq_compareLex [Std.ReflCmp cmp] (n : ℕ) (as bs : List α) (left : as.length ≤ n)
    (right : bs.length ≤ n) :
    padded cmp pad as bs = List.compareLex cmp (goOn pad n as) (goOn pad n bs) := by
  induction n generalizing as bs with
  | zero =>
    obtain rfl := length_eq_zero_iff.1 (Nat.le_zero.1 left)
    obtain rfl := length_eq_zero_iff.1 (Nat.le_zero.1 right)
    rfl
  | succ n ih =>
    cases as with
    | nil =>
      cases bs with
      | nil =>
        have same : cmp pad pad = .eq := Std.ReflCmp.compare_self
        rw [goOn_nil_succ, List.compareLex_cons_cons, same, ← ih [] [] (by simp) (by simp)]
        rfl
      | cons b bs =>
        rw [goOn_nil_succ, goOn_cons_succ, List.compareLex_cons_cons,
          ← ih [] bs (by simp) (by simpa using right)]
        rfl
    | cons a as =>
      cases bs with
      | nil =>
        rw [goOn_nil_succ, goOn_cons_succ, List.compareLex_cons_cons,
          ← ih as [] (by simpa using left) (by simp)]
        rfl
      | cons b bs =>
        rw [goOn_cons_succ, goOn_cons_succ, List.compareLex_cons_cons,
          ← ih as bs (by simpa using left) (by simpa using right)]
        rfl

instance orientedCmp_padded [Std.OrientedCmp cmp] : Std.OrientedCmp (padded cmp pad) where
  eq_swap {as bs} := by
    have left : as.length ≤ as.length + bs.length := by omega
    have right : bs.length ≤ as.length + bs.length := by omega
    rw [padded_eq_compareLex _ as bs left right, padded_eq_compareLex _ bs as right left]
    exact eq_swap

instance transCmp_padded [Std.TransCmp cmp] : Std.TransCmp (padded cmp pad) where
  isLE_trans {as bs cs} first second := by
    have left : as.length ≤ as.length + bs.length + cs.length := by omega
    have middle : bs.length ≤ as.length + bs.length + cs.length := by omega
    have right : cs.length ≤ as.length + bs.length + cs.length := by omega
    rw [padded_eq_compareLex _ as bs left middle] at first
    rw [padded_eq_compareLex _ bs cs middle right] at second
    rw [padded_eq_compareLex _ as cs left right]
    exact isLE_trans first second

theorem padded_map (key : β → α) (pad : β) (as bs : List β) :
    padded cmp (key pad) (as.map key) (bs.map key) =
      padded (fun a b => cmp (key a) (key b)) pad as bs := by
  induction as generalizing bs with
  | nil =>
    induction bs with
    | nil => rfl
    | cons b _ ih => exact congrArg ((cmp (key pad) (key b)).then ·) ih
  | cons a _ ih =>
    cases bs with
    | nil => exact congrArg ((cmp (key a) (key pad)).then ·) (ih [])
    | cons b bs => exact congrArg ((cmp (key a) (key b)).then ·) (ih bs)

end Padded

/-! ### Greatest first -/

theorem find?_sorted {r : α → α → Prop} {p : α → Bool} {as : List α} {a : α} (sorted : as.Pairwise r)
    (found : as.find? p = some a) {b : α} (mem : b ∈ as) (also : p b = true) : b = a ∨ r a b := by
  obtain ⟨-, _, _, rfl, none⟩ := find?_eq_some_iff_append.1 found
  rcases mem_append.1 mem with early | here
  · have := none b early
    simp [also] at this
  · rcases mem_cons.1 here with same | late
    · exact .inl same
    · have tail := (pairwise_append.1 sorted).2.1
      exact .inr ((pairwise_cons.1 tail).1 b late)

/-! ### Numbers -/

def sign : Ordering → ℤ
  | .lt => -1
  | .eq => 0
  | .gt => 1

variable {o : Ordering}

theorem sign_inj {o' : Ordering} : sign o = sign o' ↔ o = o' := by
  cases o <;> cases o' <;> decide

theorem sign_swap (o : Ordering) : sign o.swap = -sign o := by cases o <;> rfl

theorem sign_nonpos : sign o ≤ 0 ↔ o.isLE = true := by cases o <;> decide

theorem sign_neg : sign o < 0 ↔ o = .lt := by cases o <;> decide

theorem sign_eq_zero : sign o = 0 ↔ o = .eq := by cases o <;> decide

theorem sign_pos : 0 < sign o ↔ o = .gt := by cases o <;> decide

theorem sign_nonneg : 0 ≤ sign o ↔ o.isGE = true := by cases o <;> decide

end Comparisons

/-! ### Comparisons of three values -/

namespace Orders

/-- Transitivity of `x`, `y`, `z` taken in this order. -/
def Follows (xy yz xz : Ordering) : Prop := xy ≠ .gt → yz ≠ .gt → xz ≠ .gt

/-- Transitivity of `x`, `y`, `z` taken in any order. -/
def Lawful (xy yz xz : Ordering) : Prop :=
  Follows xy yz xz ∧ Follows xz yz.swap xy ∧ Follows xy.swap xz yz ∧
    Follows yz xz.swap xy.swap ∧ Follows xz.swap xy yz.swap ∧ Follows yz.swap xy.swap xz.swap

/-- Two values that compare to a third as `x` and `y` compare to each other as `xy`, so that those
on different sides of the third are in order, and those equal to it are equal. -/
def Sided (x y xy : Ordering) : Prop := x = y ∧ x ≠ .eq ∨ xy = x.then y.swap

instance (xy yz xz : Ordering) : Decidable (Follows xy yz xz) :=
  inferInstanceAs (Decidable (_ → _))

instance (xy yz xz : Ordering) : Decidable (Lawful xy yz xz) :=
  inferInstanceAs (Decidable (_ ∧ _))

instance (x y xy : Ordering) : Decidable (Sided x y xy) :=
  inferInstanceAs (Decidable (_ ∨ _))

theorem then_of_ne {o : Ordering} (decided : o ≠ .eq) (rest : Ordering) : o.then rest = o := by
  cases o <;> trivial

theorem lawful_first_iff (x y xy : Ordering) : Lawful x.swap xy y.swap ↔ Sided x y xy := by
  cases x <;> cases y <;> cases xy <;> decide

/-- The third value comes between the two. -/
theorem lawful_middle_iff (x y xy : Ordering) : Lawful x y.swap xy ↔ Sided x y xy := by
  cases x <;> cases y <;> cases xy <;> decide

theorem lawful_last_iff (x y xy : Ordering) : Lawful xy y x ↔ Sided x y xy := by
  cases x <;> cases y <;> cases xy <;> decide

theorem sided_swap (x y xy : Ordering) : Sided y x xy.swap ↔ Sided x y xy := by
  cases x <;> cases y <;> cases xy <;> decide

theorem Sided.then {x y xy : Ordering} (heads : Sided x y xy) (some : ¬(x = .eq ∧ y = .eq))
    (x' y' xy' : Ordering) : Sided (x.then x') (y.then y') (xy.then xy') := by
  cases x <;> cases y <;> cases xy <;> first
    | exact absurd heads (by decide)
    | exact absurd ⟨rfl, rfl⟩ some
    | (cases x' <;> cases y' <;> decide +revert)

theorem sided_iff_of_ne {x y xy : Ordering} (differ : x ≠ .eq) : Sided x y xy ↔ x = y ∨ xy = x := by
  cases x <;> cases y <;> cases xy <;> simp_all [Sided]

/-- What bounds one of two values in order bounds the other. -/
theorem Lawful.bounds {xy yz xz : Ordering} (law : Lawful xy yz xz) (le : xy ≠ .gt) :
    (xz ≠ .lt → yz ≠ .lt) ∧ (xz = .gt → yz = .gt) ∧ (yz ≠ .gt → xz ≠ .gt) ∧
      (yz = .lt → xz = .lt) := by
  cases xy <;> cases yz <;> cases xz <;> revert law le <;> decide

theorem Lawful.lex_iff {xy yz xz : Ordering} (heads : Lawful xy yz xz) (xy' yz' xz' : Ordering) :
    Lawful (xy.then xy') (yz.then yz') (xz.then xz') ↔
      (xy = .eq → yz = .eq → Lawful xy' yz' xz') := by
  cases xy <;> cases yz <;> cases xz <;>
    first
    | exact absurd heads (by decide)
    | simp [Ordering.then]
  all_goals first
    | decide
    | (cases xy' <;> decide)
    | (cases yz' <;> decide)
    | (cases xz' <;> decide)

/-! Two values on one side of the third, which is `z`, `x` or `y`. -/

@[simp] theorem lawful_lt_lt (xy : Ordering) : Lawful xy .lt .lt := by cases xy <;> decide

@[simp] theorem lawful_gt_gt (xy : Ordering) : Lawful xy .gt .gt := by cases xy <;> decide

@[simp] theorem lawful_lt_any_lt (yz : Ordering) : Lawful .lt yz .lt := by cases yz <;> decide

@[simp] theorem lawful_gt_any_gt (yz : Ordering) : Lawful .gt yz .gt := by cases yz <;> decide

@[simp] theorem lawful_lt_gt (xz : Ordering) : Lawful .lt .gt xz := by cases xz <;> decide

@[simp] theorem lawful_gt_lt (xz : Ordering) : Lawful .gt .lt xz := by cases xz <;> decide

theorem follows_compare {α : Type*} [Ord α] [Std.TransOrd α] (x y z : α) :
    Follows (compare x y) (compare y z) (compare x z) := by
  intro first second
  have first : (compare x y).isLE = true := Ordering.isLE_iff_ne_gt.2 first
  have second : (compare y z).isLE = true := Ordering.isLE_iff_ne_gt.2 second
  exact Ordering.isLE_iff_ne_gt.1 (Std.TransCmp.isLE_trans first second)

theorem lawful_compare {α : Type*} [Ord α] [Std.TransOrd α] (x y z : α) :
    Lawful (compare x y) (compare y z) (compare x z) := by
  have swap (x y : α) : (compare x y).swap = compare y x := Std.OrientedOrd.eq_swap.symm
  simp only [Lawful, swap]
  exact ⟨follows_compare x y z, follows_compare x z y, follows_compare y x z,
    follows_compare y z x, follows_compare z x y, follows_compare z y x⟩

end Orders
