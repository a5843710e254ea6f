import Mathlib.Algebra.Order.Ring.Int

/-!
# Cached reads

A cache from keys to values with a time to live, and what it means for a value to have been read
from a state that is no older than a given one.  The states of a store are numbered in the order in
which they were committed.
-/

namespace CachedReads

open Option

variable {K V : Type*}

/-- A cached value and the time of its insertion. -/
structure Entry (V : Type*) where
  value : V
  insertedAt : ℤ
  deriving DecidableEq

def Entry.isExpired (ttl now : ℤ) (e : Entry V) : Bool := ttl < now - e.insertedAt

structure Cache (K V : Type*) where
  entries : K → Option (Entry V)

namespace Cache

def empty : Cache K V := ⟨fun _ => none⟩

/-- The value of an entry that has not expired. -/
def get (ttl now : ℤ) (c : Cache K V) (k : K) : Option V :=
  ((c.entries k).filter fun e => !e.isExpired ttl now).map Entry.value

def insert [DecidableEq K] (ttl now : ℤ) (c : Cache K V) (k : K) (v : V) : Cache K V :=
  ⟨fun k' =>
    if k' = k then some ⟨v, now⟩ else (c.entries k').filter fun e => !e.isExpired ttl now⟩

/-- Every entry satisfies `p`. -/
def All (p : K → V → Prop) (c : Cache K V) : Prop := ∀ k e, c.entries k = some e → p k e.value

variable {p q : K → V → Prop} {c : Cache K V}

theorem all_empty : (empty : Cache K V).All p := fun _ _ found => nomatch found

theorem All.mono (h : c.All p) (weaker : ∀ k v, p k v → q k v) : c.All q :=
  fun k e found => weaker k e.value (h k e found)

variable {ttl now : ℤ} {k : K} {v : V}

theorem All.get (h : c.All p) (found : c.get ttl now k = some v) : p k v := by
  obtain ⟨e, kept, rfl⟩ := map_eq_some_iff.1 found
  exact h k e (filter_eq_some_iff.1 kept).1

theorem All.insert [DecidableEq K] (h : c.All p) (new : p k v) : (c.insert ttl now k v).All p := by
  intro k' e found
  simp only [Cache.insert] at found
  split_ifs at found with same
  · cases found
    exact same ▸ new
  · exact h k' e (filter_eq_some_iff.1 found).1

end Cache

variable {D A B : Type*} {states : List D} {floor : ℕ} {f : D → A} {a : A}

variable (states floor f a) in
/-- `a` is what `f` finds in a state from number `floor` on. -/
def Since : Prop :=
  ∃ v db, floor ≤ v ∧ states[v]? = some db ∧ f db = a

section

variable (h : Since states floor f a)
include h

theorem Since.append (more : List D) : Since (states ++ more) floor f a := by
  obtain ⟨v, db, bound, here, found⟩ := h
  exact ⟨v, db, bound, List.getElem?_append_left (List.getElem?_eq_some_iff.1 here).1 ▸ here, found⟩

theorem Since.weaken {below : ℕ} (le : below ≤ floor) : Since states below f a := by
  obtain ⟨v, db, bound, found⟩ := h
  exact ⟨v, db, le.trans bound, found⟩

theorem Since.map (g : A → B) : Since states floor (fun db => g (f db)) (g a) := by
  obtain ⟨v, db, bound, here, rfl⟩ := h
  exact ⟨v, db, bound, here, rfl⟩

end

end CachedReads
