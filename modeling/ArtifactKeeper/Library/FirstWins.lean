import Mathlib.Data.List.AList

/-!
# Maps where the first writer wins

`orInsert` writes a key only if it is not there yet.  A map filled in this way holds for each key
the first value that was offered for it (`lookup_insertAll`), and the offers of several sources
count in the order of the sources (`firstOf_flatMap`).
-/

namespace FirstWins

open List

variable {α β : Type*} [DecidableEq α] (m : AList fun _ : α => β)

/-- Write a key that is not there yet. -/
def orInsert (key : α) (value : β) : AList fun _ : α => β :=
  if key ∈ m then m else m.insert key value

variable (offers : List (α × β))

def insertAll : AList fun _ : α => β :=
  offers.foldl (fun m offer => orInsert m offer.1 offer.2) m

def firstOf (key : α) : Option β :=
  (offers.find? fun offer => offer.1 = key).map (·.2)

def pairs : List (α × β) := m.entries.map fun entry => (entry.1, entry.2)

theorem lookup_orInsert (key : α) (value : β) (k : α) :
    (orInsert m key value).lookup k = (m.lookup k).or (if k = key then some value else none) := by
  unfold orInsert
  by_cases present : key ∈ m
  · rw [if_pos present]
    by_cases same : k = key
    · subst same
      obtain ⟨v, found⟩ := Option.isSome_iff_exists.1 (AList.lookup_isSome.2 present)
      simp [found]
    · simp [same]
  · rw [if_neg present]
    by_cases same : k = key
    · subst same
      simp [AList.lookup_eq_none.2 present]
    · simp [same]

@[simp] theorem firstOf_nil (key : α) : firstOf ([] : List (α × β)) key = none := rfl

theorem firstOf_cons (offer : α × β) (offers : List (α × β)) (key : α) :
    firstOf (offer :: offers) key = if offer.1 = key then some offer.2 else firstOf offers key := by
  by_cases same : offer.1 = key <;> simp [firstOf, same]

theorem firstOf_append (first second : List (α × β)) (key : α) :
    firstOf (first ++ second) key = (firstOf first key).or (firstOf second key) := by
  simp only [firstOf, find?_append, Option.map_or]

theorem lookup_insertAll (k : α) :
    (insertAll m offers).lookup k = (m.lookup k).or (firstOf offers k) := by
  induction offers generalizing m with
  | nil => simp [insertAll]
  | cons offer _ ih =>
    have step := ih (orInsert m offer.1 offer.2)
    simp only [insertAll, foldl_cons] at step ⊢
    rw [step, lookup_orInsert, firstOf_cons]
    by_cases same : offer.1 = k
    · simp [same]
    · simp [same, Ne.symm same]

theorem insertAll_append (first second : List (α × β)) :
    insertAll m (first ++ second) = insertAll (insertAll m first) second :=
  foldl_append

theorem firstOf_flatMap {γ : Type*} (sources : List γ) (offers : γ → List (α × β)) (k : α) :
    firstOf (sources.flatMap offers) k =
      sources.findSome? fun source => firstOf (offers source) k := by
  induction sources with
  | nil => rfl
  | cons source _ ih =>
    rw [flatMap_cons, firstOf_append, ih, findSome?_cons]
    cases firstOf (offers source) k <;> rfl

theorem firstOf_filter_pairs (test : α → β → Bool) (k : α) :
    firstOf ((pairs m).filter fun offer => test offer.1 offer.2) k =
      (m.lookup k).filter (test k) := by
  obtain ⟨entries, distinct⟩ := m
  unfold pairs AList.lookup
  induction entries with
  | nil => rfl
  | cons entry entries ih =>
    obtain ⟨key, value⟩ := entry
    obtain ⟨fresh, rest⟩ := nodupKeys_cons.1 distinct
    have step := ih rest
    by_cases same : k = key
    · subst same
      have absent : List.dlookup k entries = none := dlookup_eq_none.2 fresh
      rw [absent] at step
      cases passes : test k value <;> simp [passes, Option.filter, step, firstOf_cons]
    · rw [dlookup_cons_ne _ _ same, ← step]
      cases passes : test key value <;> simp [passes, firstOf_cons, Ne.symm same]

end FirstWins
