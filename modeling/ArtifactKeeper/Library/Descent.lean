import Mathlib.Data.List.Basic

/-!
# Recognizers by recursive descent

A recognizer reads a sentence off the front of a list of tokens and returns the rest.  It need not look
further than one token: `Recognizes` says that it reads exactly the sentences of a language, as long as
the token after the sentence is one it stops at.
-/

namespace Descent

open List Option

variable {τ : Type*}

abbrev Recognizer (τ : Type*) := List τ → Option (List τ)

structure Recognizes (p : Recognizer τ) (language : List τ → Prop) (stops : τ → Prop) : Prop where
  sound : ∀ {ts rest}, p ts = some rest → ∃ used, ts = used ++ rest ∧ language used
  complete : ∀ {used rest}, language used → (∀ t ∈ rest.head?, stops t) → p (used ++ rest) = some rest

variable {p : Recognizer τ} {language : List τ → Prop} {stops : τ → Prop}

theorem Recognizes.eq_nil (h : Recognizes p language stops) {ts : List τ} :
    p ts = some [] ↔ language ts := by
  constructor
  · intro read
    obtain ⟨_, rfl, sentence⟩ := h.sound read
    simpa using sentence
  · intro sentence
    have read : p (ts ++ []) = some [] := h.complete sentence (by simp)
    simpa using read

/-! ### Sequences -/

section Sequences

variable [DecidableEq τ] (p : Recognizer τ) (sep : τ)

/-- The loop `while eat(sep) { p }`.  Each round takes a separator, so that the length of the list is
enough fuel. -/
def more : ℕ → Recognizer τ
  | _, [] => some []
  | 0, ts => some ts
  | fuel + 1, t :: ts => if t = sep then (p ts).bind (more fuel) else some (t :: ts)

def sepBy : Recognizer τ := fun ts => (p ts).bind fun rest => more p sep rest.length rest

end Sequences

variable (language : List τ → Prop) (sep : τ) in
/-- Sentences of a language with separators between them. -/
inductive SepBy : List τ → Prop
  | one {ts : List τ} (sentence : language ts) : SepBy ts
  | more {ts us : List τ} (sentence : language ts) (rest : SepBy us) : SepBy (ts ++ sep :: us)

variable [DecidableEq τ] {sep : τ}

theorem Recognizes.more_sound (h : Recognizes p language stops) {fuel : ℕ} {ts rest : List τ}
    (read : more p sep fuel ts = some rest) :
    ts = rest ∨ ∃ used, ts = sep :: used ++ rest ∧ SepBy language sep used := by
  induction fuel generalizing ts with
  | zero =>
    cases ts with
    | nil | cons t ts => exact .inl (some.inj read)
  | succ _ ih =>
    cases ts with
    | nil => exact .inl (some.inj read)
    | cons t _ =>
      simp only [more] at read
      split_ifs at read with here
      · subst here
        obtain ⟨_, first, later⟩ := bind_eq_some_iff.1 read
        obtain ⟨used, rfl, sentence⟩ := h.sound first
        rcases ih later with rfl | ⟨used', rfl, sentences⟩
        · exact .inr ⟨used, rfl, .one sentence⟩
        · exact .inr ⟨used ++ t :: used', by simp, .more sentence sentences⟩
      · exact .inl (some.inj read)

theorem more_eq_self {rest : List τ} (follow : sep ∉ rest.head?) (fuel : ℕ) :
    more p sep fuel rest = some rest := by
  cases rest with
  | nil => cases fuel <;> rfl
  | cons t _ =>
    cases fuel with
    | zero => rfl
    | succ _ => exact if_neg fun here : t = sep => follow (here ▸ rfl)

theorem Recognizes.more_complete (h : Recognizes p language stops) (stop : stops sep) {fuel : ℕ}
    {used rest : List τ} (sentences : SepBy language sep used)
    (follow : ∀ t ∈ rest.head?, stops t ∧ t ≠ sep) (enough : used.length ≤ fuel) :
    (p (used ++ rest)).bind (more p sep fuel) = some rest := by
  induction sentences generalizing fuel with
  | one sentence =>
    rw [h.complete sentence fun t mem => (follow t mem).1]
    exact more_eq_self (fun mem => (follow sep mem).2 rfl) fuel
  | @more _ _ sentence _ ih =>
    simp only [length_append, length_cons] at enough
    obtain ⟨fuel, rfl⟩ : ∃ n, fuel = n + 1 := ⟨fuel - 1, by omega⟩
    rw [append_assoc, h.complete sentence (by simpa using stop)]
    have rest := @ih fuel (by omega)
    simpa [more] using rest

theorem Recognizes.sepBy (h : Recognizes p language stops) (stop : stops sep) :
    Recognizes (sepBy p sep) (SepBy language sep) fun t => stops t ∧ t ≠ sep where
  sound := by
    intro _ _ read
    obtain ⟨_, first, later⟩ := bind_eq_some_iff.1 read
    obtain ⟨used, rfl, sentence⟩ := h.sound first
    rcases h.more_sound later with rfl | ⟨used', rfl, sentences⟩
    · exact ⟨used, rfl, .one sentence⟩
    · exact ⟨used ++ sep :: used', by simp, .more sentence sentences⟩
  complete := by
    intro _ rest sentences follow
    cases sentences with
    | one sentence =>
      unfold Descent.sepBy
      rw [h.complete sentence fun t mem => (follow t mem).1]
      exact more_eq_self (fun mem => (follow sep mem).2 rfl) _
    | @more _ us sentence sentences =>
      unfold Descent.sepBy
      rw [append_assoc, h.complete sentence (by simpa using stop)]
      have enough : us.length ≤ (us ++ rest).length := by simp
      simpa [more] using h.more_complete stop sentences follow enough

end Descent
