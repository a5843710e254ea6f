import ArtifactKeeper.Library.Text
import Mathlib.Data.List.Forall2

/-!
# Glob patterns

`*` matches any text and `?` any character; all other characters match themselves.
-/

namespace ArtifactKeeper.Glob

open List

/-- `*` is tried with each end of the text. -/
def globMatch : Text → Text → Bool
  | [], text => text.isEmpty
  | c :: pattern, text =>
    if c = '*' then text.tails.any (globMatch pattern)
    else
      match text with
      | [] => false
      | d :: text => if c = '?' ∨ c = d then globMatch pattern text else false

variable {pattern text : Text} {c : Char}

theorem globMatch_nil : globMatch [] text = true ↔ text = [] := by
  rw [globMatch, List.isEmpty_iff]

theorem globMatch_star :
    globMatch ('*' :: pattern) text = true ↔
      ∃ skipped rest, text = skipped ++ rest ∧ globMatch pattern rest = true := by
  have tries : globMatch ('*' :: pattern) text = text.tails.any (globMatch pattern) := rfl
  rw [tries, any_eq_true]
  constructor
  · rintro ⟨rest, mem, matched⟩
    obtain ⟨skipped, split⟩ := (mem_tails _ _).1 mem
    exact ⟨skipped, rest, split.symm, matched⟩
  · rintro ⟨_, rest, rfl, matched⟩
    exact ⟨rest, (mem_tails _ _).2 (suffix_append _ _), matched⟩

theorem globMatch_cons (plain : c ≠ '*') :
    globMatch (c :: pattern) text = true ↔
      ∃ d rest, text = d :: rest ∧ (c = '?' ∨ c = d) ∧ globMatch pattern rest = true := by
  cases text with
  | nil => simp [globMatch, plain]
  | cons d _ =>
    by_cases fits : c = '?' ∨ c = d
    · simp [globMatch, plain]
    · simp [globMatch, plain]

/-- The part of a text that a character of the pattern may stand for. -/
def Fits (c : Char) (piece : Text) : Prop := c = '*' ∨ ∃ d, piece = [d] ∧ (c = '?' ∨ c = d)

def Splits (pattern text : Text) : Prop := ∃ pieces, Forall₂ Fits pattern pieces ∧ text = pieces.flatten

theorem splits_cons :
    Splits (c :: pattern) text ↔ ∃ piece rest, text = piece ++ rest ∧ Fits c piece ∧ Splits pattern rest := by
  constructor
  · rintro ⟨_, _ | @⟨_, piece, _, pieces, fits, more⟩, rfl⟩
    exact ⟨piece, pieces.flatten, rfl, fits, pieces, more, rfl⟩
  · rintro ⟨piece, _, rfl, fits, pieces, more, rfl⟩
    exact ⟨piece :: pieces, .cons fits more, rfl⟩

theorem globMatch_iff : globMatch pattern text = true ↔ Splits pattern text := by
  induction pattern generalizing text with
  | nil => simp [globMatch_nil, Splits]
  | cons c _ ih =>
    rw [splits_cons]
    by_cases star : c = '*'
    · subst star
      simp [globMatch_star, ih, Fits]
    · rw [globMatch_cons star]
      constructor
      · rintro ⟨d, rest, rfl, fits, matched⟩
        exact ⟨[d], rest, rfl, .inr ⟨d, rfl, fits⟩, ih.1 matched⟩
      · rintro ⟨_, rest, rfl, fits, more⟩
        obtain ⟨d, rfl, same⟩ := fits.resolve_left star
        exact ⟨d, rest, rfl, same, ih.2 more⟩

end ArtifactKeeper.Glob
