import ArtifactKeeper.Library.Text

/-!
# Finding a text in a text

The position of the first occurrence, counted in characters.
-/

namespace Text

open List

def find (needle : Text) : Text → Option ℕ
  | [] => if needle.isEmpty then some 0 else none
  | c :: s => if needle.isPrefixOf (c :: s) then some 0 else (find needle s).map (· + 1)

def slice (s : Text) (start stop : ℕ) : Text := (s.take stop).drop start

variable {needle s front back : Text}

theorem find_eq_some {n : ℕ} (nonempty : needle ≠ []) (found : find needle s = some n) :
    ∃ front back, s = front ++ (needle ++ back) ∧ front.length = n ∧ ¬needle <:+: front := by
  induction s generalizing n with
  | nil => simp [find, nonempty] at found
  | cons c s ih =>
    unfold find at found
    split_ifs at found with here
    · obtain ⟨back, split⟩ := isPrefixOf_iff_prefix.1 here
      cases found
      exact ⟨[], back, split.symm, rfl, by simpa using nonempty⟩
    · obtain ⟨m, further, rfl⟩ := Option.map_eq_some_iff.1 found
      obtain ⟨front, back, rfl, rfl, absent⟩ := ih further
      refine ⟨c :: front, back, rfl, rfl, fun occurs => ?_⟩
      rcases infix_cons_iff.1 occurs with first | later
      · exact here ( isPrefixOf_iff_prefix.2 (first.trans (prefix_append (c :: front) _)))
      · exact absent later

theorem find_eq_none (missing : find needle s = none) : ¬needle <:+: s := by
  induction s with
  | nil =>
    rintro occurs
    rw [infix_nil.1 occurs] at missing
    cases missing
  | cons c s ih =>
    unfold find at missing
    split_ifs at missing with here
    intro occurs
    rcases infix_cons_iff.1 occurs with first | later
    · exact here ( isPrefixOf_iff_prefix.2 first)
    · exact ih (Option.map_eq_none_iff.1 missing) later

theorem slice_of_drop {start : ℕ} {part rest : Text} (split : s.drop start = part ++ rest) :
    slice s start (start + part.length) = part := by
  rw [slice, drop_take, split, Nat.add_sub_cancel_left, take_left]

end Text
