import ArtifactKeeper.Library.Text
import Mathlib.Data.List.Chain

/-!
# Parts between separators

A text is the join of its parts.  If no separator is at an end or next to another one, no part is
empty.
-/

namespace Text

open List

variable {sep : Char} {s part : Text} {parts : List Text}

theorem join_splitOn (sep : Char) (s : Text) : join sep (s.splitOn sep) = s :=
  intercalate_splitOn sep

theorem splitOn_inj {t : Text} (same : s.splitOn sep = t.splitOn sep) : s = t := by
  rw [← join_splitOn sep s, same, join_splitOn]

theorem join_cons (part : Text) (more : parts ≠ []) :
    join sep (part :: parts) = part ++ sep :: join sep parts := by
  simpa using join_append sep (cons_ne_nil part []) more

/-- A text and a separator begin another text just if the parts of the one are the first parts of the
other, and not all of them. -/
theorem append_sep_prefix_iff {t : Text} :
    s ++ [sep] <+: t ↔ s.splitOn sep <+: (t.splitOn sep).dropLast := by
  constructor
  · rintro ⟨rest, rfl⟩
    rw [append_assoc, singleton_append, splitOn_append_cons,
      dropLast_append_of_ne_nil (splitOn_ne_nil sep rest)]
    exact prefix_append _ _
  · rintro ⟨more, same⟩
    have parts := dropLast_append_getLast (splitOn_ne_nil sep t)
    rw [← same, append_assoc] at parts
    refine ⟨join sep (more ++ [(t.splitOn sep).getLast (splitOn_ne_nil sep t)]), ?_⟩
    rw [append_assoc, singleton_append]
    nth_rw 1 [← join_splitOn sep s]
    rw [← join_append sep (splitOn_ne_nil sep s) (by simp), parts, join_splitOn]

theorem infix_join (mem : part ∈ parts) : part <:+: join sep parts := by
  induction parts with
  | nil => cases mem
  | cons first parts ih =>
    by_cases last : parts = []
    · subst last
      rw [mem_singleton.1 mem, join_singleton]
    · rw [join_cons first last]
      rcases mem_cons.1 mem with rfl | later
      · exact (prefix_append _ _).isInfix
      · exact (ih later).trans (suffix_append_of_suffix (suffix_cons _ _)).isInfix

theorem infix_of_mem_splitOn (mem : part ∈ s.splitOn sep) : part <:+: s := by
  have inside : part <:+: join sep (s.splitOn sep) := infix_join mem
  rwa [join_splitOn] at inside

/-- No separator is at an end or next to another one. -/
structure Tight (sep : Char) (s : Text) : Prop where
  nonempty : s ≠ []
  first : s.head? ≠ some sep
  last : s.getLast? ≠ some sep
  apart : s.IsChain fun c d => ¬(c = sep ∧ d = sep)

theorem Tight.part_ne_nil (tight : Tight sep (join sep parts)) (mem : part ∈ parts) : part ≠ [] := by
  induction parts with
  | nil => cases mem
  | cons first parts ih =>
    by_cases last : parts = []
    · subst last
      rw [mem_singleton.1 mem]
      simpa using tight.nonempty
    · rw [join_cons first last] at tight
      have front : first ≠ [] := by
        rintro rfl
        exact tight.first rfl
      rcases mem_cons.1 mem with rfl | later
      · exact front
      · -- What is behind the separator is tight again.
        obtain ⟨-, apart, -⟩ := isChain_append.1 tight.apart
        obtain ⟨next, apart⟩ := isChain_cons.1 apart
        have rest : join sep parts ≠ [] := by
          intro empty
          apply tight.last
          simp [empty]
        refine ih ⟨rest, fun slash => next _ slash ⟨rfl, rfl⟩, ?_, apart⟩ later
        have ends := tight.last
        rwa [getLast?_append_of_ne_nil _ (cons_ne_nil _ _), getLast?_cons_of_ne_nil rest] at ends

theorem Tight.splitOn_ne_nil (tight : Tight sep s) (mem : part ∈ s.splitOn sep) : part ≠ [] := by
  rw [← join_splitOn sep s] at tight
  exact tight.part_ne_nil mem

theorem map_join {f : Char → Char} (fixed : f sep = sep) (parts : List Text) :
    (join sep parts).map f = join sep (parts.map (map f)) := by
  induction parts with
  | nil => rfl
  | cons part parts ih =>
    by_cases last : parts = []
    · simp [last]
    · rw [map_cons, join_cons part last, join_cons _ (by simpa using last)]
      simp [ih, fixed]

theorem splitOn_map {f : Char → Char} (fixed : ∀ c, f c = sep ↔ c = sep) (s : Text) :
    splitOn sep (s.map f) = (s.splitOn sep).map (map f) := by
  have parts : s.map f = join sep ((s.splitOn sep).map (map f)) := by
    rw [← map_join ((fixed sep).2 rfl), join_splitOn]
  rw [parts, splitOn_join (by simp)]
  intro _ mapped inside
  obtain ⟨_, mem, rfl⟩ := mem_map.1 mapped
  obtain ⟨c, inside, same⟩ := mem_map.1 inside
  exact (mem_of_mem_splitOn mem c inside).2 ((fixed c).1 same)

theorem splitOn_toAsciiLowercase (s : Text) :
    splitOn '/' (toAsciiLowercase s) = (s.splitOn '/').map toAsciiLowercase := by
  apply splitOn_map
  intro c
  constructor
  · exact fun same => eq_of_toLower_eq same (by decide)
  · rintro rfl
    rfl

/-- The text behind the last separator has none. -/
theorem rsplitOnce_eq_some {front back : Text} :
    rsplitOnce sep s = some (front, back) ↔ s = front ++ sep :: back ∧ sep ∉ back := by
  have turned : s.reverse = back.reverse ++ sep :: front.reverse ↔ s = front ++ sep :: back := by
    simp
  rw [← turned, ← mem_reverse, ← splitOnce_eq_some, rsplitOnce, Option.map_eq_some_iff]
  constructor
  · rintro ⟨⟨a, b⟩, found, same⟩
    obtain ⟨rfl, rfl⟩ := Prod.mk.inj same
    simpa using found
  · intro found
    exact ⟨_, found, by simp⟩

end Text
