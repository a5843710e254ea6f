import ArtifactKeeper.Library.Text

/-!
# Paths

A path is a text; `components` reads it as a Unix system does, and `push` is how a path is extended.
`resolve` is the place a path leads to, from the current directory and without symbolic links.
-/

namespace UnixPath

open List Text

inductive Component
  | rootDir
  | curDir
  | parentDir
  | normal (name : Text)
  deriving DecidableEq

def dot : Text := ['.']

def dotDot : Text := ['.', '.']

/-- A name that is neither empty nor special. -/
structure Proper (name : Text) : Prop where
  ne_nil : name ≠ []
  ne_dot : name ≠ dot
  ne_dotDot : name ≠ dotDot
  no_slash : '/' ∉ name

/-- What stands between two slashes; repeated slashes and dots are skipped. -/
def segment (s : Text) : Option Component :=
  if s = [] ∨ s = dot then none else if s = dotDot then some .parentDir else some (.normal s)

variable (path : Text)

def segments : List Component := (path.splitOn '/').filterMap segment

/-- Only at the beginning a dot is a component. -/
def leading : List Component :=
  if path.head? = some '/' then [.rootDir]
  else if (path.splitOn '/').head? = some dot then [.curDir] else []

def components : List Component := leading path ++ segments path

def push (path more : Text) : Text :=
  if more.head? = some '/' then more
  else if path = [] ∨ path.getLast? = some '/' then path ++ more
  else path ++ '/' :: more

theorem Proper.segment {name : Text} (proper : Proper name) :
    UnixPath.segment name = some (.normal name) := by
  simp [UnixPath.segment, proper.ne_nil, proper.ne_dot, proper.ne_dotDot]

theorem proper_of_mem {path name : Text} (mem : .normal name ∈ components path) : Proper name := by
  have inSegments : .normal name ∈ segments path := by
    rcases mem_append.1 mem with first | later
    · unfold leading at first
      split_ifs at first <;> simp at first
    · exact later
  obtain ⟨s, part, found⟩ := mem_filterMap.1 inSegments
  unfold segment at found
  split_ifs at found with skipped up
  · cases found
  obtain rfl := Component.normal.inj (Option.some.inj found)
  rw [not_or] at skipped
  refine ⟨skipped.1, skipped.2, up, fun slash => ?_⟩
  exact (mem_of_mem_splitOn part '/' slash).2 rfl

theorem components_nil : components [] = [] := rfl

/-! ### Extended paths -/

section

variable {path more : Text}

theorem splitOn_push (nonempty : path ≠ []) (relative : more.head? ≠ some '/') :
    ∃ parts, parts ≠ [] ∧ (push path more).splitOn '/' = parts ++ more.splitOn '/' ∧
      (path.splitOn '/' = parts ∨ path.splitOn '/' = parts ++ [[]]) := by
  unfold push
  rw [if_neg relative]
  by_cases slash : path.getLast? = some '/'
  · obtain ⟨front, rfl⟩ := getLast?_eq_some_iff.1 slash
    rw [if_pos (.inr slash), append_assoc]
    exact ⟨front.splitOn '/', splitOn_ne_nil _ _, splitOn_append_cons .., .inr
      (splitOn_append_cons '/' front [])⟩
  · rw [if_neg (not_or.2 ⟨nonempty, slash⟩)]
    exact ⟨path.splitOn '/', splitOn_ne_nil _ _, splitOn_append_cons .., .inl rfl⟩

theorem head_push (nonempty : path ≠ []) (relative : more.head? ≠ some '/') :
    (push path more).head? = path.head? := by
  obtain ⟨c, _, rfl⟩ := exists_cons_of_ne_nil nonempty
  unfold push
  rw [if_neg relative]
  split_ifs <;> rfl

theorem components_push (relative : more.head? ≠ some '/')
    (plain : (more.splitOn '/').head? ≠ some dot) :
    components (push path more) = components path ++ segments more := by
  by_cases empty : path = []
  · have same : push path more = more := by
      rw [push, if_neg relative, if_pos (.inl empty), empty, nil_append]
    rw [same, empty, components_nil, nil_append, components, leading, if_neg relative,
      if_neg plain, nil_append]
  · obtain ⟨_, first, pushed, before⟩ := splitOn_push empty relative
    have segs : segments (push path more) = segments path ++ segments more := by
      unfold segments
      rw [pushed, filterMap_append]
      rcases before with same | same
      · rw [same]
      · rw [same, filterMap_append]
        simp [segment]
    have lead : leading (push path more) = leading path := by
      obtain ⟨_, _, rfl⟩ := exists_cons_of_ne_nil first
      unfold leading
      rw [head_push empty relative, pushed]
      rcases before with same | same <;> rw [same] <;> rfl
    rw [components, lead, segs, components, append_assoc]

theorem components_push_dotDot (path : Text) :
    components (push path dotDot) = components path ++ [.parentDir] :=
  components_push (by decide) (by decide)

end

/-! ### Proper names -/

section

variable {name : Text} {names : List Text}

theorem Proper.relative (proper : Proper name) : name.head? ≠ some '/' := fun slash =>
  proper.no_slash (mem_of_head? slash)

theorem Proper.splitOn (proper : Proper name) : name.splitOn '/' = [name] :=
  splitOn_of_not_mem proper.no_slash

theorem components_push_name (proper : Proper name) :
    components (push path name) = components path ++ [.normal name] := by
  have plain : (name.splitOn '/').head? ≠ some dot := by
    rw [proper.splitOn]
    exact fun same => proper.ne_dot (Option.some.inj same)
  rw [components_push proper.relative plain, segments, proper.splitOn]
  simp [proper.segment]

theorem components_push_normal {more : Text} (normal : components more = names.map .normal) :
    components (push path more) = components path ++ names.map .normal := by
  have lead : leading more = [] := by
    have split : leading more ++ segments more = names.map .normal := normal
    unfold leading at split ⊢
    split_ifs at split ⊢ with slash first
    · cases names <;> cases split
    · cases names <;> cases split
    · rfl
  have relative : more.head? ≠ some '/' := fun slash => by
    rw [leading, if_pos slash] at lead
    cases lead
  have plain : (more.splitOn '/').head? ≠ some dot := fun first => by
    rw [leading, if_neg relative, if_pos first] at lead
    cases lead
  have parts : segments more = names.map .normal := by
    rw [← normal, components, lead, nil_append]
  rw [components_push relative plain, parts]

theorem components_foldl_push (proper : ∀ name ∈ names, Proper name) :
    components (names.foldl push path) = components path ++ names.map .normal := by
  induction names generalizing path with
  | nil => rw [foldl_nil, map_nil, append_nil]
  | cons _ _ ih =>
    obtain ⟨first, others⟩ := forall_mem_cons.1 proper
    rw [foldl_cons, ih _ others, components_push_name path first, map_cons,
      append_assoc, singleton_append]

section

variable (proper : ∀ name ∈ names, Proper name)
include proper

theorem getLast_join_ne : (join '/' names).getLast? ≠ some '/' := by
  induction names using reverseRecOn with
  | nil => simp [join]
  | append_singleton front name =>
    have last := proper name (mem_append_right _ mem_cons_self)
    have ends : name.getLast? ≠ some '/' := fun slash =>
      last.no_slash (mem_of_getLast? slash)
    by_cases first : front = []
    · subst first
      rwa [nil_append, join_singleton]
    · rw [join_append '/' first (cons_ne_nil _ _)]
      obtain ⟨c, _, rfl⟩ := exists_cons_of_ne_nil last.ne_nil
      rw [join_singleton, getLast?_append_of_ne_nil, getLast?_cons_cons]
      exacts [ends, cons_ne_nil _ _]

theorem foldl_push_eq_join : names.foldl push [] = join '/' names := by
  induction names using reverseRecOn with
  | nil => rfl
  | append_singleton front name ih =>
    have before : ∀ other ∈ front, Proper other := fun other mem =>
      proper other (mem_append_left _ mem)
    have last := proper name (mem_append_right _ mem_cons_self)
    rw [foldl_append, ih before, foldl_cons, foldl_nil, push, if_neg last.relative]
    by_cases first : front = []
    · subst first
      simp [join]
    · have nonempty : join '/' front ≠ [] := by
        intro empty
        have parts := splitOn_join first fun part mem => (before part mem).no_slash
        rw [empty] at parts
        obtain rfl : [[]] = front := parts
        exact (before [] mem_cons_self).ne_nil rfl
      rw [if_neg (not_or.2 ⟨nonempty, getLast_join_ne before⟩),
        join_append '/' first (cons_ne_nil _ _)]
      simp [join]

theorem components_join : components (join '/' names) = names.map .normal := by
  rw [← foldl_push_eq_join proper, components_foldl_push [] proper, components_nil, nil_append]

end

theorem Proper.append {suffix : Text} (proper : Proper name) (plain : '/' ∉ suffix) :
    Proper (name ++ suffix) := by
  obtain ⟨c, _, rfl⟩ := exists_cons_of_ne_nil proper.ne_nil
  refine ⟨cons_ne_nil _ _, fun same => ?_, fun same => ?_, ?_⟩
  · obtain ⟨rfl, nothing⟩ := cons.inj same
    rw [(append_eq_nil_iff.1 nothing).1] at proper
    exact proper.ne_dot rfl
  · obtain ⟨rfl, more⟩ := cons.inj same
    rcases append_eq_cons_iff.1 more with ⟨rfl, -⟩ | ⟨_, rfl, nothing⟩
    · exact proper.ne_dot rfl
    · rw [(append_eq_nil_iff.1 nothing.symm).1] at proper
      exact proper.ne_dotDot rfl
  · exact fun slash => (mem_append.1 slash).elim proper.no_slash plain

theorem push_append {more : Text} (nonempty : more ≠ []) (suffix : Text) :
    push path more ++ suffix = push path (more ++ suffix) := by
  obtain ⟨c, _, rfl⟩ := exists_cons_of_ne_nil nonempty
  by_cases slash : c = '/'
  · simp [push, slash]
  · by_cases open_ : path = [] ∨ path.getLast? = some '/'
    · simp [push, slash, open_]
    · simp [push, slash, open_]

end

/-! ### Places -/

/-- The directory below the root that a path leads to. -/
def walk (here : List Text) : List Component → List Text
  | [] => here
  | .rootDir :: rest => walk [] rest
  | .curDir :: rest => walk here rest
  | .parentDir :: rest => walk here.dropLast rest
  | .normal name :: rest => walk (here ++ [name]) rest

def resolve (cwd : List Text) (path : Text) : List Text := walk cwd (components path)

theorem walk_append (here : List Text) (front back : List Component) :
    walk here (front ++ back) = walk (walk here front) back := by
  induction front generalizing here with
  | nil => rfl
  | cons component _ ih => cases component <;> exact ih _

theorem walk_normal (here names : List Text) : walk here (names.map .normal) = here ++ names := by
  induction names generalizing here with
  | nil => exact (append_nil here).symm
  | cons _ _ ih =>
    rw [map_cons, walk, ih, append_assoc, singleton_append]

end UnixPath
