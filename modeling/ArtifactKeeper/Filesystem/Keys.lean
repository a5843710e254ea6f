import ArtifactKeeper.Library.UnixPath

/-!
# Where a key is stored

`key_to_path` keeps the normal components of a key; a single one is put into a directory that is
named by its first two bytes.  The slice of two bytes panics inside a character, the two layouts
meet (`ab` and `ab/ab`), and two dots as the first bytes lead out of the root.
-/

namespace ArtifactKeeper.Filesystem

open UnixPath List Option Text

structure FilesystemStorage where
  basePath : Text
  /-- The global storage root, when known. -/
  bucketRoot : Option Text

def bucketRootKeyNamespaces : List Text :=
  ["proxy-cache/", "proxy-cache-staging/"]

def keyIsBucketRootAnchored (key : Text) : Bool :=
  bucketRootKeyNamespaces.any fun ns => ns.isPrefixOf key

variable (storage : FilesystemStorage)

def rootFor (sanitizedKey : Text) : Text :=
  match storage.bucketRoot with
  | some root => if keyIsBucketRootAnchored sanitizedKey then root else storage.basePath
  | none => storage.basePath

def normalNames (key : Text) : List Text :=
  (components key).filterMap fun component => match component with
    | .normal name => some name
    | _ => none

/-- The path of the normal components. -/
def sanitize (key : Text) : Text := (normalNames key).foldl push []

/-- `none` if the slice panics. -/
def keyToPath (key : Text) : Option Text :=
  let sanitized := sanitize key
  let root := rootFor storage sanitized
  if 1 < (components sanitized).length then some (push root sanitized)
  else
    (sliceTo (min 2 (byteLength sanitized)) sanitized).map fun front =>
      push (push root front) sanitized

def chosenRoot (key : Text) : Text := rootFor storage (sanitize key)

/-! ### Sanitised keys -/

theorem proper_normalNames (key : Text) : ∀ name ∈ normalNames key, Proper name := by
  intro _ mem
  obtain ⟨component, among, found⟩ := mem_filterMap.1 mem
  cases component with
  | normal =>
    obtain rfl := some.inj found
    exact proper_of_mem among
  | _ => cases found

theorem components_sanitize (key : Text) :
    components (sanitize key) = (normalNames key).map .normal := by
  rw [sanitize, components_foldl_push [] (proper_normalNames key), components_nil, nil_append]

variable {front name : Text}

theorem proper_front (proper : Proper name) (start : front <+: name)
    (length : byteLength front = min 2 (byteLength name)) (up : ¬ dotDot <+: name) :
    Proper front := by
  have positive : 0 < byteLength name := by
    obtain ⟨c, _, rfl⟩ := exists_cons_of_ne_nil proper.ne_nil
    have size := c.utf8Size_pos
    rw [byteLength_cons]
    omega
  refine ⟨?_, ?_, fun same => up (same ▸ start), fun slash => proper.no_slash (start.subset slash)⟩
  · rintro rfl
    rw [byteLength_nil] at length
    omega
  · rintro rfl
    -- a front of one byte is the whole name
    have one : byteLength dot = 1 := by decide
    obtain ⟨rest, rfl⟩ := start
    rw [byteLength_append] at length positive
    have rest : rest = [] := by
      by_contra more
      obtain ⟨c, _, rfl⟩ := exists_cons_of_ne_nil more
      have size := c.utf8Size_pos
      rw [byteLength_cons] at length
      omega
    exact proper.ne_dot (by rw [rest, append_nil])

/-! ### The two layouts -/

def Below (root path : Text) : Prop :=
  ∃ names, names ≠ [] ∧ components path = components root ++ names.map .normal

/-- The key has a path strictly below its root. -/
def Placed (key : Text) : Prop :=
  ∃ path, keyToPath storage key = some path ∧ Below (chosenRoot storage key) path

/-- A single component is not cut inside a character and does not begin with two dots. -/
def TameName (name : Text) : Prop :=
  (∃ front, front <+: name ∧ byteLength front = min 2 (byteLength name)) ∧ ¬ dotDot <+: name

def Tame (key : Text) : Prop :=
  match normalNames key with
  | [] => False
  | [name] => TameName name
  | _ => True

/-- A single component, and the same one in the directory of its first two bytes. -/
def Clash (key key' : Text) : Prop :=
  ∃ front name, normalNames key = [name] ∧ normalNames key' = [front, name] ∧ front <+: name ∧
    byteLength front = min 2 (byteLength name)

section

variable {storage} {key path : Text}

theorem keyToPath_of_many (storage : FilesystemStorage) (many : 1 < (normalNames key).length) :
    keyToPath storage key = some (push (chosenRoot storage key) (sanitize key)) := by
  unfold keyToPath
  simp only
  rw [components_sanitize, length_map, if_pos many]
  rfl

section

variable (single : normalNames key = [name])
include single

theorem sanitize_of_single : sanitize key = name := by
  rw [sanitize, foldl_push_eq_join (proper_normalNames key), single, join_singleton]

theorem keyToPath_of_single :
    keyToPath storage key = (sliceTo (min 2 (byteLength name)) name).map fun front =>
      push (push (chosenRoot storage key) front) name := by
  unfold keyToPath chosenRoot
  simp only
  rw [components_sanitize, length_map, single, if_neg (by simp), sanitize_of_single single]

theorem keyToPath_of_front (start : front <+: name)
    (length : byteLength front = min 2 (byteLength name)) :
    keyToPath storage key = some (push (push (chosenRoot storage key) front) name) := by
  rw [keyToPath_of_single single, sliceTo_eq_some.2 ⟨start, length⟩]
  rfl

theorem components_of_front (start : front <+: name)
    (length : byteLength front = min 2 (byteLength name)) (up : ¬ dotDot <+: name) :
    components (push (push (chosenRoot storage key) front) name) =
      components (chosenRoot storage key) ++ [front, name].map .normal := by
  have proper : Proper name := proper_normalNames key name (single ▸ mem_cons_self)
  rw [components_push_name _ proper, components_push_name _ (proper_front proper start length up),
    append_assoc]
  rfl

end

theorem not_placed_of_nil (none : normalNames key = []) : ¬ Placed storage key := by
  rintro ⟨_, found, _, nonempty, below⟩
  have empty : sanitize key = [] := by
    rw [sanitize, none]
    rfl
  have here : keyToPath storage key = some (push (push (chosenRoot storage key) []) []) := by
    unfold keyToPath chosenRoot
    rw [empty]
    rfl
  obtain rfl := some.inj (here.symm.trans found)
  have nothing : components [] = ([] : List Text).map .normal := rfl
  rw [components_push_normal _ nothing, components_push_normal _ nothing, map_nil,
    append_nil, append_nil] at below
  exact nonempty (map_eq_nil_iff.1 (self_eq_append_right.1 below))

theorem placed_of_single (single : normalNames key = [name]) :
    Placed storage key ↔ TameName name := by
  constructor
  · rintro ⟨_, found, names, nonempty, below⟩
    rw [keyToPath_of_single single] at found
    obtain ⟨front, sliced, rfl⟩ := map_eq_some_iff.1 found
    obtain ⟨start, length⟩ := sliceTo_eq_some.1 sliced
    refine ⟨⟨front, start, length⟩, fun up => ?_⟩
    -- the slice is the parent directory
    have parent : front = dotDot := by
      have two : min 2 (byteLength name) = byteLength dotDot := by
        obtain ⟨_, rfl⟩ := up
        have dots : byteLength dotDot = 2 := by decide
        rw [byteLength_append, dots]
        omega
      have dots := sliceTo_eq_some.2 ⟨up, two.symm⟩
      exact some.inj (sliced.symm.trans dots)
    have proper : Proper name := proper_normalNames key name (single ▸ mem_cons_self)
    rw [components_push_name _ proper, parent, components_push_dotDot, append_assoc,
      append_cancel_left_eq] at below
    cases names with
    | nil => exact nonempty rfl
    | cons _ _ => cases below
  · rintro ⟨⟨front, start, length⟩, up⟩
    refine ⟨_, keyToPath_of_front single start length, [front, name], cons_ne_nil _ _, ?_⟩
    exact components_of_front single start length up

theorem one_lt_length {names : List Text} (none : names = [] → False)
    (single : ∀ name, names = [name] → False) : 1 < names.length := by
  match names with
  | [] => exact absurd rfl none
  | [name] => exact absurd rfl (single name)
  | _ :: _ :: _ => simp

theorem placed_iff : Placed storage key ↔ Tame key := by
  unfold Tame
  split
  · next none => exact iff_of_false (not_placed_of_nil none) not_false
  · next _ single => exact placed_of_single single
  · next none single =>
    have many := one_lt_length none single
    refine iff_of_true ⟨_, keyToPath_of_many storage many, normalNames key, ?_, ?_⟩ trivial
    · exact length_pos_iff.1 (by omega)
    · exact components_push_normal _ (components_sanitize key)

theorem layout_of_tame (storage : FilesystemStorage) (tame : Tame key) :
    ∃ path names, keyToPath storage key = some path ∧
      components path = components (chosenRoot storage key) ++ names.map .normal ∧
      (normalNames key = names ∧ 1 < names.length ∨
        ∃ front name, normalNames key = [name] ∧ names = [front, name] ∧ front <+: name ∧
          byteLength front = min 2 (byteLength name)) := by
  unfold Tame at tame
  split at tame
  · exact absurd tame not_false
  · next name single =>
    obtain ⟨⟨front, start, length⟩, up⟩ := tame
    exact ⟨_, [front, name], keyToPath_of_front single start length,
      components_of_front single start length up,
      .inr ⟨front, name, single, rfl, start, length⟩⟩
  · next none single =>
    have many := one_lt_length none single
    exact ⟨_, normalNames key, keyToPath_of_many storage many,
      components_push_normal _ (components_sanitize key), .inl ⟨rfl, many⟩⟩

end

theorem front_unique {front' : Text} (start : front <+: name)
    (length : byteLength front = min 2 (byteLength name)) (start' : front' <+: name)
    (length' : byteLength front' = min 2 (byteLength name)) : front = front' :=
  some.inj ((sliceTo_eq_some.2 ⟨start, length⟩).symm.trans
    (sliceTo_eq_some.2 ⟨start', length'⟩))

variable {key' key : Text}

theorem clash_iff (single : normalNames key = [name]) (start : front <+: name)
    (length : byteLength front = min 2 (byteLength name)) :
    Clash key key' ↔ normalNames key' = [front, name] := by
  constructor
  · rintro ⟨_, name', single', pair, start', length'⟩
    obtain rfl : name = name' := singleton_inj.1 (single.symm.trans single')
    rw [pair, front_unique start length start' length']
  · exact fun pair => ⟨front, name, single, pair, start, length⟩

theorem not_clash_of_many (many : 1 < (normalNames key).length) : ¬ Clash key key' := by
  rintro ⟨_, _, single, -⟩
  rw [single] at many
  exact absurd many (by simp)

theorem Clash.ne (clash : Clash key key') : normalNames key ≠ normalNames key' := by
  obtain ⟨_, _, single, pair, -⟩ := clash
  rw [single, pair]
  exact fun equal => nomatch equal

theorem same_file_iff {storage : FilesystemStorage} {path path' : Text} (cwd : List Text)
    (tame : Tame key) (tame' : Tame key') (same : chosenRoot storage key = chosenRoot storage key')
    (found : keyToPath storage key = some path) (found' : keyToPath storage key' = some path') :
    resolve cwd path = resolve cwd path' ↔
      normalNames key = normalNames key' ∨ Clash key key' ∨ Clash key' key := by
  obtain ⟨p, names, at_, below, layout⟩ := layout_of_tame storage tame
  obtain ⟨p', names', at', below', layout'⟩ := layout_of_tame storage tame'
  obtain rfl := some.inj (at_.symm.trans found)
  obtain rfl := some.inj (at'.symm.trans found')
  have places : resolve cwd p = resolve cwd p' ↔ names = names' := by
    unfold resolve
    rw [below, below', same, walk_append, walk_append, walk_normal, walk_normal,
      append_cancel_left_eq]
  rw [places]
  rcases layout with ⟨rfl, many⟩ | ⟨front, name, single, rfl, start, length⟩ <;>
    rcases layout' with ⟨rfl, many'⟩ | ⟨front', name', single', rfl, start', length'⟩
  · simp only [not_clash_of_many many, not_clash_of_many many', or_false]
  · have apart : normalNames key ≠ normalNames key' := fun equal => by
      rw [equal, single'] at many
      exact absurd many (by simp)
    simp only [apart, not_clash_of_many many, false_or, clash_iff single' start' length']
  · have apart : normalNames key ≠ normalNames key' := fun equal => by
      rw [← equal, single] at many'
      exact absurd many' (by simp)
    simp only [apart, not_clash_of_many many', false_or, or_false, clash_iff single start length]
    exact eq_comm
  · simp only [clash_iff single start length, clash_iff single' start' length', single, single']
    constructor
    · intro equal
      left
      exact congrArg List.tail equal
    · rintro (equal | pair | pair)
      · obtain rfl := singleton_inj.1 equal
        rw [front_unique start length start' length']
      · cases pair
      · cases pair

/-- A key has a path strictly below its root, and two keys with one root have different files unless
they have the same normal components: exactly if each key has a component and no single one that the
slice of two bytes cuts or turns into the parent directory, and the two keys do not clash. -/
theorem key_mapping_safe_iff (cwd : List Text) (key key' : Text) :
    (Placed storage key ∧ Placed storage key' ∧
      (chosenRoot storage key = chosenRoot storage key' → ∀ path path',
        keyToPath storage key = some path → keyToPath storage key' = some path' →
        resolve cwd path = resolve cwd path' → normalNames key = normalNames key')) ↔
    Tame key ∧ Tame key' ∧
      (chosenRoot storage key = chosenRoot storage key' → ¬ Clash key key' ∧ ¬ Clash key' key) := by
  rw [placed_iff, placed_iff]
  refine and_congr_right fun tame => and_congr_right fun tame' => forall_congr' fun same => ?_
  obtain ⟨path, -, found, -⟩ := layout_of_tame storage tame
  obtain ⟨path', -, found', -⟩ := layout_of_tame storage tame'
  have files := same_file_iff cwd tame tame' same found found'
  constructor
  · intro separate
    have apart := fun met => separate path path' found found' (files.2 (.inr met))
    exact ⟨fun clash => clash.ne (apart (.inl clash)),
      fun clash => clash.ne (apart (.inr clash)).symm⟩
  · rintro ⟨here, there⟩ p _ at_ at' meet
    rw [← some.inj (found.symm.trans at_), ← some.inj (found'.symm.trans at')] at meet
    rcases files.1 meet with equal | clash | clash
    · exact equal
    · exact absurd clash here
    · exact absurd clash there

def plainRoot : FilesystemStorage := ⟨"/s", none⟩

/-- A character of three bytes panics, a key without components is the root itself, two dots lead out
of the root, and two keys share a file. -/
theorem key_mapping_unsafe : keyToPath plainRoot "€" = none ∧
    keyToPath plainRoot [] = some "/s/" ∧ ¬ Placed plainRoot [] ∧
    keyToPath plainRoot "..a" = some "/s/../..a" ∧
    ¬ Placed plainRoot "..a" ∧ resolve [] "/s/../..a" = ["..a"] ∧
    keyToPath plainRoot "ab" = some "/s/ab/ab" ∧
    keyToPath plainRoot "ab/ab" = some "/s/ab/ab" ∧
    chosenRoot plainRoot "ab" = chosenRoot plainRoot "ab/ab" ∧
    normalNames "ab" ≠ normalNames "ab/ab" := by
  have root : ¬ Placed plainRoot [] := not_placed_of_nil (by decide +kernel)
  have out : ¬ Placed plainRoot "..a" := by
    have single : normalNames "..a" = ["..a"] := by decide +kernel
    rw [placed_of_single single]
    exact fun tame => tame.2 (by decide +kernel)
  exact ⟨by decide +kernel, by decide +kernel, root, by decide +kernel, out, by decide +kernel,
    by decide +kernel, by decide +kernel, by decide +kernel, by decide +kernel⟩

end ArtifactKeeper.Filesystem
