import ArtifactKeeper.Library.Text
import Mathlib.Data.List.Nodup

/-!
# Trees of files

A tree maps places, lists of names below the root directory, to files and directories.
-/

namespace FileTrees

open List Bool Except

abbrev Place := List Text

inductive Node (β : Type*)
  | file (content : β)
  | dir
  deriving DecidableEq

inductive IoError
  | notFound
  | notADirectory
  | isADirectory
  | alreadyExists
  | notAFile
  deriving DecidableEq

def IoError.display : IoError → Text
  | .notFound => "No such file or directory (os error 2)"
  | .notADirectory => "Not a directory (os error 20)"
  | .isADirectory => "Is a directory (os error 21)"
  | .alreadyExists => "File exists (os error 17)"
  | .notAFile => "the source path is neither a regular file nor a symlink to a regular file"

structure FileTree (β : Type*) where
  entries : List (Place × Node β)
  distinct : (entries.map Prod.fst).Nodup

namespace FileTree

variable {β : Type*} (tree : FileTree β) (p q : Place)

def empty : FileTree β := ⟨[], nodup_nil⟩

def node : Option (Node β) :=
  (tree.entries.find? fun entry => entry.1 = p).map Prod.snd

theorem distinct_filter : ((tree.entries.filter fun entry => entry.1 ≠ p).map Prod.fst).Nodup :=
  tree.distinct.sublist (filter_sublist.map _)

def erase : FileTree β :=
  ⟨tree.entries.filter fun entry => entry.1 ≠ p, tree.distinct_filter p⟩

def set (n : Node β) : FileTree β where
  entries := (p, n) :: tree.entries.filter fun entry => entry.1 ≠ p
  distinct := by
    rw [map_cons, nodup_cons]
    refine ⟨fun mem => ?_, tree.distinct_filter p⟩
    obtain ⟨entry, among, same⟩ := mem_map.1 mem
    exact absurd same (of_decide_eq_true (mem_filter.1 among).2)

theorem find?_filter_ne (entries : List (Place × Node β)) (p q : Place) (ne : q ≠ p) :
    (entries.filter fun entry => entry.1 ≠ p).find? (fun entry => entry.1 = q) =
      entries.find? fun entry => entry.1 = q := by
  rw [find?_filter]
  congr 1
  funext entry
  by_cases here : entry.1 = q
  · simp [here, ne]
  · simp [here]

@[simp] theorem node_erase : (tree.erase p).node q = if q = p then none else tree.node q := by
  unfold node erase
  split_ifs with same
  · rw [same, Option.map_eq_none_iff, find?_eq_none]
    intro _ among
    simpa using (mem_filter.1 among).2
  · rw [find?_filter_ne _ _ _ same]

@[simp] theorem node_set (n : Node β) :
    (tree.set p n).node q = if q = p then some n else tree.node q := by
  unfold node set
  split_ifs with same
  · rw [find?_cons_of_pos (by simpa using same.symm)]
    rfl
  · rw [find?_cons_of_neg (by simpa using Ne.symm same), find?_filter_ne _ _ _ same]

/-! ### Operations -/

def isFile : Bool :=
  match tree.node p with
  | some (.file _) => true
  | _ => false

def blocked : Bool :=
  p.inits.any fun q => q ≠ [] && q ≠ p && tree.isFile q

def isDir : Bool :=
  match tree.node p with
  | some .dir => true
  | _ => p.isEmpty

def read : Except IoError β :=
  if tree.blocked p then .error .notADirectory
  else
    match tree.node p with
    | some (.file content) => .ok content
    | some .dir => .error .isADirectory
    | none => .error .notFound

def ensureDir (last : Place) (tree : FileTree β) (p : Place) : Except IoError (FileTree β) :=
  match tree.node p with
  | some .dir => .ok tree
  | none => .ok (tree.set p .dir)
  | some (.file _) => .error (if p = last then .alreadyExists else .notADirectory)

def createDirAll : Except IoError (FileTree β) :=
  (p.inits.filter (· ≠ [])).foldlM (ensureDir p) tree

def createFile (content : β) : Except IoError (FileTree β) :=
  if tree.blocked p then .error .notADirectory
  else if tree.isDir p then .error .isADirectory
  else if tree.isDir p.dropLast then .ok (tree.set p (.file content))
  else .error .notFound

def removeFile : Except IoError (FileTree β) :=
  match tree.read p with
  | .ok _ => .ok (tree.erase p)
  | .error e => .error e

def rename : Except IoError (FileTree β) :=
  match tree.read p with
  | .ok content => (tree.erase p).createFile q content
  | .error e => .error e

def filesUnder : List Place :=
  (tree.entries.filter fun entry => p.isPrefixOf entry.1 && tree.isFile entry.1).map Prod.fst

/-! ### What the operations do -/

variable {tree p q} {tree' : FileTree β} {content : β} {e : IoError}

theorem mem_entries {n : Node β} : (p, n) ∈ tree.entries ↔ tree.node p = some n := by
  constructor
  · intro mem
    cases found : tree.entries.find? fun entry => entry.1 = p with
    | none => simpa using find?_eq_none.1 found _ mem
    | some entry =>
      have same : entry.1 = p := by simpa using find?_some found
      have equal := inj_on_of_nodup_map tree.distinct (mem_of_find?_eq_some found) mem same
      rw [node, found, equal]
      rfl
  · intro found
    obtain ⟨entry, first, rfl⟩ := Option.map_eq_some_iff.1 found
    have same : entry.1 = p := by simpa using find?_some first
    exact same ▸ mem_of_find?_eq_some first

theorem isFile_iff : tree.isFile p = true ↔ ∃ content, tree.node p = some (.file content) := by
  unfold isFile
  split
  · next _ found => simp [found]
  · next other =>
    refine iff_of_false Bool.false_ne_true fun ⟨content, found⟩ => other content found

theorem blocked_eq_false : tree.blocked p = false ↔
    ∀ q content, q <+: p → q ≠ [] → q ≠ p → tree.node q ≠ some (.file content) := by
  unfold blocked
  rw [any_eq_false]
  constructor
  · intro free q content before some ne file
    refine free q ((mem_inits ..).2 before) ?_
    rw [and_eq_true, and_eq_true]
    exact ⟨⟨decide_eq_true some, decide_eq_true ne⟩, isFile_iff.2 ⟨content, file⟩⟩
  · intro free q among found
    rw [and_eq_true, and_eq_true] at found
    obtain ⟨⟨some, ne⟩, file⟩ := found
    obtain ⟨content, file⟩ := isFile_iff.1 file
    exact free q content ((mem_inits ..).1 among) (of_decide_eq_true some)
      (of_decide_eq_true ne) file

theorem read_of_file (free : tree.blocked p = false) (file : tree.node p = some (.file content)) :
    tree.read p = .ok content := by
  rw [read, if_neg (by simp [free]), file]

theorem read_of_none (free : tree.blocked p = false) (none : tree.node p = none) :
    tree.read p = .error .notFound := by
  rw [read, if_neg (by simp [free]), none]

theorem node_of_read (done : tree.read p = .ok content) : tree.node p = some (.file content) := by
  unfold read at done
  split_ifs at done
  split at done
  · next _ found => rw [found, ok.inj done]
  · cases done
  · cases done

theorem node_eq_none (notFile : ∀ content, tree.node p ≠ some (.file content))
    (notDir : tree.node p ≠ some .dir) : tree.node p = none := by
  cases found : tree.node p with
  | none => rfl
  | some node =>
    cases node with
    | file content => exact absurd found (notFile content)
    | dir => exact absurd found notDir

theorem filesUnder_nodup (tree : FileTree β) (p : Place) : (tree.filesUnder p).Nodup :=
  tree.distinct.sublist (filter_sublist.map _)

theorem mem_filesUnder :
    q ∈ tree.filesUnder p ↔ p <+: q ∧ ∃ content, tree.node q = some (.file content) := by
  unfold filesUnder
  rw [mem_map]
  constructor
  · rintro ⟨_, among, rfl⟩
    have kept := (mem_filter.1 among).2
    rw [and_eq_true] at kept
    exact ⟨ isPrefixOf_iff_prefix.1 kept.1, isFile_iff.1 kept.2⟩
  · rintro ⟨below, content, file⟩
    refine ⟨(q, .file content), mem_filter.2 ⟨mem_entries.2 file, ?_⟩, rfl⟩
    rw [and_eq_true]
    exact ⟨ isPrefixOf_iff_prefix.2 below, isFile_iff.2 ⟨content, file⟩⟩

/-- Some places have become directories. -/
structure Grown (places : List Place) (tree tree' : FileTree β) : Prop where
  dirs : ∀ q ∈ places, tree'.node q = some .dir
  rest : ∀ q, tree'.node q = tree.node q ∨
    q ∈ places ∧ tree.node q = none ∧ tree'.node q = some .dir

variable {places : List Place}

theorem Grown.file_iff (grown : Grown places tree tree') :
    tree'.node p = some (.file content) ↔ tree.node p = some (.file content) := by
  rcases grown.rest p with same | ⟨-, none, dir⟩
  · rw [same]
  · simp [none, dir]

theorem Grown.dir (grown : Grown places tree tree') (dir : tree.node p = some .dir) :
    tree'.node p = some .dir := by
  rcases grown.rest p with same | ⟨-, -, now⟩
  · rw [same, dir]
  · exact now

theorem ensureDir_grown (done : ensureDir q tree p = .ok tree') : Grown [p] tree tree' := by
  unfold ensureDir at done
  split at done
  · next dir =>
    obtain rfl := ok.inj done
    exact ⟨by simpa using dir, fun _ => .inl rfl⟩
  · next none =>
    obtain rfl := ok.inj done
    refine ⟨by simp, fun q => ?_⟩
    by_cases same : q = p
    · subst same
      exact .inr ⟨mem_cons_self, none, by simp⟩
    · exact .inl (by simp [same])
  · cases done

theorem foldlM_ensureDir (done : places.foldlM (ensureDir p) tree = .ok tree') :
    Grown places tree tree' := by
  induction places generalizing tree with
  | nil =>
    obtain rfl := ok.inj done
    exact ⟨nofun, fun _ => .inl rfl⟩
  | cons place _ ih =>
    rw [foldlM_cons] at done
    cases first : ensureDir p tree place with
    | error e =>
      rw [first] at done
      cases done
    | ok _ =>
      rw [first] at done
      have here := ensureDir_grown first
      have later := ih done
      refine ⟨?_, fun q => ?_⟩
      · intro q among
        rcases mem_cons.1 among with rfl | among
        · exact later.dir (here.dirs q mem_cons_self)
        · exact later.dirs q among
      · rcases later.rest q with same | ⟨among, none, dir⟩
        · rw [same]
          exact (here.rest q).imp_right fun ⟨among, rest⟩ =>
            ⟨mem_singleton.1 among ▸ mem_cons_self, rest⟩
        · refine .inr ⟨mem_cons_of_mem _ among, ?_, dir⟩
          rcases here.rest q with same | ⟨-, absent, -⟩
          · rw [← same, none]
          · exact absent

/-- The directories on the way to a place, and the place itself. -/
theorem createDirAll_grown (done : tree.createDirAll p = .ok tree') :
    Grown (p.inits.filter (· ≠ [])) tree tree' := foldlM_ensureDir done

theorem mem_inits_filter : q ∈ p.inits.filter (· ≠ []) ↔ q <+: p ∧ q ≠ [] := by
  simp

theorem createFile_eq_ok (done : tree.createFile p content = .ok tree') :
    tree' = tree.set p (.file content) ∧ tree.node p ≠ some .dir := by
  unfold createFile at done
  split_ifs at done with blocked dir parent
  refine ⟨(ok.inj done).symm, fun isDir => dir ?_⟩
  rw [FileTree.isDir, isDir]

theorem rename_eq_ok (done : tree.rename p q = .ok tree') :
    ∃ content, tree.node p = some (.file content) ∧ (tree.erase p).node q ≠ some .dir ∧
      tree' = (tree.erase p).set q (.file content) := by
  unfold rename at done
  split at done
  · next content found =>
    obtain ⟨same, ne⟩ := createFile_eq_ok done
    exact ⟨content, node_of_read found, ne, same⟩
  · cases done

theorem removeFile_eq_ok (done : tree.removeFile p = .ok tree') :
    tree' = tree.erase p ∧ ∃ content, tree.node p = some (.file content) := by
  unfold removeFile at done
  split at done
  · next content found => exact ⟨(ok.inj done).symm, content, node_of_read found⟩
  · cases done

end FileTree

end FileTrees
