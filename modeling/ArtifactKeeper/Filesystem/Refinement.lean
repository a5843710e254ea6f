import ArtifactKeeper.Filesystem.Keys
import ArtifactKeeper.Library.Fallible
import ArtifactKeeper.Library.FileTree
import ArtifactKeeper.Library.StepSystem
import ArtifactKeeper.Storage
import Mathlib.Data.List.Sort

/-!
# Objects as files

The operations of the filesystem backend on a tree of files.  A write goes to a temporary file next
to its destination, which is then renamed; a listing leaves temporary files out by their names.
-/

namespace ArtifactKeeper.Filesystem

open FileTrees StepSystem UnixPath Text Function

structure Setup where
  storage : FilesystemStorage
  cwd : Place

structure Uuid where
  hyphenated : Text
  hex : ∀ c ∈ hyphenated, '0' ≤ c ∧ c ≤ '9' ∨ 'a' ≤ c ∧ c ≤ 'f' ∨ c = '-'

inductive StorageError
  | panicked
  | io (e : IoError)
  | notFound (message : Text)
  | storage (message : Text)
  deriving DecidableEq

abbrev Tree := FileTree Bytes

/-! ### Writes -/

def parentOf (path : List Component) : Option (List Component) :=
  match path.getLast? with
  | none | some .rootDir => none
  | some _ => some path.dropLast

variable (cfg : Setup)

def createParent (path : Text) (tree : Tree) : Except IoError Tree :=
  match parentOf (components path) with
  | none => .ok tree
  | some parent => tree.createDirAll (walk cfg.cwd parent)

def tempName (front : Text) (uuid : Uuid) : Text := front ++ ".tmp." ++ uuid.hyphenated

inductive Stage
  | copying
  | promoting
  deriving DecidableEq

/-- Write a temporary file and rename it; it is removed if that fails. -/
def writeThrough (temp dest : Place) (content : Except IoError Bytes) (tree : Tree) :
    Except (Stage × IoError) Unit × Tree :=
  match content with
  | .error e => (.error (.copying, e), tree)
  | .ok content =>
    match tree.createFile temp content with
    | .error e => (.error (.copying, e), tree)
    | .ok staged =>
      match staged.rename temp dest with
      | .error e => (.error (.promoting, e), staged.erase temp)
      | .ok done => (.ok (), done)

variable (uuid : Uuid) (key : Text)

def put (content : Bytes) (tree : Tree) : Except StorageError Unit × Tree :=
  match keyToPath cfg.storage key with
  | none => (.error .panicked, tree)
  | some path =>
    match createParent cfg path tree with
    | .error e => (.error (.io e), tree)
    | .ok tree =>
      match writeThrough (resolve cfg.cwd (tempName path uuid)) (resolve cfg.cwd path) (.ok content)
          tree with
      | (.error (_, e), tree) => (.error (.io e), tree)
      | (.ok (), tree) => (.ok (), tree)

/-- `put_file` and the second half of `copy`, with a sibling as the temporary file and the error of a
failed copy. -/
def storeFile (key path : Text) (source : Tree → Except IoError Bytes)
    (copyError : IoError → StorageError) (tree : Tree) : Except StorageError Unit × Tree :=
  match createParent cfg path tree with
  | .error e => (.error (.io e), tree)
  | .ok tree =>
    match parentOf (components path) with
    | none =>
      (.error (.storage ("Destination path for '" ++ key ++ "' has no parent directory")), tree)
    | some parent =>
      match writeThrough (walk cfg.cwd (parent ++ [.normal (tempName [] uuid)]))
          (resolve cfg.cwd path) (source tree) tree with
      | (.error (.copying, e), tree) => (.error (copyError e), tree)
      | (.error (.promoting, e), tree) =>
        (.error (.storage ("Failed to promote copied temp file to " ++ key ++
          ": " ++ e.display)), tree)
      | (.ok (), tree) => (.ok (), tree)

def notFoundError : StorageError :=
  .notFound ("Storage key not found: " ++ key)

/-- The source of `std::fs::copy`, which refuses a directory itself. -/
def copySource (path : Text) (tree : Tree) : Except IoError Bytes :=
  (tree.read (resolve cfg.cwd path)).mapError fun e => if e = .isADirectory then .notAFile else e

def copy (source dest : Text) (tree : Tree) : Except StorageError Unit × Tree :=
  match keyToPath cfg.storage source, keyToPath cfg.storage dest with
  | some sourcePath, some destPath =>
    storeFile cfg uuid dest destPath (copySource cfg sourcePath)
      (fun e =>
        if e = .notFound then notFoundError source
        else .storage ("Failed to copy " ++ source ++ " to " ++ dest ++ ": " ++ e.display)) tree
  | _, _ => (.error .panicked, tree)

def putFile (content : Except IoError Bytes) (tree : Tree) : Except StorageError Unit × Tree :=
  match keyToPath cfg.storage key with
  | none => (.error .panicked, tree)
  | some path =>
    storeFile cfg uuid key path (fun _ => content)
      (fun e => .storage ("Failed to copy file to " ++ key ++ ": " ++ e.display)) tree

def delete (tree : Tree) : Except StorageError Unit × Tree :=
  match keyToPath cfg.storage key with
  | none => (.error .panicked, tree)
  | some path =>
    match tree.removeFile (resolve cfg.cwd path) with
    | .ok tree => (.ok (), tree)
    | .error .notFound => (.error (notFoundError key), tree)
    | .error e =>
      (.error (.storage ("Failed to delete " ++ key ++ ": " ++ e.display)), tree)

/-! ### Reads -/

def get (tree : Tree) : Except StorageError Bytes :=
  match keyToPath cfg.storage key with
  | none => .error .panicked
  | some path =>
    match tree.read (resolve cfg.cwd path) with
    | .ok content => .ok content
    | .error .notFound => .error (notFoundError key)
    | .error e =>
      .error (.storage ("Failed to read " ++ key ++ ": " ++ e.display))

def trimSlashes (s : Text) : Text := (s.dropWhile (· = '/')).rdropWhile (· = '/')

def fileName (place : Place) : Text := place.getLast?.getD []

/-- The keys of the files in a directory, sorted; temporary files are left out. -/
def listFilesUnder (dir : Place) (front : Text) (tree : Tree) : List Text :=
  if dir ≠ [] ∧ tree.node dir = none then []
  else
    (((tree.filesUnder dir).filter fun place =>
      !containsText (fileName place) ".tmp.").map fun place =>
        front ++ '/' :: join '/' (place.drop dir.length)).insertionSort (le · ·)

/-- `none` for the empty prefix. -/
def listKeys (front : Text) (tree : Tree) : Option (List Text) :=
  let front := trimSlashes front
  if front = [] then none
  else some (listFilesUnder (resolve cfg.cwd (push (rootFor cfg.storage front) front)) front tree)

/-! ### Runs -/

inductive Call
  | put (uuid : Uuid) (key : Text) (content : Bytes)
  | putFile (uuid : Uuid) (key : Text) (content : Except IoError Bytes)
  | copy (uuid : Uuid) (source dest : Text)
  | delete (key : Text)

def perform : Call → Tree → Except StorageError Unit × Tree
  | .put uuid key content => put cfg uuid key content
  | .putFile uuid key content => putFile cfg uuid key content
  | .copy uuid source dest => copy cfg uuid source dest
  | .delete key => delete cfg key

structure State where
  tree : Tree
  objects : List Text → Option Bytes
  written : List (List Text)

/-- What a call that returned success has written. -/
def record (s : State) (tree : Tree) : Call → State
  | .put _ key content =>
    ⟨tree, update s.objects (normalNames key) (some content), normalNames key :: s.written⟩
  | .putFile _ key content =>
    ⟨tree, update s.objects (normalNames key) content.toOption, normalNames key :: s.written⟩
  | .copy _ source dest =>
    ⟨tree, update s.objects (normalNames dest) (s.objects (normalNames source)),
      normalNames dest :: s.written⟩
  | .delete key => ⟨tree, update s.objects (normalNames key) none, s.written⟩

def step (s : State) (call : Call) : Option State :=
  match perform cfg call s.tree with
  | (.ok (), tree) => some (record s tree call)
  | (.error _, tree) => some { s with tree := tree }

open FileTrees.FileTree List

/-! ### Places of keys -/

def namespaceNames : List Text := ["proxy-cache", "proxy-cache-staging"]

def Anchored (names : List Text) : Prop :=
  ∃ ns ∈ namespaceNames, ∃ rest, rest ≠ [] ∧ names = ns :: rest

section

variable {names : List Text} {cfg} {key path : Text}

variable {text : Text}

theorem slash_prefix_iff {ns : Text} (plain : '/' ∉ ns) :
    (ns ++ ['/']) <+: text ↔ ∃ rest, rest ≠ [] ∧ text.splitOn '/' = ns :: rest := by
  constructor
  · rintro ⟨back, rfl⟩
    rw [append_assoc, singleton_append, splitOn_append_cons, splitOn_of_not_mem plain]
    exact ⟨_, splitOn_ne_nil '/' back, rfl⟩
  · rintro ⟨rest, nonempty, parts⟩
    have whole : join '/' (text.splitOn '/') = text := intercalate_splitOn '/'
    have split := join_append '/' (cons_ne_nil ns []) nonempty
    rw [join_singleton] at split
    refine ⟨join '/' rest, ?_⟩
    rw [append_assoc, ← whole, parts]
    exact split.symm

theorem keyIsBucketRootAnchored_iff : keyIsBucketRootAnchored text = true ↔
    ∃ ns ∈ namespaceNames, ∃ rest, rest ≠ [] ∧ text.splitOn '/' = ns :: rest := by
  have spelled : bucketRootKeyNamespaces = namespaceNames.map (· ++ ['/']) := by decide
  have plain : ∀ ns ∈ namespaceNames, '/' ∉ ns := by decide
  unfold keyIsBucketRootAnchored
  rw [spelled, any_map, any_eq_true]
  refine exists_congr fun ns => and_congr_right fun among => ?_
  rw [← slash_prefix_iff (plain ns among)]
  exact isPrefixOf_iff_prefix

theorem anchored_iff (proper : ∀ name ∈ names, Proper name) :
    keyIsBucketRootAnchored (join '/' names) = true ↔ Anchored names := by
  by_cases nonempty : names = []
  · subst nonempty
    exact iff_of_false (by decide) fun ⟨_, _, _, _, same⟩ => cons_ne_nil _ _ same.symm
  · rw [keyIsBucketRootAnchored_iff,
      splitOn_join nonempty fun part mem => (proper part mem).no_slash]
    rfl

theorem splitOn_of_normal (normal : components text = names.map .normal) (nonempty : names ≠ []) :
    ∃ first parts rest, text.splitOn '/' = first :: parts ∧ names = first :: rest ∧
      parts.filterMap segment = rest.map .normal := by
  obtain ⟨first, parts, split⟩ := exists_cons_of_ne_nil (splitOn_ne_nil '/' text)
  obtain ⟨_, rest, rfl⟩ := exists_cons_of_ne_nil nonempty
  have whole : join '/' (text.splitOn '/') = text := intercalate_splitOn '/'
  have relative : leading text = [] := by
    unfold components leading at normal
    unfold leading
    split_ifs at normal ⊢ <;> first | rfl | (simp at normal)
  rw [components, relative, nil_append, segments, split, filterMap_cons] at normal
  refine ⟨first, parts, rest, split, ?_⟩
  unfold leading at relative
  rw [split] at relative whole
  -- an empty first part or a dot would make another leading component
  by_cases empty : first = []
  · exfalso
    subst empty
    cases parts with
    | nil => simp [UnixPath.segment] at normal
    | cons _ _ =>
      have slash : text.head? = some '/' := by
        rw [← whole]
        rfl
      simp [slash] at relative
  by_cases here : first = dot
  · exfalso
    subst here
    by_cases slash : text.head? = some '/' <;> simp [slash] at relative
  unfold UnixPath.segment at normal
  rw [if_neg (not_or.2 ⟨empty, here⟩)] at normal
  by_cases up : first = dotDot
  · simp [up] at normal
  · rw [if_neg up] at normal
    obtain ⟨same, later⟩ := cons.inj normal
    exact ⟨by rw [Component.normal.inj same], later⟩

theorem anchored_iff_of_normal (normal : components text = names.map .normal)
    (nonempty : names ≠ []) (several : ∀ ns ∈ namespaceNames, names ≠ [ns]) :
    keyIsBucketRootAnchored text = true ↔ Anchored names := by
  obtain ⟨first, parts, rest, split, rfl, later⟩ := splitOn_of_normal normal nonempty
  rw [keyIsBucketRootAnchored_iff, split, Anchored]
  refine exists_congr fun ns => and_congr_right fun among => ?_
  constructor
  · rintro ⟨_, _, same⟩
    obtain ⟨rfl, -⟩ := cons.inj same
    exact ⟨rest, fun none => several first among (by rw [none]), rfl⟩
  · rintro ⟨_, some, same⟩
    obtain ⟨rfl, rfl⟩ := cons.inj same
    refine ⟨parts, ?_, rfl⟩
    rintro rfl
    exact some (map_eq_nil_iff.1 later.symm)

def rootPlace (cfg : Setup) (names : List Text) : Place :=
  resolve cfg.cwd (rootFor cfg.storage (join '/' names))

def placeOf (cfg : Setup) (names : List Text) : Place := rootPlace cfg names ++ names

theorem resolve_push_join (cfg : Setup) (root : Text) (proper : ∀ name ∈ names, Proper name) :
    resolve cfg.cwd (push root (join '/' names)) = resolve cfg.cwd root ++ names := by
  unfold resolve
  rw [components_push_normal root (components_join proper), walk_append, walk_normal]

/-- The place of a key of several components, of its directory and of the temporary file. -/
structure StoredAt (cfg : Setup) (key path : Text) : Prop where
  found : keyToPath cfg.storage key = some path
  place : resolve cfg.cwd path = placeOf cfg (normalNames key)
  parent : ∃ parent, parentOf (components path) = some parent ∧
    walk cfg.cwd parent = (placeOf cfg (normalNames key)).dropLast
  sibling : ∀ suffix, '/' ∉ suffix → ∃ last,
    resolve cfg.cwd (path ++ suffix) = (placeOf cfg (normalNames key)).dropLast ++ [last ++ suffix]

theorem storedAt (cfg : Setup) (many : 1 < (normalNames key).length) :
    ∃ path, StoredAt cfg key path := by
  have proper := proper_normalNames key
  have joined : sanitize key = join '/' (normalNames key) := foldl_push_eq_join proper
  have found := keyToPath_of_many cfg.storage many
  have place : resolve cfg.cwd (push (chosenRoot cfg.storage key) (sanitize key)) =
      placeOf cfg (normalNames key) := by
    rw [chosenRoot, joined, resolve_push_join cfg _ proper]
    rfl
  have nonempty : normalNames key ≠ [] := length_pos_iff.1 (by omega)
  obtain ⟨front, last, split⟩ : ∃ front last, normalNames key = front ++ [last] :=
    (eq_nil_or_concat' _).resolve_left nonempty
  have parentPlace : (placeOf cfg (normalNames key)).dropLast =
      rootPlace cfg (normalNames key) ++ front := by
    rw [placeOf, dropLast_append_of_ne_nil nonempty, split, dropLast_concat]
  refine ⟨push (chosenRoot cfg.storage key) (sanitize key), found, place, ?_, ?_⟩
  · refine ⟨components (chosenRoot cfg.storage key) ++ front.map .normal, ?_, ?_⟩
    · rw [components_push_normal _ (components_sanitize key), split, map_append, ← append_assoc]
      simp [parentOf]
    · rw [walk_append, walk_normal, parentPlace, chosenRoot, joined]
      rfl
  · intro suffix plain
    refine ⟨last, ?_⟩
    have longer : sanitize key ++ suffix = join '/' (front ++ [last ++ suffix]) := by
      rw [joined, split]
      by_cases first : front = []
      · subst first
        simp
      · rw [join_append '/' first (cons_ne_nil _ _), join_append '/' first (cons_ne_nil _ _)]
        simp
    have proper' : ∀ name ∈ front ++ [last ++ suffix], Proper name := by
      intro name mem
      rcases mem_append.1 mem with before | here
      · exact proper name (split ▸ mem_append_left _ before)
      · rw [mem_singleton.1 here]
        exact (proper last (split ▸ mem_append_right _ mem_cons_self)).append plain
    have text : sanitize key ≠ [] := by
      intro empty
      have none := components_sanitize key
      rw [empty, components_nil] at none
      exact nonempty (map_eq_nil_iff.1 none.symm)
    rw [push_append _ text, longer, resolve_push_join cfg _ proper', parentPlace, chosenRoot, joined,
      ← append_assoc]
    rfl

/-! ### Roots that keep apart -/

/-- Neither root reaches into the other one's part of the tree, unless they are one. -/
def Apart (cfg : Setup) : Prop :=
  ∀ root, cfg.storage.bucketRoot = some root →
    resolve cfg.cwd root = resolve cfg.cwd cfg.storage.basePath ∨
    ∀ ns ∈ namespaceNames, ¬ resolve cfg.cwd root ++ [ns] <+: resolve cfg.cwd cfg.storage.basePath ∧
      ¬ resolve cfg.cwd cfg.storage.basePath <+: resolve cfg.cwd root ++ [ns]

theorem rootPlace_cases (cfg : Setup) (proper : ∀ name ∈ names, Proper name) :
    (∃ root, cfg.storage.bucketRoot = some root ∧ Anchored names ∧
      rootPlace cfg names = resolve cfg.cwd root) ∨
    ((cfg.storage.bucketRoot = none ∨ ¬ Anchored names) ∧
      rootPlace cfg names = resolve cfg.cwd cfg.storage.basePath) := by
  unfold rootPlace rootFor
  cases bucket : cfg.storage.bucketRoot with
  | none => exact .inr ⟨.inl rfl, rfl⟩
  | some root =>
    by_cases anchored : Anchored names
    · left
      refine ⟨root, rfl, anchored, ?_⟩
      simp only [(anchored_iff proper).2 anchored, if_true]
    · right
      refine ⟨.inr anchored, ?_⟩
      rw [← anchored_iff proper] at anchored
      simp only [anchored]
      rfl

variable {names' : List Text}

theorem Apart.root_eq {root : Text} {place : Place} (apart : Apart cfg)
    (bucket : cfg.storage.bucketRoot = some root) (anchored : Anchored names)
    (above : resolve cfg.cwd root ++ names <+: place)
    (above' : resolve cfg.cwd cfg.storage.basePath ++ names' <+: place) :
    resolve cfg.cwd root = resolve cfg.cwd cfg.storage.basePath := by
  obtain ⟨ns, among, rest, -, rfl⟩ := anchored
  refine (apart root bucket).resolve_right fun disjoint => ?_
  have one : resolve cfg.cwd root ++ [ns] <+: place := by
    refine IsPrefix.trans ⟨rest, ?_⟩ above
    rw [append_assoc, singleton_append]
  have other := (prefix_append _ _).trans above'
  rcases prefix_or_prefix_of_prefix one other with inside | inside
  · exact (disjoint ns among).1 inside
  · exact (disjoint ns among).2 inside

theorem prefix_of_place (apart : Apart cfg) (proper : ∀ name ∈ names, Proper name)
    (proper' : ∀ name ∈ names', Proper name) (below : placeOf cfg names <+: placeOf cfg names') :
    names <+: names' := by
  have same : rootPlace cfg names = rootPlace cfg names' := by
    unfold placeOf at below
    rcases rootPlace_cases cfg proper with ⟨root, bucket, anchored, here⟩ | ⟨-, here⟩ <;>
      rcases rootPlace_cases cfg proper' with ⟨root', bucket', anchored', there⟩ | ⟨-, there⟩
    · rw [here, there, Option.some.inj (bucket.symm.trans bucket')]
    · rw [here, there] at below ⊢
      exact apart.root_eq bucket anchored below prefix_rfl
    · rw [here, there] at below ⊢
      exact (apart.root_eq bucket' anchored' prefix_rfl below).symm
    · rw [here, there]
  unfold placeOf at below
  rw [same] at below
  exact (prefix_append_right_inj _).1 below

theorem placeOf_inj (apart : Apart cfg) (proper : ∀ name ∈ names, Proper name)
    (proper' : ∀ name ∈ names', Proper name) (same : placeOf cfg names = placeOf cfg names') :
    names = names' :=
  (prefix_of_place apart proper proper' (same ▸ prefix_rfl)).eq_of_length_le
    (prefix_of_place apart proper' proper (same ▸ prefix_rfl)).length_le

/-! ### The invariant -/

/-- A key that can be written. -/
structure Valid (names : List Text) : Prop where
  many : 1 < names.length
  proper : ∀ name ∈ names, Proper name
  lasting : containsText (fileName names) ".tmp." = false

/-- A place where keys are stored. -/
def Within (cfg : Setup) (place : Place) : Prop :=
  (∃ names, names ≠ [] ∧ place = resolve cfg.cwd cfg.storage.basePath ++ names) ∨
    ∃ root, cfg.storage.bucketRoot = some root ∧ ∃ ns ∈ namespaceNames, ∃ rest,
      place = resolve cfg.cwd root ++ ns :: rest

theorem within_rootPlace {more : List Text} (proper : ∀ name ∈ names, Proper name)
    (some : more ≠ []) (first : more.head? = names.head?) :
    Within cfg (rootPlace cfg names ++ more) := by
  rcases rootPlace_cases cfg proper with ⟨root, bucket, anchored, here⟩ | ⟨-, here⟩
  · obtain ⟨ns, among, _, -, rfl⟩ := anchored
    obtain ⟨tail, rfl⟩ := head?_eq_some_iff.1 first
    exact .inr ⟨root, bucket, ns, among, tail, by rw [here]⟩
  · exact .inl ⟨more, some, by rw [here]⟩

/-- The files below the roots are the objects. -/
structure Refines (cfg : Setup) (s : State) : Prop where
  files : ∀ place content, s.tree.node place = some (.file content) → Within cfg place →
    ∃ names, place = placeOf cfg names ∧ s.objects names = some content
  stored : ∀ names content, s.objects names = some content →
    names ∈ s.written ∧ s.tree.node (placeOf cfg names) = some (.file content)
  valid : ∀ names ∈ s.written, Valid names
  dirs : ∀ names ∈ s.written, ∀ q, q <+: placeOf cfg names → q ≠ [] → q ≠ placeOf cfg names →
    s.tree.node q = some .dir
  gone : ∀ names ∈ s.written, s.objects names = none → s.tree.node (placeOf cfg names) = none

/-- The destination of a write: no temporary name, and not below a deleted key. -/
structure Writable (s : State) (names : List Text) : Prop where
  many : 1 < names.length
  lasting : containsText (fileName names) ".tmp." = false
  fresh : ∀ deleted ∈ s.written, s.objects deleted = none → deleted <+: names → deleted = names

variable {s : State} {tree : Tree} {content : Bytes}

section

variable (refines : Refines cfg s)
include refines

theorem Refines.proper (object : s.objects names = some content) : ∀ name ∈ names, Proper name :=
  (refines.valid names (refines.stored names content object).1).proper

theorem Refines.of_nodes (same : ∀ q, tree.node q = s.tree.node q) :
    Refines cfg { s with tree := tree } where
  files place content file within := refines.files place content (same place ▸ file) within
  stored names content object :=
    ⟨(refines.stored names content object).1, same _ ▸ (refines.stored names content object).2⟩
  valid := refines.valid
  dirs names among q below some ne := same q ▸ refines.dirs names among q below some ne
  gone names among none := same _ ▸ refines.gone names among none

/-- Directories on the way to a key do no harm. -/
theorem Refines.of_grown (apart : Apart cfg) (proper : ∀ name ∈ names, Proper name)
    (writable : Writable s names)
    (grown : Grown ((placeOf cfg names).dropLast.inits.filter (· ≠ [])) s.tree tree) :
    Refines cfg { s with tree := tree } where
  files place content file within := refines.files place content (grown.file_iff.1 file) within
  stored names content object :=
    ⟨(refines.stored names content object).1,
      grown.file_iff.2 (refines.stored names content object).2⟩
  valid := refines.valid
  dirs names among q below some ne := grown.dir (refines.dirs names among q below some ne)
  gone names' among none := by
    rcases grown.rest (placeOf cfg names') with same | ⟨above, -, -⟩
    · rw [same]
      exact refines.gone names' among none
    · -- the deleted key would be a directory on the way
      have short := (mem_inits_filter.1 above).1
      have below : placeOf cfg names' <+: placeOf cfg names := short.trans ( dropLast_prefix _)
      have inside := prefix_of_place apart (refines.valid names' among).proper proper below
      rw [writable.fresh names' among none inside] at short
      have length := short.length_le
      have many := writable.many
      rw [length_dropLast, placeOf, length_append] at length
      omega

theorem Refines.write (apart : Apart cfg) (valid : Valid names)
    (free : s.tree.node (placeOf cfg names) ≠ some .dir)
    (dirs : ∀ q, q <+: placeOf cfg names → q ≠ [] → q ≠ placeOf cfg names →
      s.tree.node q = some .dir)
    (set : ∀ q, tree.node q =
      if q = placeOf cfg names then some (.file content) else s.tree.node q) :
    Refines cfg ⟨tree, update s.objects names (some content), names :: s.written⟩ := by
  have other : ∀ names' ∈ s.written, names' ≠ names → placeOf cfg names' ≠ placeOf cfg names :=
    fun names' among ne same =>
      ne (placeOf_inj apart (refines.valid names' among).proper valid.proper same)
  refine ⟨?_, ?_, ?_, ?_, ?_⟩ <;> dsimp only
  · intro place content' file within
    rw [set] at file
    split_ifs at file with here
    · refine ⟨names, here, ?_⟩
      rw [update_self, Node.file.inj (Option.some.inj file)]
    · obtain ⟨names', at_, object⟩ := refines.files place content' file within
      refine ⟨names', at_, ?_⟩
      rw [update_of_ne, object]
      rintro rfl
      exact here at_
  · intro names' content' object
    by_cases same : names' = names
    · subst same
      rw [update_self] at object
      refine ⟨mem_cons_self, ?_⟩
      rw [set, if_pos rfl, Option.some.inj object]
    · rw [update_of_ne same] at object
      obtain ⟨among, file⟩ := refines.stored names' content' object
      refine ⟨mem_cons_of_mem _ among, ?_⟩
      rw [set, if_neg (other names' among same), file]
  · intro names' among
    rcases mem_cons.1 among with rfl | among
    · exact valid
    · exact refines.valid names' among
  · intro names' among q below nonempty ne
    have dir : s.tree.node q = some .dir := by
      rcases mem_cons.1 among with rfl | among
      · exact dirs q below nonempty ne
      · exact refines.dirs names' among q below nonempty ne
    rw [set, if_neg, dir]
    rintro rfl
    exact free dir
  · intro names' among none
    by_cases same : names' = names
    · subst same
      rw [update_self] at none
      cases none
    · rw [update_of_ne same] at none
      have before := (mem_cons.1 among).resolve_left same
      rw [set, if_neg (other names' before same), refines.gone names' before none]

theorem Refines.delete (apart : Apart cfg) (proper : ∀ name ∈ names, Proper name)
    (file : s.tree.node (placeOf cfg names) = some (.file content)) :
    Refines cfg ⟨s.tree.erase (placeOf cfg names), update s.objects names none, s.written⟩ := by
  refine ⟨?_, ?_, refines.valid, ?_, ?_⟩ <;> dsimp only
  · intro place content' found within
    rw [node_erase] at found
    split_ifs at found with here
    obtain ⟨names', at_, object⟩ := refines.files place content' found within
    refine ⟨names', at_, ?_⟩
    rw [update_of_ne, object]
    rintro rfl
    exact here at_
  · intro names' content' object
    have ne : names' ≠ names := by
      rintro rfl
      rw [update_self] at object
      cases object
    rw [update_of_ne ne] at object
    obtain ⟨among, found⟩ := refines.stored names' content' object
    refine ⟨among, ?_⟩
    rw [node_erase, if_neg, found]
    exact fun same => ne (placeOf_inj apart (refines.valid names' among).proper proper same)
  · intro names' among q below nonempty ne
    have dir := refines.dirs names' among q below nonempty ne
    rw [node_erase, if_neg, dir]
    rintro rfl
    rw [file] at dir
    cases dir
  · intro names' among none
    by_cases same : names' = names
    · rw [node_erase, if_pos (by rw [same])]
    · rw [update_of_ne same] at none
      rw [node_erase]
      split_ifs
      · rfl
      · exact refines.gone names' among none

end

end

end ArtifactKeeper.Filesystem
