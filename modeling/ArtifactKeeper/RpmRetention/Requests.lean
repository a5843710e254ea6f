import ArtifactKeeper.Library.Protocol
import ArtifactKeeper.Library.Text
import Mathlib.Data.List.Sort

/-!
# Curated versions of RPM repositories

The rows of `repository_versions` with the file names of their packages, the active publication of
every repository and the keys of the stored objects.
-/

namespace ArtifactKeeper.RpmRetention

open Text

/-- The text of a repository's identifier: no two are the same, and none has a slash. -/
structure IdText where
  text : ℕ → Text
  injective : Function.Injective text
  slashFree : ∀ repo, '/' ∉ text repo

structure RepositoryRow where
  id : ℕ
  activePublicationId : Option ℕ
  deriving DecidableEq

structure VersionRow where
  id : ℕ
  repositoryId : ℕ
  versionNumber : ℤ
  published : Bool
  storagePrefix : Option Text
  members : List Text
  deriving DecidableEq

/-! ### Keys -/

section Keys

variable (ids : IdText)

def publicationsRoot (repo : ℕ) : Text :=
  "curation/" ++ ids.text repo ++ "/publications/"

def publicationPrefix (repo : ℕ) (versionNumber : ℤ) : Text :=
  publicationsRoot ids repo ++ intText versionNumber

def publicationRepodataFiles : List Text :=
  ["repodata/repomd.xml", "repodata/repomd.xml.asc", "repodata/repomd.xml.key",
    "repodata/primary.xml.gz", "repodata/filelists.xml.gz",
    "repodata/other.xml.gz"]

/-- The order in which `publish` puts them. -/
def putOrder : List Text :=
  ["repodata/primary.xml.gz", "repodata/filelists.xml.gz",
    "repodata/other.xml.gz", "repodata/repomd.xml", "repodata/repomd.xml.asc",
    "repodata/repomd.xml.key"]

def keyBelow (directory name : Text) : Text := directory ++ '/' :: name

def knownVersionKeys (directory : Text) (memberFilenames : List Text) : List Text :=
  publicationRepodataFiles.map (keyBelow directory) ++
    memberFilenames.map fun f => keyBelow directory ("packages/" ++ f)

def i64Bound : ℕ := 2 ^ 63

def listedVersionNumber (root key : Text) : Option ℤ :=
  (stripPrefix key root).bind fun rest =>
    (splitOnce '/' rest).bind fun (number, tail) =>
      if tail.isEmpty || number.isEmpty || !number.all Char.isDigit then none
      else (parseUnsigned i64Bound number).map (↑)

def isStrayKey (root key : Text) (surviving : List ℤ) (newest : Option ℤ) : Bool :=
  match listedVersionNumber root key, newest with
  | some n, some max => n ≤ max && n ∉ surviving
  | _, _ => false

end Keys

/-! ### Selection -/

variable (versions : List VersionRow)

def newestFirst : List VersionRow :=
  versions.insertionSort fun a b => b.versionNumber ≤ a.versionNumber

def selectPrunable (active : Option ℕ) (keep : ℕ) : List ℕ :=
  if keep = 0 then []
  else
    let published := newestFirst (versions.filter (·.published))
    let newestPublished := published.head?.map VersionRow.versionNumber
    let keptPublished := (published.take keep).map VersionRow.id
    ((versions.filter fun v => some v.id ≠ active && v.id ∉ keptPublished).filter fun v =>
      v.published || newestPublished.any (v.versionNumber < ·)).map VersionRow.id

def survivingNumbers (deleted : List ℕ) : List ℤ :=
  (versions.filter (·.id ∉ deleted)).map VersionRow.versionNumber

/-! ### The store -/

/-- A number that `create_version` has returned, and its row. -/
structure Issued where
  repositoryId : ℕ
  versionNumber : ℤ
  id : ℕ
  deriving DecidableEq

/-- The number within its repository. -/
def Issued.number (i : Issued) : ℕ × ℤ := (i.repositoryId, i.versionNumber)

structure Store where
  repositories : List RepositoryRow
  versions : List VersionRow
  objects : List Text
  nextId : ℕ
  issued : List Issued

variable (st : Store)

def Store.versionsOf (repo : ℕ) : List VersionRow :=
  st.versions.filter (·.repositoryId = repo)

/-- `COALESCE(MAX(version_number), 0) + 1`. -/
def Store.nextNumber (repo : ℕ) : ℤ :=
  ((st.versionsOf repo).map VersionRow.versionNumber).max?.getD 0 + 1

/-- The version is active in some repository. -/
def Store.isActive (id : ℕ) : Bool :=
  st.repositories.any (·.activePublicationId = some id)

def VersionRow.issued (v : VersionRow) : Issued := ⟨v.repositoryId, v.versionNumber, v.id⟩

inductive Effect
  | none
  | create (v : VersionRow)
  | put (key : Text)
  | publish (repo id : ℕ) (storagePrefix : Text)
  | prune (ids : List ℕ)
  | delete (key : Text)

def Effect.apply : Effect → Store → Store
  | .none, st => st
  | .create v, st =>
    { st with versions := v :: st.versions
              nextId := st.nextId + 1
              issued := v.issued :: st.issued }
  | .put key, st => { st with objects := key :: st.objects.filter (· ≠ key) }
  | .publish repo id storagePrefix, st =>
    { st with versions := st.versions.map fun v =>
                if v.id = id then { v with published := true, storagePrefix := some storagePrefix }
                else v
              repositories := st.repositories.map fun r =>
                if r.id = repo then { r with activePublicationId := some id } else r }
  | .prune ids, st => { st with versions := st.versions.filter (·.id ∉ ids) }
  | .delete key, st => { st with objects := st.objects.filter (· ≠ key) }

/-! ### Creation, publication and retention -/

/-- A deleted version whose objects may still be stored. -/
structure PrunedVersion where
  directory : Text
  memberFilenames : List Text
  deriving DecidableEq

inductive Request
  | idle
  | publishing (repo : ℕ) (versionNumber : ℤ)
  | writing (repo : ℕ) (versionNumber : ℤ) (id : ℕ) (files : List Text)
  | discarding (repo : ℕ) (versionNumber : ℤ) (files : List Text)
  | pruned (repo : ℕ) (surviving : List ℤ) (pruned : List PrunedVersion)
  | sweeping (repo : ℕ) (surviving : List ℤ) (listed : List Text)
  | erasing (keys : List Text)
  | finished
  deriving DecidableEq

inductive Action
  | drop
  | putObject (key : Text)
  | createVersion (repo : ℕ) (members : List Text)
  | publish (repo : ℕ) (versionNumber : ℤ)
  | readVersion
  | put
  | markPublished
  | discard
  | prune (repo keep : ℕ)
  | listKeys (listed : List Text)
  | cannotList
  | sweep
  | erase
  | deletionFails
  deriving DecidableEq

abbrev Statement := Outcome Request (ℕ × ℤ) Effect

def proceed (next : Request) : Statement := ⟨[], .none, next⟩

variable (ids : IdText) (st : Store)

/-- The new row; there is none without approved packages, or if the column cannot hold the
number. -/
def createVersion (repo : ℕ) (members : List Text) : Statement :=
  if members.isEmpty || st.repositories.all (·.id ≠ repo) || i64Bound ≤ st.nextNumber repo then
    proceed .finished
  else
    ⟨[], .create ⟨st.nextId, repo, st.nextNumber repo, false, none, members⟩, .finished⟩

def readVersion (repo : ℕ) (versionNumber : ℤ) : Statement :=
  match st.versions.find? fun v => v.repositoryId = repo && v.versionNumber = versionNumber with
  | none => proceed .finished
  | some v =>
    if v.published || v.members.isEmpty then proceed .finished
    else proceed (.writing repo versionNumber v.id putOrder)

/-- `mark_published`: the row is unpublished, already published or gone. -/
def markPublished (repo : ℕ) (versionNumber : ℤ) (id : ℕ) : Statement :=
  if st.versions.any fun v => v.id = id && !v.published then
    ⟨[], .publish repo id (publicationPrefix ids repo versionNumber), .finished⟩
  else if st.versions.any (·.id = id) then proceed .finished
  else proceed (.discarding repo versionNumber publicationRepodataFiles)

def prunedRows (repo keep : ℕ) (active : Option ℕ) : List VersionRow :=
  (st.versionsOf repo).filter fun v =>
    v.id ∈ selectPrunable (st.versionsOf repo) active keep && !st.isActive v.id

def pruneRows (repo keep : ℕ) : Statement :=
  match st.repositories.find? (·.id = repo) with
  | none => proceed (.pruned repo [] [])
  | some r =>
    let deleted := prunedRows st repo keep r.activePublicationId
    let deletedIds := deleted.map VersionRow.id
    ⟨[], .prune deletedIds, .pruned repo (survivingNumbers (st.versionsOf repo) deletedIds)
      (deleted.map fun v =>
        ⟨v.storagePrefix.getD (publicationPrefix ids repo v.versionNumber),
          if v.published then v.members else []⟩)⟩

def code (q : Request) (a : Action) : Option Statement :=
  match a, q with
  | .drop, _ => some (proceed .finished)
  | .putObject key, q => some ⟨[], .put key, q⟩
  | .createVersion repo members, .idle => some (createVersion st repo members)
  | .publish repo versionNumber, .idle => some (proceed (.publishing repo versionNumber))
  | .readVersion, .publishing repo versionNumber => some (readVersion st repo versionNumber)
  | .put, .writing repo versionNumber id (name :: files) =>
    some ⟨[], .put (keyBelow (publicationPrefix ids repo versionNumber) name),
      .writing repo versionNumber id files⟩
  | .markPublished, .writing repo versionNumber id [] =>
    some (markPublished ids st repo versionNumber id)
  | .discard, .discarding repo versionNumber (name :: files) =>
    some ⟨[], .delete (keyBelow (publicationPrefix ids repo versionNumber) name),
      .discarding repo versionNumber files⟩
  | .prune repo keep, .idle =>
    if keep = 0 then some (proceed .finished) else some (pruneRows ids st repo keep)
  | .listKeys listed, .pruned repo surviving _ =>
    -- A listing takes pages while others write, so any keys may be in it.
    if listed.all fun key => (publicationsRoot ids repo).isPrefixOf key then
      some (proceed (.sweeping repo surviving listed))
    else none
  | .cannotList, .pruned _ _ pruned =>
    some (proceed (.erasing
      (pruned.flatMap fun v => knownVersionKeys v.directory v.memberFilenames)))
  | .sweep, .sweeping repo surviving (key :: listed) =>
    if isStrayKey (publicationsRoot ids repo) key surviving surviving.max? then
      some ⟨[], .delete key, .sweeping repo surviving listed⟩
    else some (proceed (.sweeping repo surviving listed))
  | .erase, .erasing (key :: keys) => some ⟨[], .delete key, .erasing keys⟩
  | .deletionFails, .discarding repo versionNumber (_ :: files) =>
    some (proceed (.discarding repo versionNumber files))
  | .deletionFails, .sweeping repo surviving (_ :: listed) =>
    some (proceed (.sweeping repo surviving listed))
  | .deletionFails, .erasing (_ :: keys) => some (proceed (.erasing keys))
  | _, _ => none

def Request.holds : Request → List (ℕ × ℤ)
  | .publishing repo versionNumber => [(repo, versionNumber)]
  | .writing repo versionNumber _ _ => [(repo, versionNumber)]
  | .discarding repo versionNumber _ => [(repo, versionNumber)]
  | _ => []

def service : Protocol Store Request (ℕ × ℤ) Action Effect where
  holds := Request.holds
  apply := Effect.apply
  code := code ids

structure Initial (w : World Store Request (ℕ × ℤ)) : Prop where
  idle : w.pool = .idle .idle
  versions : w.store.versions = []
  issued : w.store.issued = []
  inactive : ∀ r ∈ w.store.repositories, r.activePublicationId = none

open List

/-! ### Keys -/

section Keys

variable {ids}

def IsObject (ids : IdText) (repo : ℕ) (versionNumber : ℤ) (key : Text) : Prop :=
  ∃ name, key = keyBelow (publicationPrefix ids repo versionNumber) name

theorem isObject_keyBelow (repo : ℕ) (versionNumber : ℤ) (name : Text) :
    IsObject ids repo versionNumber (keyBelow (publicationPrefix ids repo versionNumber) name) :=
  ⟨name, rfl⟩

theorem isObject_of_mem_knownVersionKeys {repo : ℕ} {versionNumber : ℤ} {members : List Text}
    {key : Text}
    (mem : key ∈ knownVersionKeys (publicationPrefix ids repo versionNumber) members) :
    IsObject ids repo versionNumber key := by
  simp only [knownVersionKeys, mem_append, mem_map] at mem
  rcases mem with ⟨_, -, rfl⟩ | ⟨f, -, rfl⟩
  all_goals exact isObject_keyBelow _ _ _

theorem append_idText_inj {repo repo' : ℕ} {front back s t : Text}
    (same : front ++ ids.text repo ++ '/' :: back ++ s =
      front ++ ids.text repo' ++ '/' :: back ++ t) : repo = repo' ∧ s = t := by
  simp only [append_assoc, append_cancel_left_eq] at same
  obtain ⟨text, rest⟩ := append_cons_inj (ids.slashFree repo) (ids.slashFree repo') same
  exact ⟨ids.injective text, append_cancel_left rest⟩

theorem publicationsRoot_append_inj {repo repo' : ℕ} {s t : Text}
    (same : publicationsRoot ids repo ++ s = publicationsRoot ids repo' ++ t) :
    repo = repo' ∧ s = t := by
  have slash : "/publications/" = '/' :: "publications/" := by decide
  unfold publicationsRoot at same
  exact append_idText_inj same

variable {repo repo' : ℕ} {n n' : ℤ} {key : Text}

theorem IsObject.unique (h : IsObject ids repo n key) (h' : IsObject ids repo' n' key) :
    repo = repo' ∧ n = n' := by
  obtain ⟨_, rfl⟩ := h
  obtain ⟨_, same⟩ := h'
  simp only [keyBelow, publicationPrefix, append_assoc] at same
  obtain ⟨root, rest⟩ := publicationsRoot_append_inj same
  obtain ⟨number, -⟩ := append_cons_inj (notMem_intText rfl (by decide) n)
    (notMem_intText rfl (by decide) n') rest
  exact ⟨root, intText_injective number⟩

theorem IsObject.of_listed (h : IsObject ids repo n key)
    (listed : listedVersionNumber (publicationsRoot ids repo') key = some n') :
    repo = repo' ∧ n = n' := by
  obtain ⟨_, rfl⟩ := h
  simp only [listedVersionNumber, Option.bind_eq_some_iff, stripPrefix_eq_some] at listed
  obtain ⟨_, key, ⟨_, _⟩, split, parsed⟩ := listed
  obtain ⟨rfl, slashFree⟩ := splitOnce_eq_some.1 split
  simp only [keyBelow, publicationPrefix, append_assoc] at key
  obtain ⟨root, digits⟩ := publicationsRoot_append_inj key
  obtain ⟨rfl, -⟩ := append_cons_inj (notMem_intText rfl (by decide) n) slashFree digits
  refine ⟨root, ?_⟩
  unfold intText at parsed
  by_cases negative : n < 0
  · simp [negative] at parsed
  · simp only [if_neg negative, parseUnsigned_decimal] at parsed
    split_ifs at parsed
    · cases parsed
      omega
    · cases parsed

theorem isStrayKey_iff {root : Text} {surviving : List ℤ} {newest : Option ℤ} :
    isStrayKey root key surviving newest = true ↔
      ∃ n max, listedVersionNumber root key = some n ∧ newest = some max ∧ n ≤ max ∧
        n ∉ surviving := by
  unfold isStrayKey
  split
  · next listed => simp [listed]
  · next other =>
    simp only [Bool.false_eq_true, false_iff]
    rintro ⟨n, max, listed, found, -⟩
    exact other n max listed found

end Keys

/-! ### What is selected -/

section Selection

variable {versions} {active : Option ℕ} {keep : ℕ} {v : VersionRow}

theorem mem_newestFirst : v ∈ newestFirst versions ↔ v ∈ versions :=
  mem_insertionSort _

theorem newestFirst_sorted (versions : List VersionRow) :
    (newestFirst versions).Pairwise fun a b => b.versionNumber ≤ a.versionNumber :=
  pairwise_insertionSort _ _

/-- The published versions above `v`. -/
def publishedAbove (versions : List VersionRow) (v : VersionRow) : List VersionRow :=
  versions.filter fun w => w.published ∧ v.versionNumber < w.versionNumber

theorem mem_take_iff {l : List VersionRow}
    (sorted : l.Pairwise fun a b => b.versionNumber ≤ a.versionNumber)
    (distinct : ∀ w ∈ l, w.versionNumber = v.versionNumber → w = v) (mem : v ∈ l) :
    v ∈ l.take keep ↔ (l.filter (v.versionNumber < ·.versionNumber)).length < keep := by
  induction l generalizing keep with
  | nil => cases mem
  | cons x rest ih =>
    obtain ⟨above, sorted⟩ := pairwise_cons.1 sorted
    by_cases first : v = x
    · subst first
      have none : rest.filter (v.versionNumber < ·.versionNumber) = [] := by
        simpa [filter_eq_nil_iff] using above
      cases keep <;> simp [none]
    · have later : v ∈ rest := (mem_cons.1 mem).resolve_left first
      have less : v.versionNumber < x.versionNumber :=
        lt_of_le_of_ne (above v later) fun same => first (distinct x mem_cons_self same.symm).symm
      cases keep with
      | zero => simp
      | succ _ =>
        rw [take_succ_cons, mem_cons, or_iff_right first, filter_cons_of_pos (by simpa using less),
          length_cons, Nat.succ_lt_succ_iff]
        exact ih sorted (fun w mem => distinct w (mem_cons_of_mem _ mem)) later

theorem length_publishedAbove (versions : List VersionRow) (v : VersionRow) :
    ((newestFirst (versions.filter (·.published))).filter
      (v.versionNumber < ·.versionNumber)).length = (publishedAbove versions v).length := by
  have perm := (perm_insertionSort (fun a b : VersionRow => b.versionNumber ≤ a.versionNumber)
    (versions.filter (·.published))).filter (v.versionNumber < ·.versionNumber)
  rw [newestFirst, perm.length_eq, filter_filter, publishedAbove]
  simp [Bool.and_comm]

theorem newestPublished_iff :
    ((newestFirst (versions.filter (·.published))).head?.map VersionRow.versionNumber).any
      (v.versionNumber < ·) = true ↔ publishedAbove versions v ≠ [] := by
  rw [← length_pos_iff, ← length_publishedAbove, length_pos_iff]
  have sorted := newestFirst_sorted (versions.filter (·.published))
  cases found : newestFirst (versions.filter (·.published)) with
  | nil => simp
  | cons x _ =>
    rw [found, pairwise_cons] at sorted
    simp only [head?_cons, Option.map_some, Option.any_some, decide_eq_true_eq, ne_eq,
      filter_eq_nil_iff, forall_mem_cons, not_and, not_forall, not_not]
    constructor
    · intro less not
      exact absurd less not
    · intro some
      by_contra notLess
      obtain ⟨w, mem, less⟩ := some notLess
      exact notLess (lt_of_lt_of_le less (sorted.1 w mem))

/-- Neither an id nor a number is given twice. -/
structure Distinct (versions : List VersionRow) : Prop where
  ids : ∀ a ∈ versions, ∀ b ∈ versions, a.id = b.id → a = b
  numbers : ∀ a ∈ versions, ∀ b ∈ versions, a.versionNumber = b.versionNumber → a = b

theorem mem_selectPrunable (positive : keep ≠ 0) (distinct : Distinct versions) (mem : v ∈ versions) :
    v.id ∈ selectPrunable versions active keep ↔ some v.id ≠ active ∧
      if v.published then keep ≤ (publishedAbove versions v).length
      else publishedAbove versions v ≠ [] := by
  let published := newestFirst (versions.filter (·.published))
  have of_mem {w : VersionRow} (inside : w ∈ published) : w ∈ versions ∧ w.published = true :=
    mem_filter.1 (mem_newestFirst.1 inside)
  have kept : v.id ∈ (published.take keep).map VersionRow.id ↔
      v.published = true ∧ (publishedAbove versions v).length < keep := by
    constructor
    · intro inside
      obtain ⟨w, taken, same⟩ := mem_map.1 inside
      obtain ⟨memW, isPublished⟩ := of_mem (mem_of_mem_take taken)
      obtain rfl := distinct.ids w memW v mem same
      rw [mem_take_iff (newestFirst_sorted _) (fun w inside => distinct.numbers w (of_mem inside).1 _ mem)
        (mem_of_mem_take taken), length_publishedAbove] at taken
      exact ⟨isPublished, taken⟩
    · rintro ⟨isPublished, few⟩
      refine mem_map_of_mem ?_
      rw [mem_take_iff (newestFirst_sorted _) (fun w inside => distinct.numbers w (of_mem inside).1 _ mem)
        (mem_newestFirst.2 (mem_filter.2 ⟨mem, isPublished⟩)), length_publishedAbove]
      exact few
  have selected : v.id ∈ selectPrunable versions active keep ↔ (some v.id ≠ active ∧
      ¬(v.published = true ∧ (publishedAbove versions v).length < keep)) ∧
        (v.published = true ∨ publishedAbove versions v ≠ []) := by
    rw [← kept, ← newestPublished_iff]
    simp only [selectPrunable, if_neg positive, mem_map, mem_filter, Bool.and_eq_true, Bool.or_eq_true,
      decide_eq_true_eq]
    constructor
    · rintro ⟨w, ⟨⟨memW, spared⟩, pruned⟩, same⟩
      obtain rfl := distinct.ids w memW v mem same
      exact ⟨spared, pruned⟩
    · rintro ⟨spared, pruned⟩
      exact ⟨v, ⟨⟨mem, spared⟩, pruned⟩, rfl⟩
  rw [selected]
  cases v.published <;> simp

theorem newest_notMem_selectPrunable (positive : keep ≠ 0) (distinct : Distinct versions)
    (mem : v ∈ versions) (newest : ∀ w ∈ versions, w.versionNumber ≤ v.versionNumber) :
    v.id ∉ selectPrunable versions active keep := by
  have none : publishedAbove versions v = [] := by
    rw [publishedAbove, filter_eq_nil_iff]
    intro w mem above
    exact absurd (of_decide_eq_true above).2 (not_lt.2 (newest w mem))
  rw [mem_selectPrunable positive distinct mem, none]
  simp [positive]

theorem publishedAbove_ne_nil : publishedAbove versions v ≠ [] ↔
    ∃ w ∈ versions, w.published = true ∧ v.versionNumber < w.versionNumber := by
  simp [publishedAbove]

theorem retention_selection (versions : List VersionRow) (active : Option ℕ) (keep : ℕ)
    (ids : (versions.map VersionRow.id).Nodup)
    (numbers : (versions.map VersionRow.versionNumber).Nodup) (positive : 1 ≤ keep) :
    (∀ id, id ∈ selectPrunable versions active keep ↔ ∃ v ∈ versions, v.id = id ∧ some id ≠ active ∧
      (v.published = true ∧ keep ≤ (publishedAbove versions v).length ∨
        v.published = false ∧ ∃ w ∈ versions, w.published = true ∧
          v.versionNumber < w.versionNumber)) ∧
    (∀ v ∈ versions, (∀ w ∈ versions, w.versionNumber ≤ v.versionNumber) →
      v.id ∉ selectPrunable versions active keep) ∧
    selectPrunable (versions.filter (·.id ∉ selectPrunable versions active keep)) active keep = [] := by
  have nonzero : keep ≠ 0 := Nat.ne_of_gt positive
  have distinct : Distinct versions := ⟨fun a memA b => inj_on_of_nodup_map ids (x := a) memA (y := b),
    fun a memA b => inj_on_of_nodup_map numbers (x := a) memA (y := b)⟩
  have among {versions : List VersionRow} {id : ℕ} (selected : id ∈ selectPrunable versions active keep) :
      ∃ v ∈ versions, v.id = id := by
    simp only [selectPrunable, if_neg nonzero, mem_map, mem_filter] at selected
    obtain ⟨v, ⟨⟨mem, -⟩, -⟩, same⟩ := selected
    exact ⟨v, mem, same⟩
  refine ⟨fun id => ?_, fun v mem => newest_notMem_selectPrunable nonzero distinct mem, ?_⟩
  · constructor
    · intro selected
      obtain ⟨v, mem, rfl⟩ := among selected
      obtain ⟨inactive, pruned⟩ := (mem_selectPrunable nonzero distinct mem).1 selected
      refine ⟨v, mem, rfl, inactive, ?_⟩
      rw [← publishedAbove_ne_nil]
      cases published : v.published <;> simpa [published] using pruned
    · rintro ⟨v, mem, rfl, inactive, pruned⟩
      rw [← publishedAbove_ne_nil] at pruned
      rw [mem_selectPrunable nonzero distinct mem]
      cases published : v.published <;> simpa [published, inactive] using pruned
  · -- what is above a version that is left was above it before
    refine eq_nil_iff_forall_not_mem.2 fun id again => ?_
    obtain ⟨v, left, rfl⟩ := among again
    obtain ⟨mem, spared⟩ := mem_filter.1 left
    have fewer : (publishedAbove (versions.filter
        (·.id ∉ selectPrunable versions active keep)) v).Sublist (publishedAbove versions v) :=
      filter_sublist.filter _
    have rest : Distinct (versions.filter (·.id ∉ selectPrunable versions active keep)) :=
      ⟨fun a memA b memB => distinct.ids a (mem_of_mem_filter memA) b (mem_of_mem_filter memB),
        fun a memA b memB => distinct.numbers a (mem_of_mem_filter memA) b (mem_of_mem_filter memB)⟩
    rw [mem_selectPrunable nonzero rest left] at again
    refine of_decide_eq_true spared ((mem_selectPrunable nonzero distinct mem).2 ⟨again.1, ?_⟩)
    split_ifs at again ⊢
    · exact again.2.trans fewer.length_le
    · exact fun none => again.2 (sublist_nil.1 (none ▸ fewer))

/-- Three published versions and a draft below the newest, of which two are kept. -/
theorem retention_selection_drafts :
    let row (n : ℕ) (published : Bool) : VersionRow := ⟨n, 0, n, published, none, []⟩
    let versions := [row 4 true, row 1 true, row 3 false, row 2 true]
    selectPrunable versions none 2 = [1, 3] ∧
      selectPrunable (versions.filter (·.id ∉ selectPrunable versions none 2)) none 2 = [] :=
  ⟨by decide, (retention_selection _ none 2 (by decide) (by decide) (by decide)).2.2⟩

end Selection

end ArtifactKeeper.RpmRetention
