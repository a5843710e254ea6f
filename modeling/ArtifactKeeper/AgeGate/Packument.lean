import ArtifactKeeper.AgeGate.SemVer
import Mathlib.Data.List.Sort

/-!
# Filtered packuments

Blocked versions are removed from the members `versions` and `time` of a packument, then the
`dist-tags` are reconciled: tags whose target is gone are dropped, and `latest` is pointed to
another version if its target is gone.
-/

namespace ArtifactKeeper.AgeGate

open Comparisons List Option
open Prod hiding map

/-! ### JSON -/

/-- A JSON value; the members of an object are in the order of their keys. -/
inductive Value
  | null
  | bool (b : Bool)
  | number (n : Text)
  | string (s : Text)
  | array (items : List Value)
  | object (members : List (Text × Value))

abbrev Members := List (Text × Value)

namespace Value

def asObject : Value → Option Members
  | .object members => some members
  | _ => none

def asStr : Value → Option Text
  | .string s => some s
  | _ => none

def get (value : Value) (key : Text) : Option Value := value.asObject.bind (lookup key)

def modifyMembers (f : Members → Members) : Value → Value
  | .object members => .object (f members)
  | value => value

end Value

variable (key : Text)

def modifyKey (f : Value → Value) : Members → Members
  | [] => []
  | (k, v) :: rest => if k = key then (k, f v) :: rest else (k, v) :: modifyKey f rest

/-- Change the members of the object at a key, if there is one: `get_mut(key)` with
`as_object_mut`. -/
def Value.modifyObject (f : Members → Members) : Value → Value :=
  Value.modifyMembers (modifyKey key (Value.modifyMembers f))

def removeKey (members : Members) : Members := members.filter (·.1 ≠ key)

def insertKey (value : Value) : Members → Members
  | [] => [(key, value)]
  | (k, v) :: rest =>
    if k = key then (key, value) :: rest
    else if Text.le key k then (key, value) :: (k, v) :: rest
    else (k, v) :: insertKey value rest

/-! ### The code -/

def versionsKey : Text := "versions"

def timeKey : Text := "time"

def distTagsKey : Text := "dist-tags"

def latestKey : Text := "latest"

def isRelease (version : Text) : Bool := (splitVersionPrerelease version).2.isNone

/-- The version `latest` is pointed to, from the allowed ones with the newest first. -/
def replacement (previousLatest : Option Text) (allowed : List Text) : Option Text :=
  ((allowed.filter isRelease).find? fun v =>
      previousLatest.all fun latest => versionCompare v latest ≤ 0).or
    ((allowed.find? isRelease).or allowed.head?)

def previousLatest (distTags : Members) : Option Text :=
  (distTags.lookup latestKey).bind Value.asStr

def retainTags (allowed : List Text) (distTags : Members) : Members :=
  distTags.filter fun tag => tag.2.asStr.any (allowed.contains ·)

def reconcileTags (allowed : List Text) (distTags : Members) : Members :=
  let retained := retainTags allowed distTags
  if (retained.lookup latestKey).isSome then retained
  else
    match replacement (previousLatest distTags) allowed with
    | some latest => insertKey latestKey (.string latest) retained
    | none => retained

variable (packument : Value)

def reconcileDistTags (allowed : List Text) : Value :=
  packument.modifyObject distTagsKey (reconcileTags allowed)

variable (blocked : Text → Bool)

def blockVersion (s : Value × List Text) (version : Text) : Value × List Text :=
  if blocked version then
    ((s.1.modifyObject versionsKey (removeKey version)).modifyObject timeKey (removeKey version), s.2)
  else (s.1, s.2 ++ [version])

def versionKeys : List Text :=
  (((packument.get versionsKey).bind Value.asObject).map (map fst)).getD []

/-- `a` may stand before `b` in the sorted list. -/
def NotBelow (a b : Text) : Prop := versionCompareDesc a b ≠ .gt

instance : DecidableRel NotBelow := fun a b => inferInstanceAs (Decidable (versionCompareDesc a b ≠ .gt))

/-- `sort_by` with `version_compare_desc`, which is stable. -/
def newestFirst (versions : List Text) : List Text := versions.insertionSort NotBelow

/-- The packument without the blocked versions, and the versions that remain. -/
def applyNpmPackumentBlocks : Value × List Text :=
  let (packument, allowed) := (versionKeys packument).foldl (blockVersion blocked) (packument, [])
  let allowed := newestFirst allowed
  (reconcileDistTags packument allowed, allowed)

/-! ### Members -/

variable {key other : Text} {f : Value → Value} {members : Members}

theorem lookup_modifyKey (key other : Text) (f : Value → Value) (members : Members) :
    (modifyKey key f members).lookup other =
      if other = key then (members.lookup key).map f else members.lookup other := by
  induction members with
  | nil => simp [modifyKey]
  | cons member _ ih =>
    obtain ⟨k, v⟩ := member
    unfold modifyKey
    split_ifs with here there there
    · simp [here, there]
    · have skip : (other == k) = false := by simpa [here] using there
      simp [lookup_cons, skip]
    · subst there
      have skip : (other == k) = false := by simpa using Ne.symm here
      simp [lookup_cons, skip, ih]
    · simp [lookup_cons, ih, there]

theorem modifyKey_eq_self {v : Value} (found : members.lookup key = some v) (fixed : f v = v) :
    modifyKey key f members = members := by
  induction members with
  | nil => rfl
  | cons member _ ih =>
    obtain ⟨k, w⟩ := member
    unfold modifyKey
    split_ifs with here
    · simp only [here, lookup_cons, beq_self_eq_true, some.injEq] at found
      rw [found, fixed]
    · have apart : (key == k) = false := by simpa using Ne.symm here
      simp only [lookup_cons, apart] at found
      rw [ih found]

theorem Value.get_modifyObject (value : Value) (key : Text) (f : Members → Members) :
    (value.modifyObject key f).get key = (value.get key).map (Value.modifyMembers f) := by
  cases value <;> simp [Value.modifyObject, Value.modifyMembers, Value.get, Value.asObject,
    lookup_modifyKey]

theorem Value.get_modifyObject_ne (apart : other ≠ key) (value : Value) (f : Members → Members) :
    (value.modifyObject key f).get other = value.get other := by
  cases value <;> simp [Value.modifyObject, Value.modifyMembers, Value.get, Value.asObject,
    lookup_modifyKey, if_neg apart]

theorem Value.modifyObject_eq_self {value : Value} {f : Members → Members}
    (found : value.get key = some (.object members)) (fixed : f members = members) :
    value.modifyObject key f = value := by
  cases value with
  | object =>
    have inner : Value.modifyMembers f (.object members) = .object members := by
      simp [Value.modifyMembers, fixed]
    exact congrArg Value.object (modifyKey_eq_self found inner)
  | _ => rfl

theorem lookup_eq_some_iff_mem {v : Value} (distinct : (members.map fst).Nodup) :
    members.lookup key = some v ↔ (key, v) ∈ members := by
  induction members with
  | nil => simp
  | cons member rest ih =>
    obtain ⟨k, w⟩ := member
    obtain ⟨fresh, distinct⟩ := nodup_cons.1 distinct
    by_cases here : key = k
    · subst here
      have absent : (key, v) ∉ rest := fun mem => fresh (mem_map.2 ⟨(key, v), mem, rfl⟩)
      simp [absent, eq_comm]
    · have apart : (key == k) = false := by simpa using here
      simp [lookup_cons, apart, here, ih distinct]

theorem insertKey_perm (value : Value) (fresh : key ∉ members.map fst) :
    (insertKey key value members).Perm ((key, value) :: members) := by
  induction members with
  | nil => exact .refl _
  | cons member _ ih =>
    simp only [map_cons, mem_cons, not_or] at fresh
    unfold insertKey
    rw [if_neg (Ne.symm fresh.1)]
    split_ifs with first
    · exact .refl _
    · exact ((ih fresh.2).cons _).trans (.swap _ _ _)

/-! ### The loop -/

variable {packument} {versions tags : Members} {blocked}

section

variable (s : Value × List Text)

theorem get_blockVersion (version : Text) (found : s.1.get versionsKey = some (.object versions)) :
    (blockVersion blocked s version).1.get versionsKey =
      some (.object (versions.filter fun m => ¬(m.1 = version ∧ blocked version))) := by
  unfold blockVersion
  split_ifs with hit
  · rw [Value.get_modifyObject_ne (by decide), Value.get_modifyObject, found]
    simp [Value.modifyMembers, removeKey, hit]
  · simp [found, hit]

theorem get_distTags_blockVersion (version : Text) :
    (blockVersion blocked s version).1.get distTagsKey = s.1.get distTagsKey := by
  unfold blockVersion
  split_ifs with hit
  · rw [Value.get_modifyObject_ne (by decide), Value.get_modifyObject_ne (by decide)]
  · rfl

theorem get_blockVersions (keys : List Text)
    (found : s.1.get versionsKey = some (.object versions)) :
    (keys.foldl (blockVersion blocked) s).1.get versionsKey =
      some (.object (versions.filter fun m => ¬(m.1 ∈ keys ∧ blocked m.1))) := by
  induction keys generalizing s versions with
  | nil => simpa using found
  | cons version _ ih =>
    rw [foldl_cons, ih _ (get_blockVersion s version found), List.filter_filter]
    congr 2
    apply filter_congr
    rintro ⟨key, _⟩ -
    by_cases here : key = version
    · by_cases hit : blocked version <;> simp [here, hit]
    · simp [here]

theorem get_distTags_blockVersions (keys : List Text) :
    (keys.foldl (blockVersion blocked) s).1.get distTagsKey = s.1.get distTagsKey := by
  induction keys generalizing s with
  | nil => rfl
  | cons _ _ ih => rw [foldl_cons, ih, get_distTags_blockVersion]

theorem allowed_blockVersions (keys : List Text) :
    (keys.foldl (blockVersion blocked) s).2 = s.2 ++ keys.filter (!blocked ·) := by
  induction keys generalizing s with
  | nil => simp
  | cons version _ ih =>
    rw [foldl_cons, ih]
    cases hit : blocked version <;> simp [blockVersion, hit]

theorem blockVersions_of_unblocked {keys : List Text} (none : ∀ version ∈ keys, blocked version = false) :
    (keys.foldl (blockVersion blocked) s).1 = s.1 := by
  induction keys generalizing s with
  | nil => rfl
  | cons version _ ih =>
    rw [foldl_cons, ih _ fun v mem => none v (mem_cons_of_mem _ mem)]
    simp [blockVersion, none version mem_cons_self]

end

def remaining (versions : Members) (blocked : Text → Bool) : List Text :=
  newestFirst ((versions.map fst).filter (!blocked ·))

variable {v : Text}

theorem mem_newestFirst {versions : List Text} : v ∈ newestFirst versions ↔ v ∈ versions :=
  mem_insertionSort _

section

variable (found : packument.get versionsKey = some (.object versions))
include found

theorem versionKeys_eq : versionKeys packument = versions.map fst := by
  simp [versionKeys, found, Value.asObject]

theorem apply_allowed (blocked : Text → Bool) :
    (applyNpmPackumentBlocks packument blocked).2 = remaining versions blocked := by
  simp [applyNpmPackumentBlocks, allowed_blockVersions, versionKeys_eq found, remaining]

theorem apply_versions (blocked : Text → Bool) :
    (applyNpmPackumentBlocks packument blocked).1.get versionsKey =
      some (.object (versions.filter (!blocked ·.1))) := by
  simp only [applyNpmPackumentBlocks, reconcileDistTags]
  rw [Value.get_modifyObject_ne (by decide), get_blockVersions _ _ found, versionKeys_eq found]
  congr 2
  apply filter_congr
  intro m mem
  simp [mem_map_of_mem (f := fst) mem]

theorem apply_distTags (blocked : Text → Bool)
    (tagged : packument.get distTagsKey = some (.object tags)) :
    (applyNpmPackumentBlocks packument blocked).1.get distTagsKey =
      some (.object (reconcileTags (remaining versions blocked) tags)) := by
  simp only [applyNpmPackumentBlocks, reconcileDistTags]
  rw [Value.get_modifyObject, get_distTags_blockVersions, tagged, allowed_blockVersions,
    versionKeys_eq found]
  rfl

end

/-! ### The new target of `latest` -/

structure Greatest (remaining : List Text) (p : Text → Prop) (v : Text) : Prop where
  mem : v ∈ remaining
  holds : p v
  above : ∀ u ∈ remaining, p u → versionCompare u v ≤ 0

/-- What `latest` may be pointed to when it was at `previous` before. -/
inductive NewLatest (previous : Option Text) (remaining : List Text) (v : Text) : Prop
  | notAbove (latest : Text) (before : previous = some latest)
    (best : Greatest remaining (fun u => isRelease u ∧ versionCompare u latest ≤ 0) v)
  | release (above : ∀ latest, previous = some latest →
      ∀ u ∈ remaining, isRelease u → ¬versionCompare u latest ≤ 0)
    (best : Greatest remaining (fun u => isRelease u) v)
  | prerelease (no_release : ∀ u ∈ remaining, ¬isRelease u)
    (best : Greatest remaining (fun _ => True) v)

theorem notBelow_iff {a b : Text} : NotBelow a b ↔ (versionOrder b a).isLE = true := by
  rw [NotBelow, versionCompareDesc_eq]
  cases versionOrder b a <;> decide

instance total_notBelow : Std.Total NotBelow where
  total a b := by
    have swap : versionOrder a b = (versionOrder b a).swap := Std.OrientedCmp.eq_swap
    rw [notBelow_iff, notBelow_iff, swap]
    cases versionOrder b a <;> decide

instance isTrans_notBelow : IsTrans Text NotBelow where
  trans a b c ab bc := by
    rw [notBelow_iff] at ab bc ⊢
    exact Std.TransCmp.isLE_trans bc ab

theorem pairwise_newestFirst (versions : List Text) : (newestFirst versions).Pairwise NotBelow :=
  pairwise_insertionSort NotBelow versions

theorem greatest_of_find? {versions : List Text} {p : Text → Bool}
    (found : (newestFirst versions).find? p = some v) :
    Greatest (newestFirst versions) (fun u => p u) v where
  mem := mem_of_find?_eq_some found
  holds := find?_some found
  above u mem holds := by
    rw [versionCompare_eq, sign_nonpos]
    rcases find?_sorted (pairwise_newestFirst versions) found mem holds with rfl | before
    · exact Std.ReflCmp.isLE_rfl
    · exact notBelow_iff.1 before

variable {previous : Option Text} {tag : Text × Value}

theorem replacement_newLatest {versions : List Text}
    (found : replacement previous (newestFirst versions) = some v) :
    NewLatest previous (newestFirst versions) v := by
  unfold replacement at found
  rw [find?_filter] at found
  rcases or_eq_some_iff.1 found with first | ⟨no_first, found⟩
  · have best := greatest_of_find? first
    cases previous with
    | none => exact .release (by simp) (by simpa using best)
    | some latest => exact .notAbove latest rfl (by simpa using best)
  · rcases or_eq_some_iff.1 found with second | ⟨no_second, third⟩
    · refine .release ?_ (greatest_of_find? second)
      rintro _ rfl u mem release below
      have := find?_eq_none.1 no_first u mem
      simp [release, below] at this
    · refine .prerelease (fun u mem => find?_eq_none.1 no_second u mem) ?_
      have head : (newestFirst versions).find? (fun _ => true) = some v := by
        rw [← third]
        cases newestFirst versions <;> rfl
      simpa using greatest_of_find? head

theorem replacement_eq_none {allowed : List Text}
    (missing : replacement previous allowed = none) : allowed = [] := by
  unfold replacement at missing
  rw [or_eq_none_iff, or_eq_none_iff] at missing
  exact head?_eq_none_iff.1 missing.2.2

/-! ### The tags -/

variable {allowed : List Text}

theorem mem_retainTags :
    tag ∈ retainTags allowed tags ↔ tag ∈ tags ∧ ∃ v ∈ allowed, tag.2 = .string v := by
  obtain ⟨_, value⟩ := tag
  rw [retainTags, mem_filter]
  cases value <;> simp [Value.asStr]

theorem nodup_retainTags (distinct : (tags.map fst).Nodup) :
    ((retainTags allowed tags).map fst).Nodup :=
  distinct.sublist (filter_sublist.map _)

/-- The tags after the reconciliation: those that are retained, and perhaps `latest`. -/
theorem reconcileTags_cases (allowed : List Text) (distinct : (tags.map fst).Nodup) :
    (reconcileTags allowed tags = retainTags allowed tags ∧
      (allowed = [] ∨ ∃ v, (latestKey, v) ∈ retainTags allowed tags)) ∨
    (∃ v, replacement (previousLatest tags) allowed = some v ∧
      latestKey ∉ (retainTags allowed tags).map fst ∧
      reconcileTags allowed tags = insertKey latestKey (.string v) (retainTags allowed tags)) := by
  unfold reconcileTags
  cases latest : (retainTags allowed tags).lookup latestKey with
  | some v =>
    have mem := (lookup_eq_some_iff_mem (nodup_retainTags distinct)).1 latest
    exact .inl ⟨by simp only [latest, isSome_some, if_true], .inr ⟨v, mem⟩⟩
  | none =>
    cases target : replacement (previousLatest tags) allowed with
    | none =>
      refine .inl ⟨?_, .inl (replacement_eq_none target)⟩
      simp [latest]
    | some v =>
      refine .inr ⟨v, rfl, ?_, by simp [latest]⟩
      intro mem
      obtain ⟨⟨_, _⟩, mem, rfl⟩ := mem_map.1 mem
      rw [(lookup_eq_some_iff_mem (nodup_retainTags distinct)).2 mem] at latest
      cases latest

theorem mem_reconcileTags (distinct : (tags.map fst).Nodup) :
    tag ∈ reconcileTags allowed tags ↔ tag ∈ retainTags allowed tags ∨
      latestKey ∉ (retainTags allowed tags).map fst ∧
        ∃ v, replacement (previousLatest tags) allowed = some v ∧ tag = (latestKey, .string v) := by
  rcases reconcileTags_cases allowed distinct with ⟨same, here⟩ | ⟨v, target, fresh, insert⟩
  · rw [same]
    refine ⟨.inl, ?_⟩
    rintro (mem | ⟨fresh, v, target, rfl⟩)
    · exact mem
    · rcases here with rfl | ⟨w, mem⟩
      · simp [replacement] at target
      · exact absurd (mem_map.2 ⟨_, mem, rfl⟩) fresh
  · rw [insert, (insertKey_perm _ fresh).mem_iff, mem_cons]
    constructor
    · rintro (rfl | mem)
      · exact .inr ⟨fresh, v, target, rfl⟩
      · exact .inl mem
    · rintro (mem | ⟨-, w, target', rfl⟩)
      · exact .inr mem
      · rw [target] at target'
        cases target'
        exact .inl rfl

theorem nodup_reconcileTags (distinct : (tags.map fst).Nodup) :
    ((reconcileTags allowed tags).map fst).Nodup := by
  rcases reconcileTags_cases allowed distinct with ⟨same, -⟩ | ⟨v, -, fresh, insert⟩
  · rw [same]
    exact nodup_retainTags distinct
  · rw [insert, ((insertKey_perm (.string v) fresh).map fst).nodup_iff]
    exact nodup_cons.2 ⟨fresh, nodup_retainTags distinct⟩

theorem replacement_mem (found : replacement previous allowed = some v) : v ∈ allowed := by
  unfold replacement at found
  rw [find?_filter] at found
  rcases or_eq_some_iff.1 found with first | ⟨-, found⟩
  · exact mem_of_find?_eq_some first
  · rcases or_eq_some_iff.1 found with second | ⟨-, third⟩
    · exact mem_of_find?_eq_some second
    · exact mem_of_head? third

theorem reconcileTags_points (distinct : (tags.map fst).Nodup)
    (mem : tag ∈ reconcileTags allowed tags) : ∃ v ∈ allowed, tag.2 = .string v := by
  rcases (mem_reconcileTags distinct).1 mem with retained | ⟨-, v, target, rfl⟩
  · exact (mem_retainTags.1 retained).2
  · exact ⟨v, replacement_mem target, rfl⟩

/-- Reconciling once more changes nothing. -/
theorem reconcileTags_idem (distinct : (tags.map fst).Nodup) :
    reconcileTags allowed (reconcileTags allowed tags) = reconcileTags allowed tags := by
  have retained : retainTags allowed (reconcileTags allowed tags) = reconcileTags allowed tags := by
    refine filter_eq_self.2 fun tag mem => ?_
    obtain ⟨v, mem, points⟩ := reconcileTags_points distinct mem
    simp [points, Value.asStr, mem]
  rcases reconcileTags_cases allowed (nodup_reconcileTags distinct) with ⟨same, -⟩ | ⟨w, -, fresh, -⟩
  · rw [same, retained]
  · -- A replacement was already there after the first time.
    rw [retained] at fresh
    rcases reconcileTags_cases allowed distinct with ⟨same, rfl | ⟨v, mem⟩⟩ | ⟨v, target, absent, -⟩
    · rw [same] at retained ⊢
      simp [reconcileTags, retained, replacement]
    · refine absurd (List.mem_map.2 ⟨(latestKey, v), ?_, rfl⟩) fresh
      exact (mem_reconcileTags distinct).2 (.inl mem)
    · refine absurd (List.mem_map.2 ⟨(latestKey, .string v), ?_, rfl⟩) fresh
      exact (mem_reconcileTags distinct).2 (.inr ⟨absent, v, target, rfl⟩)

theorem apply_apply (blocked : Text → Bool) (found : packument.get versionsKey = some (.object versions))
    (tagged : packument.get distTagsKey = some (.object tags))
    (distinct : (tags.map fst).Nodup) :
    (applyNpmPackumentBlocks (applyNpmPackumentBlocks packument blocked).1 blocked).1 =
      (applyNpmPackumentBlocks packument blocked).1 := by
  have found' := apply_versions found blocked
  have tagged' := apply_distTags found blocked tagged
  set after := (applyNpmPackumentBlocks packument blocked).1
  have same : (applyNpmPackumentBlocks after blocked).2 = remaining versions blocked := by
    rw [apply_allowed found' blocked, remaining, remaining, List.filter_map, List.filter_map,
      List.filter_filter]
    simp [Function.comp_def]
  have unblocked : ∀ version ∈ versionKeys after, blocked version = false := by
    intro _ mem
    rw [versionKeys_eq found'] at mem
    obtain ⟨m, kept, rfl⟩ := mem_map.1 mem
    simpa using (mem_filter.1 kept).2
  have loop : (applyNpmPackumentBlocks after blocked).1 =
      reconcileDistTags after (applyNpmPackumentBlocks after blocked).2 := by
    simp only [applyNpmPackumentBlocks]
    rw [blockVersions_of_unblocked _ unblocked]
  rw [loop, same]
  exact Value.modifyObject_eq_self tagged' (reconcileTags_idem distinct)

/-! ### Filtering a packument -/

/-- A packument with versions and tags; as in any JSON map, no tag is there twice. -/
structure Packument (packument : Value) (versions tags : Members) : Prop where
  found : packument.get versionsKey = some (.object versions)
  tagged : packument.get distTagsKey = some (.object tags)
  distinct : (tags.map fst).Nodup

/-- Filtering a packument keeps exactly the versions that are not blocked, keeps the tags that point
to one of them, drops all others and adds at most `latest`, which then points to a greatest version
in the order of preference of `NewLatest`.  Filtering once more changes nothing. -/
theorem packument_filtered (blocked : Text → Bool) (packument : Value) (versions tags : Members)
    (shape : Packument packument versions tags) :
    let after := (applyNpmPackumentBlocks packument blocked).1
    let remaining := remaining versions blocked
    (∀ v, v ∈ remaining ↔ v ∈ versions.map fst ∧ blocked v = false) ∧
    after.get versionsKey = some (.object (versions.filter (!blocked ·.1))) ∧
    (∃ tags', after.get distTagsKey = some (.object tags') ∧
      (∀ tag target, tags'.lookup tag = some target → ∃ v ∈ remaining, target = .string v) ∧
      (∀ tag, ∀ v ∈ remaining,
        tags.lookup tag = some (.string v) → tags'.lookup tag = some (.string v)) ∧
      (∀ tag target, tag ≠ latestKey →
        tags'.lookup tag = some target → tags.lookup tag = some target) ∧
      ((∀ v ∈ remaining, tags.lookup latestKey ≠ some (.string v)) →
        (remaining = [] → tags'.lookup latestKey = none) ∧
        (remaining ≠ [] → ∃ v, tags'.lookup latestKey = some (.string v) ∧
          NewLatest (previousLatest tags) remaining v))) ∧
    (applyNpmPackumentBlocks after blocked).1 = after := by
  obtain ⟨found, tagged, distinct⟩ := shape
  intro _ remaining
  refine ⟨fun v => ?_, apply_versions found blocked,
    ⟨_, apply_distTags found blocked tagged, ?_, ?_, ?_, ?_⟩, apply_apply blocked found tagged distinct⟩
  · simp [remaining, AgeGate.remaining, mem_newestFirst]
  all_goals
    have lookup (key : Text) (target : Value) : (reconcileTags remaining tags).lookup key = some target ↔
        (key, target) ∈ reconcileTags remaining tags :=
      lookup_eq_some_iff_mem (nodup_reconcileTags distinct)
    have lookup' (key : Text) (target : Value) :
        tags.lookup key = some target ↔ (key, target) ∈ tags := lookup_eq_some_iff_mem distinct
  · intro tag target points
    exact reconcileTags_points distinct ((lookup tag target).1 points)
  · intro tag v mem points
    rw [lookup, mem_reconcileTags distinct, mem_retainTags]
    exact .inl ⟨(lookup' tag _).1 points, v, mem, rfl⟩
  · intro tag target other points
    rw [lookup, mem_reconcileTags distinct, mem_retainTags] at points
    rcases points with ⟨mem, -⟩ | ⟨-, v, -, same⟩
    · exact (lookup' tag target).2 mem
    · exact absurd (congrArg fst same) other
  · intro gone
    have absent : latestKey ∉ (retainTags remaining tags).map fst := by
      intro mem
      obtain ⟨⟨_, _⟩, mem, rfl⟩ := mem_map.1 mem
      obtain ⟨mem, v, left, rfl⟩ := mem_retainTags.1 mem
      exact gone v left ((lookup' _ _).2 mem)
    constructor
    · intro empty
      refine lookup_eq_none_iff.2 fun tag mem => ?_
      obtain ⟨v, left, -⟩ := reconcileTags_points distinct mem
      rw [show AgeGate.remaining versions blocked = [] from empty] at left
      cases left
    · intro some
      cases target : replacement (previousLatest tags) remaining with
      | none => exact absurd (replacement_eq_none target) some
      | some v =>
        refine ⟨v, ?_, replacement_newLatest target⟩
        rw [lookup, mem_reconcileTags distinct]
        exact .inr ⟨absent, v, target, rfl⟩

def recentVersions : Members :=
  [("1.0.0", .null), ("1.1.0", .null), ("1.1.0-rc.1", .null)]

def recentTags : Members := [(latestKey, .string "1.1.0")]

def recent : Value :=
  .object [(distTagsKey, .object recentTags), (versionsKey, .object recentVersions)]

theorem packument_filtered_recent : Packument recent recentVersions recentTags ∧
    let after := (applyNpmPackumentBlocks recent (· == "1.1.0")).1
    after.get versionsKey = some (.object [("1.0.0", .null), ("1.1.0-rc.1", .null)]) ∧
    (applyNpmPackumentBlocks after (· == "1.1.0")).1 = after := by
  have shape : Packument recent recentVersions recentTags := ⟨rfl, rfl, by decide⟩
  have filtered := packument_filtered (· == "1.1.0") recent recentVersions recentTags shape
  exact ⟨shape, filtered.2.1, filtered.2.2.2⟩

end ArtifactKeeper.AgeGate
