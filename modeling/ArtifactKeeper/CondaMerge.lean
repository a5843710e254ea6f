import Mathlib.Data.Finset.Basic
import ArtifactKeeper.Library.FirstWins
import ArtifactKeeper.Library.Text

/-!
# The merged index of a virtual conda channel

Hosted records come first, then those of the remote members in order, without the records that name
a package a hosted member owns.
-/

namespace ArtifactKeeper.CondaMerge

open FirstWins Text List Option Bool

/-! ### Records -/

/-- A parsed JSON value; the members of an object are in the order of the text.  A text with half of a
surrogate pair is none: the document may have it, but it does not decode. -/
inductive Json
  | null
  | bool (b : Bool)
  | number (n : Text)
  | string (s : Option Text)
  | array (items : List Json)
  | object (members : List (Option Text × Json))

/-- An optional text: nothing and null are none, and a value of another kind fails. -/
def readOptionalText : List Json → Option (Option Text)
  | [] => some none
  | [.null] => some none
  | [.string (some s)] => some (some s)
  | _ => none

variable (members : List (Option Text × Json))

def valuesOf (name : Text) : List Json := (members.filter (·.1 = some name)).map (·.2)

def keysDecode : Bool := members.all (·.1.isSome)

def nameKey : Text := "name"

def versionKey : Text := "version"

/-- The derived reader of `RecordName`: a repeated member fails, and so does a key that does not decode;
an array is read by position. -/
def readRecordName : Json → Option (Option Text)
  | .object members =>
    if keysDecode members then readOptionalText (valuesOf members nameKey) else none
  | .array items => if items.length ≤ 1 then readOptionalText items else none
  | _ => none

structure RecordIdentity where
  name : Option Text
  version : Option Text

def readRecordIdentity : Json → Option RecordIdentity
  | .object members => do
    guard (keysDecode members)
    let name ← readOptionalText (valuesOf members nameKey)
    let version ← readOptionalText (valuesOf members versionKey)
    return ⟨name, version⟩
  | .array items => do
    let name ← readOptionalText (items.take 1)
    let version ← readOptionalText (items.drop 1)
    return ⟨name, version⟩
  | _ => none

/-! ### Filenames -/

variable (filename : Text)

/-- The filename without the suffix of a package, split at its last two hyphens. -/
def filenameParts : Option (Text × Text × Text) :=
  ((stripSuffix filename ".conda").or (stripSuffix filename ".tar.bz2")).bind
    fun stem => (rsplitOnce '-' stem).bind fun (front, build) =>
      (rsplitOnce '-' front).map fun (name, version) => (name, version, build)

def condaNameFromFilename : Option Text :=
  ((filenameParts filename).map (·.1)).filter (!·.isEmpty)

def splitCondaFilename : Option (Text × Text) :=
  (filenameParts filename).bind fun (name, version, build) =>
    if build.isEmpty ∨ version.isEmpty ∨ name.isEmpty then none else some (name, version)

/-! ### The guard -/

/-- The names that hosted members own, in lower case. -/
structure OwnedNames where
  names : Finset Text
  lower : ∀ name ∈ names, toAsciiLowercase name = name

/-- What an allowlist admits: a name and a version in a subdirectory. -/
structure CompiledAllowlist where
  admits : Text → Text → Text → Bool

def remoteRecordIsOwned (owned : OwnedNames) (filename : Text) (raw : Json) : Bool :=
  if owned.names = ∅ then false
  else
    (condaNameFromFilename filename).any (toAsciiLowercase · ∈ owned.names) ||
      ((readRecordName raw).bind id).any (toAsciiLowercase · ∈ owned.names)

def remoteRecordIsAdmitted (subdir : Text) (allowlist : CompiledAllowlist) (filename : Text)
    (raw : Json) : Bool :=
  match splitCondaFilename filename with
  | none => false
  | some (fileName, fileVersion) =>
    if allowlist.admits fileName fileVersion subdir then
      match readRecordIdentity raw with
      | none => false
      | some id =>
        let name := id.name.getD fileName
        let version := id.version.getD fileVersion
        name = fileName && version = fileVersion || allowlist.admits name version subdir
    else false

/-! ### The merge -/

abbrev PackageMap := AList fun _ : Text => Json

structure PackageMaps where
  packages : PackageMap
  packagesConda : PackageMap

def PackageMaps.get (maps : PackageMaps) (isV2 : Bool) : PackageMap :=
  if isV2 then maps.packagesConda else maps.packages

structure HostedRecord where
  filename : Text
  isV2 : Bool
  record : Json

structure MergeDrops where
  owned : ℕ
  notAllowed : ℕ

section Merge

variable (subdir : Text) (owned : OwnedNames) (allowlist : Option CompiledAllowlist)

def insertHosted (maps : PackageMaps) (h : HostedRecord) : PackageMaps :=
  if h.isV2 then { maps with packagesConda := orInsert maps.packagesConda h.filename h.record }
  else { maps with packages := orInsert maps.packages h.filename h.record }

def mergeSource (target : PackageMap) (drops : MergeDrops) (source : PackageMap) :
    PackageMap × MergeDrops :=
  (pairs source).foldl (fun (target, drops) (filename, raw) =>
    if remoteRecordIsOwned owned filename raw then
      (target, { drops with owned := drops.owned + 1 })
    else if allowlist.any fun list => !remoteRecordIsAdmitted subdir list filename raw then
      (target, { drops with notAllowed := drops.notAllowed + 1 })
    else (orInsert target filename raw, drops)) (target, drops)

def mergeMember (maps : PackageMaps) (drops : MergeDrops) (member : PackageMaps) :
    PackageMaps × MergeDrops :=
  let (packages, drops) := mergeSource subdir owned allowlist maps.packages drops member.packages
  let (packagesConda, drops) :=
    mergeSource subdir owned allowlist maps.packagesConda drops member.packagesConda
  (⟨packages, packagesConda⟩, drops)

def mergePackageMaps (hosted : List HostedRecord) (parsed : List PackageMaps) (drops : MergeDrops) :
    PackageMaps × MergeDrops :=
  parsed.foldl (fun (maps, drops) member => mergeMember subdir owned allowlist maps drops member)
    (hosted.foldl insertHosted ⟨∅, ∅⟩, drops)

end Merge

/-! ### The merged maps -/

section Merged

variable (subdir : Text) (owned : OwnedNames) (allowlist : Option CompiledAllowlist)

/-- A remote record that the merge does not leave out. -/
def accepted (filename : Text) (raw : Json) : Bool :=
  !remoteRecordIsOwned owned filename raw &&
    !allowlist.any fun list => !remoteRecordIsAdmitted subdir list filename raw

def acceptedOffers (source : PackageMap) : List (Text × Json) :=
  (pairs source).filter fun offer => accepted subdir owned allowlist offer.1 offer.2

variable (hosted : List HostedRecord)

def hostedOffers (isV2 : Bool) : List (Text × Json) :=
  (hosted.filter (·.isV2 = isV2)).map fun h => (h.filename, h.record)

theorem mergeSource_fst (target : PackageMap) (drops : MergeDrops) (source : PackageMap) :
    (mergeSource subdir owned allowlist target drops source).1 =
      insertAll target (acceptedOffers subdir owned allowlist source) := by
  unfold mergeSource acceptedOffers
  induction pairs source generalizing target drops with
  | nil => rfl
  | cons offer _ ih =>
    obtain ⟨filename, raw⟩ := offer
    cases isOwned : remoteRecordIsOwned owned filename raw with
    | true => simpa [accepted, isOwned] using ih target _
    | false =>
      cases refused :
        allowlist.any fun list => !remoteRecordIsAdmitted subdir list filename raw with
      | true => simpa [accepted, isOwned, refused] using ih target _
      | false =>
        simpa [accepted, isOwned, refused, insertAll] using ih (orInsert target filename raw) _

theorem get_mergeMember (maps : PackageMaps) (drops : MergeDrops) (member : PackageMaps)
    (isV2 : Bool) :
    (mergeMember subdir owned allowlist maps drops member).1.get isV2 =
      insertAll (maps.get isV2) (acceptedOffers subdir owned allowlist (member.get isV2)) := by
  cases isV2 with
  | false | true => exact mergeSource_fst ..

theorem get_insertHosted (maps : PackageMaps) (isV2 : Bool) :
    (hosted.foldl insertHosted maps).get isV2 =
      insertAll (maps.get isV2) (hostedOffers hosted isV2) := by
  induction hosted generalizing maps with
  | nil => rfl
  | cons h _ ih =>
    rw [foldl_cons, ih]
    cases same : h.isV2 <;> cases isV2 <;>
      simp [insertHosted, hostedOffers, PackageMaps.get, same, insertAll]

theorem get_mergePackageMaps (parsed : List PackageMaps) (drops : MergeDrops) (isV2 : Bool) :
    (mergePackageMaps subdir owned allowlist hosted parsed drops).1.get isV2 =
      insertAll ∅ (hostedOffers hosted isV2 ++
        parsed.flatMap fun member => acceptedOffers subdir owned allowlist (member.get isV2)) := by
  have start := get_insertHosted hosted ⟨∅, ∅⟩ isV2
  have empty : (⟨∅, ∅⟩ : PackageMaps).get isV2 = ∅ := by cases isV2 <;> rfl
  rw [insertAll_append, ← empty, ← start]
  unfold mergePackageMaps
  generalize hosted.foldl insertHosted ⟨∅, ∅⟩ = maps
  induction parsed generalizing maps drops with
  | nil => rfl
  | cons _ _ ih =>
    rw [foldl_cons, ih, get_mergeMember, flatMap_cons, insertAll_append]

def firstHosted (isV2 : Bool) (filename : Text) : Option Json :=
  (hosted.find? fun h => h.isV2 = isV2 && h.filename = filename).map (·.record)

def firstOffer (parsed : List PackageMaps) (isV2 : Bool) (filename : Text) : Option Json :=
  parsed.findSome? fun member =>
    ((member.get isV2).lookup filename).filter (accepted subdir owned allowlist filename)

theorem firstOf_hostedOffers (isV2 : Bool) (filename : Text) :
    firstOf (hostedOffers hosted isV2) filename = firstHosted hosted isV2 filename := by
  unfold hostedOffers firstHosted
  induction hosted with
  | nil => rfl
  | cons h _ ih =>
    by_cases kind : h.isV2 = isV2
    · by_cases same : h.filename = filename
      · simp [kind, same, firstOf_cons]
      · simpa [kind, same, firstOf_cons] using ih
    · simpa [kind] using ih

theorem lookup_mergePackageMaps (parsed : List PackageMaps)
    (drops : MergeDrops) (isV2 : Bool) (filename : Text) :
    ((mergePackageMaps subdir owned allowlist hosted parsed drops).1.get isV2).lookup filename =
      (firstHosted hosted isV2 filename).or
        (firstOffer subdir owned allowlist parsed isV2 filename) := by
  rw [get_mergePackageMaps, lookup_insertAll, firstOf_append, firstOf_flatMap, firstOf_hostedOffers,
    AList.lookup_empty, none_or]
  simp only [acceptedOffers, firstOf_filter_pairs, firstOffer]

end Merged

/-! ### Ownership -/

def clientName : Json → Option Text
  | .object members =>
    match (valuesOf members nameKey).getLast? with
    | some (.string s) => s
    | _ => none
  | _ => none

def Owns (owned : OwnedNames) (name : Text) : Prop :=
  ∃ own ∈ owned.names, toAsciiLowercase name = toAsciiLowercase own

def NamesOwned (owned : OwnedNames) (filename : Text) (raw : Json) : Prop :=
  (∃ name, condaNameFromFilename filename = some name ∧ Owns owned name) ∨
    ∃ name, clientName raw = some name ∧ Owns owned name

/-- The record has more than one name, or a key that does not decode. -/
def unreadable : Json → Bool
  | .object members => 1 < (valuesOf members nameKey).length || !keysDecode members
  | _ => false

variable {owned : OwnedNames}

theorem owns_iff {name : Text} : Owns owned name ↔ toAsciiLowercase name ∈ owned.names := by
  constructor
  · rintro ⟨own, mem, same⟩
    rwa [same, owned.lower own mem]
  · exact fun mem => ⟨_, mem, (owned.lower _ mem).symm⟩

theorem readOptionalText_of_long {values : List Json} (h : 1 < values.length) :
    readOptionalText values = none := by
  match values, h with
  | _ :: _ :: _, _ => simp [readOptionalText]

variable {raw : Json}

theorem readRecordIdentity_of_unreadable (h : unreadable raw = true) :
    readRecordIdentity raw = none := by
  cases raw with
  | object members =>
    simp only [unreadable, or_eq_true, decide_eq_true_eq, not_eq_true'] at h
    rcases h with long | undecoded
    · simp [readRecordIdentity, readOptionalText_of_long long]
    · simp [readRecordIdentity, undecoded]
  | _ => cases h

theorem readRecordName_of_clientName {name : Text} (readable : unreadable raw = false)
    (read : clientName raw = some name) : readRecordName raw = some (some name) := by
  cases raw with
  | object members =>
    simp only [unreadable, or_eq_false_iff, not_eq_false'] at readable
    simp only [clientName, readRecordName, readable.2, if_true] at read ⊢
    match values : valuesOf members nameKey with
    | [] => simp [values] at read
    | [value] => cases value <;> simp_all [readOptionalText]
    | _ :: _ :: _ => simp [values] at readable
  | _ => cases read

theorem remoteRecordIsOwned_iff {filename : Text} :
    remoteRecordIsOwned owned filename raw = true ↔
      (∃ name, condaNameFromFilename filename = some name ∧ Owns owned name) ∨
        ∃ name, readRecordName raw = some (some name) ∧ Owns owned name := by
  unfold remoteRecordIsOwned
  by_cases empty : owned.names = ∅
  · simp [owns_iff, empty]
  · simp [owns_iff, empty, Option.any_eq_true, bind_eq_some_iff]

theorem namesOwned_iff_of_accepted {subdir : Text} {allowlist : Option CompiledAllowlist}
    {filename : Text} (h : accepted subdir owned allowlist filename raw = true) :
    NamesOwned owned filename raw ↔ allowlist = none ∧ unreadable raw = true ∧
      ∃ name, clientName raw = some name ∧ Owns owned name := by
  simp only [accepted, and_eq_true, not_eq_true'] at h
  obtain ⟨unowned, admitted⟩ := h
  rw [← not_eq_true, remoteRecordIsOwned_iff] at unowned
  constructor
  · rintro (byFilename | ⟨name, read, owns⟩)
    · exact absurd (.inl byFilename) unowned
    · cases readable : unreadable raw with
      | false =>
        exact absurd (.inr ⟨name, readRecordName_of_clientName readable read, owns⟩) unowned
      | true =>
        refine ⟨?_, rfl, name, read, owns⟩
        cases allowlist with
        | none => rfl
        | some list =>
          have refused : remoteRecordIsAdmitted subdir list filename raw = false := by
            unfold remoteRecordIsAdmitted
            rw [readRecordIdentity_of_unreadable readable]
            cases splitCondaFilename filename <;> simp
          simp [refused] at admitted
  · exact fun ⟨_, _, byName⟩ => .inr byName

/-- Hosted records come first and each other filename has the record of the first member with an
accepted one.  These records name no owned package exactly if there is an allowlist or none of them
whose name cannot be read has an owned one. -/
theorem merged_records_unowned_iff (subdir : Text) (owned : OwnedNames)
    (allowlist : Option CompiledAllowlist) (hosted : List HostedRecord) (parsed : List PackageMaps)
    (drops : MergeDrops) :
    let merged := (mergePackageMaps subdir owned allowlist hosted parsed drops).1
    let offer := firstOffer subdir owned allowlist parsed
    (∀ isV2 filename record, firstHosted hosted isV2 filename = some record →
      (merged.get isV2).lookup filename = some record) ∧
    (∀ isV2 filename, firstHosted hosted isV2 filename = none →
      (merged.get isV2).lookup filename = offer isV2 filename) ∧
    ((∀ isV2 filename raw, firstHosted hosted isV2 filename = none →
      (merged.get isV2).lookup filename = some raw → ¬NamesOwned owned filename raw) ↔
        allowlist.isSome ∨ ∀ isV2 filename raw, firstHosted hosted isV2 filename = none →
          offer isV2 filename = some raw → unreadable raw = true →
            ¬∃ name, clientName raw = some name ∧ Owns owned name) := by
  intro merged offer
  have remote {isV2 : Bool} {filename : Text} (free : firstHosted hosted isV2 filename = none) :
      (merged.get isV2).lookup filename = offer isV2 filename := by
    simp only [merged, offer, lookup_mergePackageMaps, free, none_or]
  have isAccepted {isV2 : Bool} {filename : Text} {raw : Json}
      (found : offer isV2 filename = some raw) :
      accepted subdir owned allowlist filename raw = true := by
    obtain ⟨_, -, offered⟩ := exists_of_findSome?_eq_some found
    exact (filter_eq_some_iff.1 offered).2
  refine ⟨fun isV2 filename record first => ?_, fun isV2 filename free => remote free, ?_⟩
  · simp only [merged, lookup_mergePackageMaps, first, some_or]
  constructor
  · intro unowned
    cases allowlist with
    | some _ => exact .inl rfl
    | none =>
      refine .inr fun isV2 filename raw free found failed byName => ?_
      exact unowned isV2 filename raw free ((remote free).trans found)
        ((namesOwned_iff_of_accepted (isAccepted found)).2 ⟨rfl, failed, byName⟩)
  · intro condition isV2 filename raw free found names
    rw [remote free] at found
    obtain ⟨rfl, failed, byName⟩ := (namesOwned_iff_of_accepted (isAccepted found)).1 names
    exact (condition.resolve_left (by simp)) isV2 filename raw free found failed byName

def twoNames : Json :=
  .object [(nameKey, .string "harmless"), (nameKey, .string "acme")]

/-- A remote record of an owned package in the merged maps. -/
theorem two_names_merged :
    let owned : OwnedNames := ⟨{"acme".toList}, by decide⟩
    let filename := "harmless-1.0-0.conda".toList
    let member : PackageMaps := ⟨∅, AList.singleton filename twoNames⟩
    let merged := (mergePackageMaps "noarch" owned none [] [member] ⟨0, 0⟩).1
    merged.packagesConda.lookup filename = some twoNames ∧ NamesOwned owned filename twoNames := by
  refine ⟨by rfl, .inr ⟨"acme", by decide, "acme", by decide, rfl⟩⟩

end ArtifactKeeper.CondaMerge
