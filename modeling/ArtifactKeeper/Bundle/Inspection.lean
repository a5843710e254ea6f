import ArtifactKeeper.Bundle.Archive

/-!
# Inspection of a bundle

What `inspectBundle` accepts can be unpacked without a file that leaves the root or replaces another
one, and has exactly the files of the manifest (`Sound`).
-/

namespace ArtifactKeeper.Bundle

open Text List Prod Fallible Nat
open Option hiding mem_map or_assoc
open Std.TreeMap hiding getElem?_insert

/-! ### Reconciliation -/

/-- What the manifest says about paths: the size, if it declares one. -/
abbrev Expected := Std.TreeMap Text (Option ℕ)

def expectDocuments (m : BundleManifest) (volume : ℕ) : Expected :=
  if volume = 1 then (metadataPaths m).foldl (fun expected path => expected.insert path none) {}
  else {}

def expectItem (s : Expected × List Text) (item : ItemEntry) : Expected × List Text :=
  (s.1.insert item.blobPath (some item.sizeBytes),
    match s.1[item.blobPath]? with
    | some (some prev) =>
      if prev ≠ item.sizeBytes then
        s.2 ++ [item.blobPath ++ ": items sharing this blob declare different sizes"]
      else s.2
    | _ => s.2)

def expectAll (m : BundleManifest) (volume : ℕ) : Expected × List Text :=
  (m.items.filter (·.volume = volume)).foldl expectItem (expectDocuments m volume, [])

variable (files : Std.TreeMap Text ℕ)

def compareFile (expected : Text × Option ℕ) : Option Text :=
  match files[expected.1]?, expected.2 with
  | none, _ => some (expected.1 ++ ": named by the manifest but missing")
  | some actual, some declared =>
    if actual ≠ declared then
      some (expected.1 ++ ": archive entry is " ++ decimal actual ++
        " bytes, manifest declares " ++ decimal declared)
    else none
  | some _, none => none

def crossCheck (m : BundleManifest) (volume : ℕ) : List Text :=
  let (expected, problems) := expectAll m volume
  problems ++ expected.toList.filterMap (compareFile files) ++
    (files.keys.filter (!expected.contains ·)).map (· ++ ": not referenced by the manifest".toList)

structure Expecting (documents : Expected) (items : List ItemEntry) (s : Expected × List Text) :
    Prop where
  keys : ∀ path, path ∈ s.1 ↔ path ∈ documents ∨ ∃ item ∈ items, item.blobPath = path
  declared : ∀ path size, s.1[path]? = some (some size) →
    ∃ item ∈ items, item.blobPath = path ∧ item.sizeBytes = size
  sizes : s.2 = [] → ∀ item ∈ items, s.1[item.blobPath]? = some (some item.sizeBytes)
  agree : (∀ i ∈ items, ∀ j ∈ items, i.blobPath = j.blobPath → i.sizeBytes = j.sizeBytes) → s.2 = []

variable {documents : Expected} {items : List ItemEntry} {m : BundleManifest} {volume : ℕ} {path : Text}

theorem getElem?_insert_none (paths : List Text) (expected : Expected) (path : Text) :
    (paths.foldl (fun expected path => expected.insert path none) expected)[path]? =
      if path ∈ paths then some none else expected[path]? := by
  induction paths generalizing expected with
  | nil => simp
  | cons _ rest ih =>
    rw [foldl_cons, ih]
    simp only [Std.TreeMap.getElem?_insert, Std.LawfulEqCmp.compare_eq_iff_eq]
    by_cases later : path ∈ rest
    · simp [later]
    · simp [later, eq_comm]

theorem getElem?_expectDocuments :
    (expectDocuments m volume)[path]? =
      if volume = 1 ∧ path ∈ metadataPaths m then some none else none := by
  unfold expectDocuments
  by_cases first : volume = 1
  · rw [if_pos first, getElem?_insert_none]
    simp [first]
  · simp [first]

theorem mem_expectDocuments :
    path ∈ expectDocuments m volume ↔ volume = 1 ∧ path ∈ metadataPaths m := by
  rw [mem_iff_isSome_getElem?, getElem?_expectDocuments]
  split_ifs with listed <;> simp [listed]

theorem expectDocuments_size (size : ℕ) : (expectDocuments m volume)[path]? ≠ some (some size) := by
  rw [getElem?_expectDocuments]
  split_ifs <;> simp

variable {item : ItemEntry} {s : Expected × List Text}

theorem expectItem_problems :
    (expectItem s item).2 = [] ↔
      s.2 = [] ∧ ∀ prev, s.1[item.blobPath]? = some (some prev) → prev = item.sizeBytes := by
  unfold expectItem
  split
  · rename_i prev found
    by_cases same : prev = item.sizeBytes <;> simp [found, same]
  · rename_i other
    simpa using fun _ prev found => absurd found (other prev)

theorem getElem?_expectItem :
    (expectItem s item).1[path]? =
      if item.blobPath = path then some (some item.sizeBytes) else s.1[path]? := by
  simp only [expectItem, Std.TreeMap.getElem?_insert, Std.LawfulEqCmp.compare_eq_iff_eq]

theorem Expecting.step (expecting : Expecting documents items s) (item : ItemEntry) :
    Expecting documents (items ++ [item]) (expectItem s item) where
  keys path := by
    simp only [expectItem, mem_insert, Std.LawfulEqCmp.compare_eq_iff_eq, expecting.keys,
      mem_append, mem_singleton, or_and_right, exists_or, exists_eq_left]
    rw [or_comm, or_assoc]
  declared path size found := by
    rw [getElem?_expectItem] at found
    split_ifs at found with same
    · cases found
      exact ⟨item, by simp, same, rfl⟩
    · obtain ⟨i, mem, rest⟩ := expecting.declared path size found
      exact ⟨i, mem_append_left _ mem, rest⟩
  sizes none i mem := by
    obtain ⟨before, unchanged⟩ := expectItem_problems.1 none
    rw [getElem?_expectItem]
    rcases mem_append.1 mem with old | new
    · have known := expecting.sizes before i old
      split_ifs with same
      · rw [← unchanged i.sizeBytes (same ▸ known)]
      · exact known
    · rw [mem_singleton.1 new, if_pos rfl]
  agree agree := by
    rw [expectItem_problems]
    constructor
    · exact expecting.agree fun i mem j mem' =>
        agree i (mem_append_left _ mem) j (mem_append_left _ mem')
    · intro prev found
      obtain ⟨i, mem, same, rfl⟩ := expecting.declared _ prev found
      exact agree i (mem_append_left _ mem) item (by simp) same

theorem expecting_run (m : BundleManifest) (volume : ℕ) (items : List ItemEntry) :
    Expecting (expectDocuments m volume) items
      (items.foldl expectItem (expectDocuments m volume, [])) := by
  induction items using reverseRecOn with
  | nil =>
    exact ⟨by simp, fun _ size found => absurd found (expectDocuments_size size), by simp, by simp⟩
  | append_singleton _ item ih =>
    rw [foldl_append]
    exact ih.step item

theorem expecting_all (m : BundleManifest) (volume : ℕ) :
    Expecting (expectDocuments m volume) (m.items.filter (·.volume = volume)) (expectAll m volume) :=
  expecting_run m volume _

theorem mem_items_of_volume :
    item ∈ m.items.filter (·.volume = volume) ↔ item ∈ m.items ∧ item.volume = volume := by
  simp

theorem mem_expectAll : path ∈ (expectAll m volume).1 ↔ Named m volume path := by
  simp only [(expecting_all m volume).keys, mem_expectDocuments, Named, mem_items_of_volume, and_assoc]

/-- The files are those the manifest names for a volume, and have the sizes it declares. -/
structure Reconciled (m : BundleManifest) (volume : ℕ) : Prop where
  named : ∀ path, path ∈ files ↔ Named m volume path
  sizes : ∀ item ∈ m.items, item.volume = volume → files[item.blobPath]? = some item.sizeBytes

variable {files}

theorem compareFile_eq_none {expected : Text × Option ℕ} :
    compareFile files expected = none ↔
      ∃ actual, files[expected.1]? = some actual ∧ ∀ declared ∈ expected.2, actual = declared := by
  unfold compareFile
  split <;> simp_all

theorem crossCheck_eq_nil :
    crossCheck files m volume = [] ↔
      (expectAll m volume).2 = [] ∧
        (∀ path size, (expectAll m volume).1[path]? = some size →
          compareFile files (path, size) = none) ∧
        ∀ path ∈ files, path ∈ (expectAll m volume).1 := by
  simp only [crossCheck, append_eq_nil_iff, filterMap_eq_nil_iff, map_eq_nil_iff,
    filter_eq_nil_iff, Std.TreeMap.mem_keys, Prod.forall,
    mem_toList_iff_getElem?_eq_some, Bool.not_eq_true', Bool.not_eq_false,
    contains_iff_mem, and_assoc]

theorem reconciled_of_crossCheck (none : crossCheck files m volume = []) :
    Reconciled files m volume := by
  obtain ⟨agree, present, referenced⟩ := crossCheck_eq_nil.1 none
  refine ⟨fun path => ⟨fun mem => mem_expectAll.1 (referenced path mem), fun named => ?_⟩, ?_⟩
  · obtain ⟨size, found⟩ := isSome_iff_exists.1
      (mem_iff_isSome_getElem?.1 (mem_expectAll.2 named))
    obtain ⟨_, stored, -⟩ := compareFile_eq_none.1 (present path size found)
    exact mem_iff_isSome_getElem?.2 (by simp [stored])
  · intro item mem here
    have found := (expecting_all m volume).sizes agree item (mem_items_of_volume.2 ⟨mem, here⟩)
    obtain ⟨_, stored, same⟩ := compareFile_eq_none.1 (present _ _ found)
    rw [stored, same item.sizeBytes rfl]

theorem Reconciled.agree (reconciled : Reconciled files m volume) : (expectAll m volume).2 = [] := by
  apply (expecting_all m volume).agree
  intro i first j second same
  obtain ⟨mem, here⟩ := mem_items_of_volume.1 first
  obtain ⟨mem', here'⟩ := mem_items_of_volume.1 second
  have size := reconciled.sizes i mem here
  rw [same, reconciled.sizes j mem' here'] at size
  exact (some.inj size).symm

theorem crossCheck_of_reconciled (reconciled : Reconciled files m volume) :
    crossCheck files m volume = [] := by
  refine crossCheck_eq_nil.2 ⟨reconciled.agree, fun path size found => ?_, fun path mem => ?_⟩
  · have known : path ∈ files := (reconciled.named path).2
      (mem_expectAll.1 (mem_iff_isSome_getElem?.2 (by simp [found])))
    obtain ⟨actual, stored⟩ := isSome_iff_exists.1 (mem_iff_isSome_getElem?.1 known)
    refine compareFile_eq_none.2 ⟨actual, stored, ?_⟩
    rintro declared ⟨⟩
    obtain ⟨item, listed, rfl, rfl⟩ := (expecting_all m volume).declared path declared found
    obtain ⟨mem, here⟩ := mem_items_of_volume.1 listed
    rw [reconciled.sizes item mem here] at stored
    exact (some.inj stored).symm
  · exact mem_expectAll.2 ((reconciled.named path).1 mem)

/-! ### The inspection -/

structure InspectedBundle where
  manifest : BundleManifest
  manifestSha256 : Text
  summary : ManifestSummary

def joinProblems (problems : List Text) : Text := "; ".toList.intercalate problems

variable (codec : Codec)

def inspectBundle (stream : Stream) (limits : BundleLimits) :
    Except BundleError InspectedBundle := do
  let index ← indexBundle codec limits stream
  let manifest ← decodeManifest codec index.manifest limits
  let summary ← (validateManifest codec manifest limits).mapError fun p => .invalid (joinProblems p)
  let problems := crossCheck index.files manifest 1
  if problems.isEmpty then .ok ⟨manifest, codec.sha256Hex index.manifest, summary⟩
  else .error (.invalid (joinProblems problems))

/-! ### What is accepted -/

variable (limits : BundleLimits)

/-- The files of a stream: the manifest, then each file the manifest names, once and with the declared
size. -/
structure Inventory (entries : List Entry) (m : BundleManifest) (first : Entry)
    (rest : List (Text × Entry)) : Prop where
  files : namedFiles codec entries = (manifestPath, first) :: rest
  manifest : decodeManifest codec first.content limits = .ok m
  once : (rest.map fst).Nodup
  named : ∀ path, path ∈ rest.map fst ↔ Named m 1 path
  sizes : ∀ item ∈ m.items, item.volume = 1 → ∀ file ∈ rest, file.1 = item.blobPath →
    file.2.size = item.sizeBytes

structure Sound (stream : Stream) (inspected : InspectedBundle) : Prop where
  accepted : ∀ entry ∈ stream.entries, Accepted codec entry
  inventory : ∃ first rest, Inventory codec limits stream.entries inspected.manifest first rest ∧
    inspected.manifestSha256 = codec.sha256Hex first.content
  valid : validateManifest codec inspected.manifest limits = .ok inspected.summary
  apart : ((namedFiles codec stream.entries).map fst).Pairwise Apart

/-- A stream of an inventory and nothing else. -/
structure Carries (stream : Stream) (m : BundleManifest) (first : Entry)
    (rest : List (Text × Entry)) : Prop where
  inventory : Inventory codec limits stream.entries m first rest
  entries : stream.entries = first :: rest.map snd
  plain : ∃ head, stream.head = .ok head ∧ refuseCompressedPrefix head = .ok ()
  whole : stream.failure = none

structure Within (stream : Stream) : Prop where
  bytes : stream.length ≤ limits.maxTotalBytes.toNat
  entries : stream.entries.length ≤ limits.maxEntries.toNat

variable {codec} {limits} {stream : Stream} {entry first : Entry} {rest : List (Text × Entry)}

variable {inspected : InspectedBundle} {bytes : List UInt8}

theorem inspectBundle_ok :
    inspectBundle codec stream limits = .ok inspected ↔
      ∃ index, indexBundle codec limits stream = .ok index ∧
        decodeManifest codec index.manifest limits = .ok inspected.manifest ∧
        validateManifest codec inspected.manifest limits = .ok inspected.summary ∧
        crossCheck index.files inspected.manifest 1 = [] ∧
        inspected.manifestSha256 = codec.sha256Hex index.manifest := by
  simp only [inspectBundle, bind_eq_ok, mapError_eq_ok]
  constructor
  · rintro ⟨index, indexed, m, decoded, _, validated, ok⟩
    split_ifs at ok with none
    cases ok
    exact ⟨index, indexed, decoded, validated, isEmpty_iff.1 none, rfl⟩
  · rintro ⟨index, indexed, decoded, validated, none, digest⟩
    refine ⟨index, indexed, _, decoded, _, validated, ?_⟩
    rw [none, ← digest]
    rfl

theorem indexBundle_ok {index : BundleIndex} :
    indexBundle codec limits stream = .ok index ↔
      ∃ head s, stream.head = .ok head ∧ refuseCompressedPrefix head = .ok () ∧
        stream.entries.foldlM (indexEntry codec limits) {} = .ok s ∧
        finishIndex limits stream s = .ok index := by
  simp only [indexBundle, bind_eq_ok, mapError_eq_ok]
  constructor
  · rintro ⟨head, read, _, plain, s, run, finished⟩
    exact ⟨head, s, read, plain, run, finished⟩
  · rintro ⟨head, s, read, plain, run, finished⟩
    exact ⟨head, read, (), plain, s, run, finished⟩

theorem finishIndex_ok {s : IndexState} {index : BundleIndex}
    (ok : finishIndex limits stream s = .ok index) :
    s.manifest = some index.manifest ∧ s.files = index.files := by
  unfold finishIndex at ok
  split at ok; · cases ok
  split at ok; · cases ok
  split at ok; · cases ok
  rename_i manifest present
  cases ok
  exact ⟨present, rfl⟩

/-! ### Reading the manifest -/

theorem decodeManifest_nil : ∀ m, decodeManifest codec [] limits ≠ .ok m := by
  simp [decodeManifest]

theorem toNat_maxManifestBytes_add_one (limits : BundleLimits) :
    (limits.maxManifestBytes + 1).toNat = (limits.maxManifestBytes.toNat + 1) % 2 ^ 64 :=
  UInt64.toNat_add _ _

section

variable {start : ℕ} (read : readManifestEntry limits start entry = .ok bytes)
include read

theorem readManifestEntry_ok :
    bytes = entry.content.take ((limits.maxManifestBytes.toNat + 1) % 2 ^ 64) ∧
      bytes.length ≤ limits.maxManifestBytes.toNat := by
  unfold readManifestEntry at read
  dsimp only at read
  split at read; · cases read
  split at read; · cases read
  rename_i short
  cases read
  exact ⟨rfl, not_lt.1 short⟩

theorem fits_of_decodeManifest (decoded : decodeManifest codec bytes limits = .ok m) :
    limits.maxManifestBytes.toNat + 1 < 2 ^ 64 := by
  by_contra wraps
  have greatest : limits.maxManifestBytes.toNat + 1 = 2 ^ 64 := by
    have := limits.maxManifestBytes.toNat_lt
    omega
  rw [(readManifestEntry_ok read).1, greatest, mod_self, take_zero] at decoded
  exact decodeManifest_nil m decoded

theorem read_eq_content (decoded : decodeManifest codec bytes limits = .ok m) :
    bytes = entry.content := by
  obtain ⟨taken, short⟩ := readManifestEntry_ok read
  rw [mod_eq_of_lt (fits_of_decodeManifest read decoded)] at taken
  rw [taken, length_take] at short
  rw [taken]
  exact take_of_length_le (by omega)

end

theorem take_content (fits : limits.maxManifestBytes.toNat + 1 < 2 ^ 64)
    (short : entry.content.length ≤ limits.maxManifestBytes.toNat) :
    entry.content.take (limits.maxManifestBytes + 1).toNat = entry.content := by
  rw [toNat_maxManifestBytes_add_one, mod_eq_of_lt fits]
  exact take_of_length_le (by omega)

theorem readManifestEntry_of_fits {start : ℕ} (fits : limits.maxManifestBytes.toNat + 1 < 2 ^ 64)
    (short : entry.content.length ≤ limits.maxManifestBytes.toNat)
    (bytes : start + entry.content.length ≤ limits.maxTotalBytes.toNat) :
    readManifestEntry limits start entry = .ok entry.content := by
  rw [readManifestEntry, take_content fits short, if_neg (not_lt.2 bytes), if_neg (not_lt.2 short)]

theorem length_of_decodeManifest
    (decoded : decodeManifest codec bytes limits = .ok m) :
    bytes.length ≤ limits.maxManifestBytes.toNat := by
  unfold decodeManifest at decoded
  split at decoded; · cases decoded
  exact not_lt.1 ‹_›

/-! ### The files of an index -/

section Index

variable {entries : List Entry} {s : IndexState}

section

variable (indexed : Indexed codec limits entries s)
  (named : namedFiles codec entries = (manifestPath, first) :: rest)
include indexed named

theorem Indexed.file_iff {size : ℕ} :
    s.files[path]? = some size ↔ ∃ e, (path, e) ∈ rest ∧ e.size = size := by
  have distinct := indexed.distinct
  rw [named, map_cons, nodup_cons] at distinct
  rw [indexed.files, named]
  constructor
  · rintro ⟨e, mem, other, size⟩
    rcases mem_cons.1 mem with same | mem
    · exact absurd (mk.inj same).1 other
    · exact ⟨e, mem, size⟩
  · rintro ⟨e, mem, size⟩
    refine ⟨e, mem_cons_of_mem _ mem, ?_, size⟩
    rintro rfl
    exact distinct.1 (mem_map.2 ⟨_, mem, rfl⟩)

theorem Indexed.mem_files_iff : path ∈ s.files ↔ path ∈ rest.map fst := by
  rw [mem_iff_isSome_getElem?, isSome_iff_exists, mem_map]
  simp [indexed.file_iff named]

theorem Indexed.inventory (decoded : decodeManifest codec first.content limits = .ok m)
    (reconciled : Reconciled s.files m 1) :
    Inventory codec limits entries m first rest := by
  refine ⟨named, decoded, ?_, ?_, ?_⟩
  · have distinct := indexed.distinct
    rw [named, map_cons] at distinct
    exact distinct.of_cons
  · intro _
    rw [← indexed.mem_files_iff named, reconciled.named]
  · rintro item listed volume ⟨_, e⟩ mem rfl
    have stored := (indexed.file_iff named).2 ⟨e, mem, rfl⟩
    rw [reconciled.sizes item listed volume] at stored
    exact (some.inj stored).symm

end

theorem Inventory.reconciled (inventory : Inventory codec limits entries m first rest)
    (indexed : Indexed codec limits entries s) : Reconciled s.files m 1 := by
  refine ⟨fun path => (indexed.mem_files_iff inventory.files).trans (inventory.named path), ?_⟩
  intro item listed volume
  obtain ⟨⟨_, e⟩, mem, same⟩ := mem_map.1
    ((inventory.named item.blobPath).2 (.inr ⟨item, listed, volume, rfl⟩))
  obtain rfl : _ = item.blobPath := same
  exact (indexed.file_iff inventory.files).2
    ⟨e, mem, inventory.sizes item listed volume _ mem rfl⟩

end Index

/-! ### Soundness -/

theorem Inventory.apart {entries : List Entry} (inventory : Inventory codec limits entries m first rest)
    (valid : Valid m) : ((namedFiles codec entries).map fst).Pairwise Apart := by
  rw [inventory.files, map_cons, pairwise_cons]
  constructor
  · intro path mem
    exact valid.apart_manifestPath ((inventory.named path).1 mem)
  · apply inventory.once.pairwise_of_forall_ne
    intro path mem other mem' different
    exact valid.apart ((inventory.named path).1 mem) ((inventory.named other).1 mem') different

/-- What an inspection that accepts has read. -/
structure Inspected (codec : Codec) (limits : BundleLimits) (stream : Stream)
    (inspected : InspectedBundle) (s : IndexState) (bytes : List UInt8) : Prop where
  indexed : Indexed codec limits stream.entries s
  stored : s.manifest = some bytes
  decoded : decodeManifest codec bytes limits = .ok inspected.manifest
  validated : validateManifest codec inspected.manifest limits = .ok inspected.summary
  reconciled : Reconciled s.files inspected.manifest 1
  digest : inspected.manifestSha256 = codec.sha256Hex bytes

section

variable (ok : inspectBundle codec stream limits = .ok inspected)
include ok

theorem inspected_of_inspectBundle :
    ∃ s bytes, Inspected codec limits stream inspected s bytes := by
  obtain ⟨index, indexOk, decoded, validated, checked, digest⟩ := inspectBundle_ok.1 ok
  obtain ⟨_, s, -, -, run, finished⟩ := indexBundle_ok.1 indexOk
  obtain ⟨stored, files⟩ := finishIndex_ok finished
  exact ⟨s, index.manifest, indexed_run run, stored, decoded, validated,
    files ▸ reconciled_of_crossCheck checked, digest⟩

theorem sound_of_inspectBundle : Sound codec limits stream inspected := by
  obtain ⟨s, bytes, h⟩ := inspected_of_inspectBundle ok
  obtain ⟨first, rest, _, files, read⟩ := h.indexed.manifest bytes h.stored
  obtain rfl := read_eq_content read h.decoded
  have inventory := h.indexed.inventory files h.decoded h.reconciled
  exact ⟨h.indexed.accepted, ⟨first, rest, inventory, h.digest⟩, h.validated,
    inventory.apart (valid_of_validateManifest h.validated)⟩

theorem fits_of_inspectBundle : limits.maxManifestBytes.toNat + 1 < 2 ^ 64 := by
  obtain ⟨s, bytes, h⟩ := inspected_of_inspectBundle ok
  obtain ⟨_, _, _, -, read⟩ := h.indexed.manifest bytes h.stored
  exact fits_of_decodeManifest read h.decoded

end

/-! ### Completeness -/

theorem span_bounds (entry : Entry) : entry.header + entry.content.length ≤ entry.span := by
  rw [entry.complete, Entry.span]
  omega

section Complete

variable {s : IndexState} {start : ℕ}

theorem indexFile_manifest (fresh : manifestPath ∉ s.seen)
    (read : readManifestEntry limits start entry = .ok bytes) :
    indexFile codec limits start s manifestPath entry =
      .ok { s with seen := manifestPath :: s.seen, manifest := some bytes } := by
  refine bind_eq_ok.2 ⟨_, classifyFile_manifestPath, ?_⟩
  rw [if_neg fresh, if_neg (by simp), if_pos rfl]
  exact bind_eq_ok.2 ⟨bytes, read, rfl⟩

theorem indexFile_other {kind : BundleEntry} (classified : classifyFile path = .ok kind)
    (other : kind ≠ .manifest) (fresh : path ∉ s.seen) (second : s.manifest ≠ none) :
    indexFile codec limits start s path entry =
      .ok { s with seen := path :: s.seen, files := s.files.insert path entry.size } := by
  refine bind_eq_ok.2 ⟨_, classified, ?_⟩
  rw [if_neg fresh, if_neg (by simp [second]), if_neg other]

variable (carries : Carries codec limits stream m first rest) (valid : Valid m)

include carries

theorem Carries.isFile (listed : (path, entry) ∈ (manifestPath, first) :: rest) :
    entry.isFile = true ∧ codec.fromUtf8 entry.pathBytes = some path := by
  rw [← carries.inventory.files] at listed
  exact (mem_namedFiles.1 listed).2

theorem Carries.finish (within : Within limits stream)
    (fits : limits.maxManifestBytes.toNat + 1 < 2 ^ 64)
    (indexed : Indexed codec limits stream.entries s) :
    finishIndex limits stream s = .ok ⟨first.content, s.files⟩ := by
  have bytes : s.position + stream.trailer ≤ limits.maxTotalBytes.toNat := by
    rw [indexed.position]
    exact within.bytes
  have manifest : s.manifest = some first.content := by
    cases stored : s.manifest with
    | none =>
      have empty := indexed.none stored
      rw [carries.inventory.files] at empty
      cases empty
    | some content =>
      obtain ⟨e, _, _, files, read⟩ := indexed.manifest content stored
      rw [carries.inventory.files] at files
      cases files
      have short := length_of_decodeManifest carries.inventory.manifest
      rw [(readManifestEntry_ok read).1, ← toNat_maxManifestBytes_add_one, take_content fits short]
  rw [finishIndex, if_neg (not_lt.2 bytes), carries.whole, manifest]

include valid

theorem Carries.fresh {front back : List (Text × Entry)} (split : rest = front ++ (path, entry) :: back)
    (indexed : Indexed codec limits (first :: front.map snd) s) : path ∉ s.seen := by
  have once := carries.inventory.once
  rw [split, map_append, map_cons, nodup_append] at once
  rw [indexed.seen]
  rintro ⟨e, done, name⟩
  rcases mem_cons.1 done with rfl | before
  · obtain ⟨file, decoded⟩ := carries.isFile mem_cons_self
    rw [entryName_of_isFile file decoded] at name
    refine valid.ne_manifestPath ((carries.inventory.named path).1 ?_) (some.inj name).symm
    simp [split]
  · obtain ⟨⟨other, e⟩, mem, rfl⟩ := mem_map.1 before
    have listed : (other, e) ∈ (manifestPath, first) :: rest := by simp [split, mem]
    obtain ⟨file, decoded⟩ := carries.isFile listed
    rw [entryName_of_isFile file decoded] at name
    exact once.2.2 other (mem_map_of_mem mem) path mem_cons_self (some.inj name)

theorem Carries.next (within : Within limits stream)
    (fits : limits.maxManifestBytes.toNat + 1 < 2 ^ 64) {front back : List Entry}
    (split : stream.entries = front ++ entry :: back) (indexed : Indexed codec limits front s) :
    ∃ s', indexEntry codec limits s entry = .ok s' := by
  have bytes : s.position + entry.span ≤ limits.maxTotalBytes.toNat := by
    have total := within.bytes
    simp only [Stream.length, split, map_append, map_cons, List.sum_append, sum_cons] at total
    rw [indexed.position]
    omega
  have room : s.count + 1 ≤ limits.maxEntries.toNat := by
    have total := within.entries
    simp only [split, length_append, length_cons] at total
    rw [indexed.count]
    omega
  have span := span_bounds entry
  have header : s.position + entry.header ≤ limits.maxTotalBytes.toNat := by omega
  rw [carries.entries] at split
  cases front with
  | nil =>
    obtain ⟨rfl, -⟩ := cons.inj split
    obtain ⟨file, decoded⟩ := carries.isFile mem_cons_self
    have fresh : manifestPath ∉ s.seen := by simp [indexed.seen]
    have read : readManifestEntry limits (s.position + first.header) first = .ok first.content :=
      readManifestEntry_of_fits fits (length_of_decodeManifest carries.inventory.manifest) (by omega)
    rw [indexEntry_of_fits header room file decoded]
    exact ⟨_, indexFile_manifest fresh read⟩
  | cons e _ =>
    obtain ⟨rfl, others⟩ := cons.inj split
    obtain ⟨before, _, restSplit, rfl, tail⟩ := map_eq_append_iff.1 others
    obtain ⟨⟨path, entry⟩, _, rfl, rfl, -⟩ := map_eq_cons_iff.1 tail
    have listed : (path, entry) ∈ rest := by simp [restSplit]
    obtain ⟨file, decoded⟩ := carries.isFile (mem_cons_of_mem _ listed)
    obtain ⟨_, classified, source⟩ := valid.source
      ((carries.inventory.named path).1 (mem_map_of_mem listed))
    have fresh := carries.fresh valid restSplit indexed
    have second : s.manifest ≠ none := by
      intro none
      have mem : (manifestPath, first) ∈ namedFiles codec (first :: before.map snd) :=
        mem_namedFiles.2 ⟨mem_cons_self, carries.isFile mem_cons_self⟩
      rw [indexed.none none] at mem
      cases mem
    rw [indexEntry_of_fits header room file decoded]
    exact ⟨_, indexFile_other classified source.ne_manifest fresh second⟩

end Complete

theorem inspectBundle_of_carries {summary : ManifestSummary}
    (validated : validateManifest codec m limits = .ok summary)
    (carries : Carries codec limits stream m first rest) (within : Within limits stream)
    (fits : limits.maxManifestBytes.toNat + 1 < 2 ^ 64) :
    inspectBundle codec stream limits = .ok ⟨m, codec.sha256Hex first.content, summary⟩ := by
  have valid := valid_of_validateManifest validated
  obtain ⟨s, run, indexed⟩ := succeeds (Indexed codec limits)
    (fun _ _ _ _ indexed ok => indexed.step (step_of_indexEntry ok)) indexed_start
    (fun _ _ _ _ split indexed => carries.next valid within fits split indexed)
  obtain ⟨head, read, plain⟩ := carries.plain
  refine inspectBundle_ok.2 ⟨⟨first.content, s.files⟩, ?_, carries.inventory.manifest, validated,
    crossCheck_of_reconciled (carries.inventory.reconciled indexed), rfl⟩
  exact indexBundle_ok.2 ⟨head, s, read, plain, run, carries.finish within fits indexed⟩

/-- What is accepted is sound, and what a valid manifest describes is accepted if and only if the limit
of the manifest is not the greatest number of its type. -/
theorem bundle_inspection_exact (codec : Codec) (limits : BundleLimits) (stream : Stream) :
    (∀ inspected, inspectBundle codec stream limits = .ok inspected →
      Sound codec limits stream inspected) ∧
    ∀ m summary first rest, validateManifest codec m limits = .ok summary →
      Carries codec limits stream m first rest → Within limits stream →
      (inspectBundle codec stream limits = .ok ⟨m, codec.sha256Hex first.content, summary⟩ ↔
        limits.maxManifestBytes.toNat + 1 < 2 ^ 64) :=
  ⟨fun _ => sound_of_inspectBundle, fun _ _ _ _ validated carries within =>
    ⟨fits_of_inspectBundle, inspectBundle_of_carries validated carries within⟩⟩

/-! ### A bundle of one repository -/

def asciiBytes (s : Text) : List UInt8 := s.map fun c => c.toNat.toUInt8

/-- A file with a header of one block. -/
def plainFile (path content : Text) : Entry :=
  ⟨.regular, asciiBytes path, _, asciiBytes content, rfl, 512⟩

def libsManifest : BundleManifest where
  format := bundleFormat
  schemaVersion := 1
  producer := ⟨"artifact-keeper", "1.11.0"⟩
  kind := .full
  sequence := none
  volumeSet := ⟨1, none⟩
  repositories :=
    [⟨"libs", "maven", "local", "repos/libs/repo.json", "repos/libs/artifacts.json", none⟩]
  items := []
  scanEvidence := []
  signing := none

def libsText : Text :=
  "\x7b\"format\":\"akbundle\",\"schema_version\":1," ++
  "\"bundle_id\":" ++
  "\"00000000-0000-0000-0000-000000000000\"," ++
  "\"created_at\":\"2026-10-01T00:00:00Z\"," ++
  "\"producer\":\x7b\"product\":\"artifact-keeper\"," ++
  "\"version\":\"1.11.0\"\x7d,\"kind\":\"full\"," ++
  "\"volume_set\":\x7b\"set_id\":" ++
  "\"00000000-0000-0000-0000-000000000000\"," ++
  "\"media_profile\":\"unbounded\",\"volume_count\":1\x7d," ++
  "\"repositories\":[\x7b\"key\":\"libs\"," ++
  "\"format\":\"maven\",\"repo_type\":\"local\"," ++
  "\"metadata_path\":\"repos/libs/repo.json\"," ++
  "\"artifacts_path\":\"repos/libs/artifacts.json\"\x7d]," ++
  "\"items\":[]\x7d"

def libsCodec : Codec where
  debug s := '\x22' :: s ++ ['\x22']
  fromUtf8 bytes :=
    if bytes.all (· < 128) then some (bytes.map fun b => Char.ofNat b.toNat) else none
  fromUtf8Lossy bytes := bytes.map fun b => Char.ofNat b.toNat
  readEnvelope bytes :=
    if bytes = asciiBytes libsText then .ok ⟨some (.string bundleFormat), some (.unsigned 1)⟩
    else .error []
  readManifest bytes := if bytes = asciiBytes libsText then .ok libsManifest else .error []
  sha256Hex _ := []

def libsFirst : Entry := plainFile manifestPath libsText

def libsRest : List (Text × Entry) :=
  [("repos/libs/repo.json", plainFile "repos/libs/repo.json" "\x7b\x7d"),
    ("repos/libs/artifacts.json", plainFile "repos/libs/artifacts.json" "[]")]

def libsStream : Stream :=
  ⟨.ok (asciiBytes "manife"), libsFirst :: libsRest.map snd, 1024, none⟩

variable {maxManifestBytes : UInt64}

def libsLimits (maxManifestBytes : UInt64) : BundleLimits :=
  ⟨maxManifestBytes, 2000000, 4000000, 4398046511104⟩

theorem namedFiles_map_snd {files : List (Text × Entry)}
    (all : ∀ file ∈ files, file.2.isFile = true ∧ codec.fromUtf8 file.2.pathBytes = some file.1) :
    namedFiles codec (files.map snd) = files := by
  induction files with
  | nil => rfl
  | cons file _ ih =>
    obtain ⟨isFile, decoded⟩ := all file mem_cons_self
    have rest := ih fun other mem => all other (mem_cons_of_mem _ mem)
    rw [namedFiles] at rest ⊢
    rw [map_cons, filterMap_cons, isFile, if_pos rfl, decoded, rest]
    rfl

theorem length_libsText : (asciiBytes libsText).length < 512 := by decide +kernel

theorem decodeManifest_libs (room : 512 ≤ maxManifestBytes.toNat) :
    decodeManifest libsCodec (asciiBytes libsText) (libsLimits maxManifestBytes) = .ok libsManifest := by
  have envelope : libsCodec.readEnvelope (asciiBytes libsText) =
      .ok ⟨some (.string bundleFormat), some (.unsigned 1)⟩ := by simp [libsCodec]
  have manifest : libsCodec.readManifest (asciiBytes libsText) = .ok libsManifest := by
    simp [libsCodec]
  have small : ¬(libsLimits maxManifestBytes).maxManifestBytes.toNat < (asciiBytes libsText).length :=
    not_lt.2 (le_trans length_libsText.le room)
  rw [decodeManifest, if_neg small, if_neg (by decide +kernel), envelope, manifest]
  rfl

theorem carries_libs (room : 512 ≤ maxManifestBytes.toNat) :
    Carries libsCodec (libsLimits maxManifestBytes) libsStream libsManifest libsFirst libsRest where
  inventory :=
    { files := by
        have all : ∀ file ∈ (manifestPath, libsFirst) :: libsRest, file.2.isFile = true ∧
            libsCodec.fromUtf8 file.2.pathBytes = some file.1 := by decide +kernel
        exact namedFiles_map_snd all
      manifest := decodeManifest_libs room
      once := by decide +kernel
      named := by simp [libsRest, Named, metadataPaths, libsManifest]
      sizes := by simp [libsManifest] }
  entries := rfl
  plain := ⟨_, rfl, by decide +kernel⟩
  whole := rfl

theorem span_plainFile (path : Text) {content : Text} (small : (asciiBytes content).length ≤ 512) :
    (plainFile path content).span ≤ 1024 := by
  simp only [plainFile, Entry.span]
  omega

theorem within_libs : Within (libsLimits maxManifestBytes) libsStream := by
  have first : libsFirst.span ≤ 1024 := span_plainFile _ length_libsText.le
  have others : ((libsRest.map snd).map Entry.span).sum ≤ 2048 := by decide +kernel
  have trailer : libsStream.trailer ≤ 1024 := by decide
  have spans : libsStream.entries.map Entry.span =
      libsFirst.span :: (libsRest.map snd).map Entry.span := rfl
  refine ⟨?_, show 3 ≤ (4000000 : UInt64).toNat by decide⟩
  calc libsStream.length
      = libsFirst.span + ((libsRest.map snd).map Entry.span).sum + libsStream.trailer := by
        rw [Stream.length, spans, sum_cons]
    _ ≤ 1024 + 2048 + 1024 := Nat.add_le_add (Nat.add_le_add first others) trailer
    _ ≤ (4398046511104 : UInt64).toNat := by decide

theorem bundle_inspection_exact_libs :
    inspectBundle libsCodec libsStream (libsLimits 268435456) =
      .ok ⟨libsManifest, [], ⟨1, 0, 0, 0, 0⟩⟩ ∧
    ∃ inspected, Sound libsCodec (libsLimits 268435456) libsStream inspected := by
  have exact := bundle_inspection_exact libsCodec (libsLimits 268435456) libsStream
  have accepted := (exact.2 libsManifest ⟨1, 0, 0, 0, 0⟩ libsFirst libsRest (by decide +kernel)
    (carries_libs (by decide)) within_libs).2 (by decide)
  exact ⟨accepted, _, exact.1 _ accepted⟩

/-- With the greatest limit nothing of the manifest is read. -/
theorem bundle_inspection_incomplete :
    let limits := libsLimits 18446744073709551615
    validateManifest libsCodec libsManifest limits = .ok ⟨1, 0, 0, 0, 0⟩ ∧
      Carries libsCodec limits libsStream libsManifest libsFirst libsRest ∧ Within limits libsStream ∧
      ∀ inspected, inspectBundle libsCodec libsStream limits ≠ .ok inspected := by
  refine ⟨by decide +kernel, carries_libs (by decide), within_libs, fun inspected ok => ?_⟩
  have fits := fits_of_inspectBundle ok
  revert fits
  decide

end ArtifactKeeper.Bundle
