import ArtifactKeeper.Bundle.Manifest
import Std.Data.TreeMap

/-!
# The entries of a bundle

`indexBundle` walks the headers of a tar stream.  It accepts directories and files of the layout only,
each path once, with the manifest as the first file, and records the sizes of all other files
(`Indexed`).
-/

namespace ArtifactKeeper.Bundle

open Text List Prod Fallible

/-! ### The stream -/

inductive EntryType
  | regular
  | link
  | symlink
  | char
  | block
  | directory
  | fifo
  | continuous
  | gnuLongName
  | gnuLongLink
  | gnuSparse
  | xGlobalHeader
  | xHeader
  | other (byte : UInt8)
deriving DecidableEq

def EntryType.debug : EntryType → Text
  | .regular => "Regular"
  | .link => "Link"
  | .symlink => "Symlink"
  | .char => "Char"
  | .block => "Block"
  | .directory => "Directory"
  | .fifo => "Fifo"
  | .continuous => "Continuous"
  | .gnuLongName => "GNULongName"
  | .gnuLongLink => "GNULongLink"
  | .gnuSparse => "GNUSparse"
  | .xGlobalHeader => "XGlobalHeader"
  | .xHeader => "XHeader"
  | .other byte => "__Nonexhaustive(" ++ decimal byte.toNat ++ ")"

/-- An entry as the tar reader yields it, and how many bytes of the stream its header takes. -/
structure Entry where
  entryType : EntryType
  pathBytes : List UInt8
  size : ℕ
  content : List UInt8
  complete : content.length = size
  header : ℕ
deriving DecidableEq

variable (entry : Entry)

def Entry.isDir : Bool := entry.entryType = .directory

def Entry.isFile : Bool :=
  entry.entryType = .regular || entry.entryType = .continuous

/-- The bytes of the stream an entry takes; contents are padded to blocks. -/
def Entry.span : ℕ := entry.header + (entry.size + 511) / 512 * 512

/-- What the tar reader makes of a stream: the bytes at its beginning, the entries, and the bytes that
are read behind them until the end or a failure. -/
structure Stream where
  head : Except Text (List UInt8)
  entries : List Entry
  trailer : ℕ
  failure : Option Text

def Stream.length (stream : Stream) : ℕ := (stream.entries.map Entry.span).sum + stream.trailer

/-! ### The index -/

def wrapperMagic : List (List UInt8 × Text) :=
  [([0x1f, 0x8b], "gzip"), ([0x28, 0xb5, 0x2f, 0xfd], "zstd"),
    ([0xfd, 0x37, 0x7a, 0x58, 0x5a, 0x00], "xz"), ([0x42, 0x5a, 0x68], "bzip2"),
    ([0x50, 0x4b, 0x03, 0x04], "zip")]

def refuseCompressedPrefix (head : List UInt8) : Except BundleError Unit :=
  match wrapperMagic.find? (·.1.isPrefixOf head) with
  | some (_, name) => .error (.compressed name)
  | none => .ok ()

structure BundleIndex where
  manifest : List UInt8
  files : Std.TreeMap Text ℕ

structure IndexState where
  manifest : Option (List UInt8) := none
  files : Std.TreeMap Text ℕ := {}
  seen : List Text := []
  count : ℕ := 0
  position : ℕ := 0

def IndexState.advance (s : IndexState) (entry : Entry) : IndexState :=
  { s with count := s.count + 1, position := s.position + entry.span }

section Code

variable (codec : Codec) (limits : BundleLimits)

def streamTooLarge : BundleError :=
  .limitExceeded ("bundle stream is larger than " ++ decimal limits.maxTotalBytes.toNat ++ " bytes")

def readManifestEntry (start : ℕ) (entry : Entry) : Except BundleError (List UInt8) :=
  -- The sum wraps around in a release build.
  let buf := entry.content.take (limits.maxManifestBytes + 1).toNat
  if limits.maxTotalBytes.toNat < start + buf.length then .error (streamTooLarge limits)
  else if limits.maxManifestBytes.toNat < buf.length then .error (manifestTooLarge limits)
  else .ok buf

def dirName (path : Text) : Text := (stripSuffix path ['/']).getD path

def indexDirectory (s : IndexState) (path : Text) : Except BundleError IndexState := do
  let dir := dirName path
  checkDirectory dir
  if dir ∈ s.seen then .error (.duplicateEntry dir) else .ok { s with seen := dir :: s.seen }

def indexFile (start : ℕ) (s : IndexState) (path : Text) (entry : Entry) :
    Except BundleError IndexState := do
  let kind ← classifyFile path
  if path ∈ s.seen then .error (.duplicateEntry path)
  else if s.manifest.isNone && kind != .manifest then
    .error (.invalid (manifestPath ++ " must be the first file in the bundle, found " ++
      codec.debug path))
  else if kind = .manifest then
    let manifest ← readManifestEntry limits start entry
    .ok { s with seen := path :: s.seen, manifest := some manifest }
  else .ok { s with seen := path :: s.seen, files := s.files.insert path entry.size }

/-- An entry that is neither a directory nor a file. -/
def refuseEntry (path : Text) (entry : Entry) : Except BundleError IndexState := do
  let _ ← classifyFile path
  .error (.disallowedEntryType path entry.entryType.debug)

def indexEntry (s : IndexState) (entry : Entry) : Except BundleError IndexState :=
  if limits.maxTotalBytes.toNat < s.position + entry.header then .error (streamTooLarge limits)
  else if limits.maxEntries.toNat < s.count + 1 then
    .error (.limitExceeded ("bundle has more than " ++ decimal limits.maxEntries.toNat ++
      " entries"))
  else
    match codec.fromUtf8 entry.pathBytes with
    | none => .error (.unsafePath (codec.fromUtf8Lossy entry.pathBytes) "path is not UTF-8")
    | some path =>
      if entry.isDir then indexDirectory (s.advance entry) path
      else if entry.isFile then
        indexFile codec limits (s.position + entry.header) (s.advance entry) path entry
      else refuseEntry path entry

def finishIndex (stream : Stream) (s : IndexState) : Except BundleError BundleIndex :=
  if limits.maxTotalBytes.toNat < s.position + stream.trailer then .error (streamTooLarge limits)
  else
    match stream.failure with
    | some e => .error (.invalidArchive e)
    | none =>
      match s.manifest with
      | none => .error (.invalid ("bundle has no " ++ manifestPath))
      | some manifest => .ok ⟨manifest, s.files⟩

def indexBundle (stream : Stream) : Except BundleError BundleIndex := do
  let head ← stream.head.mapError .invalidArchive
  refuseCompressedPrefix head
  let s ← stream.entries.foldlM (indexEntry codec limits) {}
  finishIndex limits stream s

end Code

/-! ### What a step does -/

variable {codec : Codec} {limits : BundleLimits} {s s' : IndexState} {entry} {path : Text}

inductive Step (codec : Codec) (limits : BundleLimits) (s : IndexState) (entry : Entry) :
    IndexState → Prop
  | directory {path : Text} (dir : entry.isDir = true)
      (decoded : codec.fromUtf8 entry.pathBytes = some path)
      (checked : checkDirectory (dirName path) = .ok ()) (fresh : dirName path ∉ s.seen) :
      Step codec limits s entry { s.advance entry with seen := dirName path :: s.seen }
  | manifest {bytes : List UInt8} (file : entry.isFile = true)
      (decoded : codec.fromUtf8 entry.pathBytes = some manifestPath) (fresh : manifestPath ∉ s.seen)
      (read : readManifestEntry limits (s.position + entry.header) entry = .ok bytes) :
      Step codec limits s entry
        { s.advance entry with seen := manifestPath :: s.seen, manifest := some bytes }
  | file {path : Text} {kind : BundleEntry} (file : entry.isFile = true)
      (decoded : codec.fromUtf8 entry.pathBytes = some path)
      (classified : classifyFile path = .ok kind) (other : path ≠ manifestPath)
      (fresh : path ∉ s.seen) (second : s.manifest ≠ none) :
      Step codec limits s entry
        { s.advance entry with seen := path :: s.seen, files := s.files.insert path entry.size }

theorem isDir_of_isFile (file : entry.isFile = true) : entry.isDir = false := by
  simp only [Entry.isFile, Bool.or_eq_true, decide_eq_true_eq] at file
  rcases file with same | same <;> simp [Entry.isDir, same]

theorem Layout.parts_of_manifest {parts : List Text} (layout : Layout .manifest parts) :
    parts = [manifestPath] := by
  cases layout
  rfl

theorem classifyFile_eq_manifest_iff : classifyFile path = .ok .manifest ↔ path = manifestPath := by
  constructor
  · intro classified
    rw [← join_splitOn '/' path, (classifyFile_ok.1 classified).2.parts_of_manifest, join_singleton]
  · rintro rfl
    exact classifyFile_manifestPath

theorem step_of_indexDirectory (dir : entry.isDir = true)
    (decoded : codec.fromUtf8 entry.pathBytes = some path)
    (ok : indexDirectory (s.advance entry) path = .ok s') : Step codec limits s entry s' := by
  obtain ⟨_, checked, ok⟩ := bind_eq_ok.1 ok
  split_ifs at ok with duplicate
  cases ok
  exact .directory dir decoded checked duplicate

theorem step_of_indexFile (file : entry.isFile = true)
    (decoded : codec.fromUtf8 entry.pathBytes = some path)
    (ok : indexFile codec limits (s.position + entry.header) (s.advance entry) path entry = .ok s') :
    Step codec limits s entry s' := by
  obtain ⟨_, classified, ok⟩ := bind_eq_ok.1 ok
  split_ifs at ok with duplicate early manifest
  · subst manifest
    obtain rfl := classifyFile_eq_manifest_iff.1 classified
    obtain ⟨_, read, ok⟩ := bind_eq_ok.1 ok
    cases ok
    exact .manifest file decoded duplicate read
  · cases ok
    refine .file file decoded classified ?_ duplicate ?_
    · rintro rfl
      exact manifest (Except.ok.inj (classified.symm.trans classifyFile_manifestPath))
    · intro none
      exact early (by simpa [IndexState.advance, none] using manifest)

theorem step_of_indexEntry (ok : indexEntry codec limits s entry = .ok s') :
    Step codec limits s entry s' := by
  unfold indexEntry at ok
  split at ok; · cases ok
  split at ok; · cases ok
  split at ok; · cases ok
  rename_i path decoded
  split_ifs at ok with dir file
  · exact step_of_indexDirectory dir decoded ok
  · exact step_of_indexFile file decoded ok
  · obtain ⟨_, _, ok⟩ := bind_eq_ok.1 ok
    cases ok

theorem indexEntry_of_fits (bytes : s.position + entry.header ≤ limits.maxTotalBytes.toNat)
    (room : s.count + 1 ≤ limits.maxEntries.toNat) (file : entry.isFile = true)
    (decoded : codec.fromUtf8 entry.pathBytes = some path) :
    indexEntry codec limits s entry =
      indexFile codec limits (s.position + entry.header) (s.advance entry) path entry := by
  rw [indexEntry, if_neg (Nat.not_lt.2 bytes), if_neg (Nat.not_lt.2 room), decoded]
  dsimp only
  rw [isDir_of_isFile file, if_neg Bool.false_ne_true, if_pos file]

/-! ### What the loop keeps -/

variable (codec)

def namedFiles (entries : List Entry) : List (Text × Entry) :=
  entries.filterMap fun entry =>
    if entry.isFile then (codec.fromUtf8 entry.pathBytes).map (·, entry) else none

def entryName (entry : Entry) : Option Text :=
  (codec.fromUtf8 entry.pathBytes).map fun path => if entry.isDir then dirName path else path

/-- An entry that is a directory or a file with a path that stays below the root. -/
structure Accepted (entry : Entry) : Prop where
  type : entry.isDir = true ∨ entry.isFile = true
  path : ∃ name, entryName codec entry = some name ∧ Contained name

structure Indexed (limits : BundleLimits) (done : List Entry) (s : IndexState) : Prop where
  count : s.count = done.length
  position : s.position = (done.map Entry.span).sum
  accepted : ∀ entry ∈ done, Accepted codec entry
  seen : ∀ name, name ∈ s.seen ↔ ∃ entry ∈ done, entryName codec entry = some name
  distinct : ((namedFiles codec done).map fst).Nodup
  files : ∀ path size, s.files[path]? = some size ↔
    ∃ entry, (path, entry) ∈ namedFiles codec done ∧ path ≠ manifestPath ∧ entry.size = size
  none : s.manifest = none → namedFiles codec done = []
  manifest : ∀ bytes, s.manifest = some bytes → ∃ entry rest start,
    namedFiles codec done = (manifestPath, entry) :: rest ∧
      readManifestEntry limits start entry = .ok bytes

variable {codec}

theorem mem_namedFiles {entries : List Entry} :
    (path, entry) ∈ namedFiles codec entries ↔
      entry ∈ entries ∧ entry.isFile = true ∧ codec.fromUtf8 entry.pathBytes = some path := by
  simp only [namedFiles, mem_filterMap, Option.ite_none_right_eq_some, Option.map_eq_some_iff,
    mk.injEq]
  constructor
  · rintro ⟨_, mem, file, _, decoded, rfl, rfl⟩
    exact ⟨mem, file, decoded⟩
  · rintro ⟨mem, file, decoded⟩
    exact ⟨entry, mem, file, path, decoded, rfl, rfl⟩

theorem namedFiles_append_file {done : List Entry} (file : entry.isFile = true)
    (decoded : codec.fromUtf8 entry.pathBytes = some path) :
    namedFiles codec (done ++ [entry]) = namedFiles codec done ++ [(path, entry)] := by
  simp [namedFiles, file, decoded]

theorem namedFiles_append_directory {done : List Entry} (dir : entry.isDir = true) :
    namedFiles codec (done ++ [entry]) = namedFiles codec done := by
  have other : entry.isFile = false := by
    by_contra file
    rw [isDir_of_isFile (by simpa using file)] at dir
    cases dir
  simp [namedFiles, other]

theorem entryName_of_isFile (file : entry.isFile = true)
    (decoded : codec.fromUtf8 entry.pathBytes = some path) : entryName codec entry = some path := by
  simp [entryName, decoded, isDir_of_isFile file]

theorem entryName_of_isDir (dir : entry.isDir = true)
    (decoded : codec.fromUtf8 entry.pathBytes = some path) :
    entryName codec entry = some (dirName path) := by
  simp [entryName, decoded, dir]

section

variable (step : Step codec limits s entry s')
include step

theorem Step.name :
    ∃ name, entryName codec entry = some name ∧ Contained name ∧ s'.seen = name :: s.seen := by
  cases step with
  | directory dir decoded checked =>
    exact ⟨_, entryName_of_isDir dir decoded, contained_of_checkDirectory checked, rfl⟩
  | manifest file decoded =>
    exact ⟨_, entryName_of_isFile file decoded,
      contained_of_classifyFile classifyFile_manifestPath, rfl⟩
  | file file decoded classified =>
    exact ⟨_, entryName_of_isFile file decoded, contained_of_classifyFile classified, rfl⟩

theorem Step.type : entry.isDir = true ∨ entry.isFile = true := by
  cases step with
  | directory dir => exact .inl dir
  | manifest file | file file => exact .inr file

theorem Step.count : s'.count = s.count + 1 := by
  cases step <;> rfl

theorem Step.position : s'.position = s.position + entry.span := by
  cases step <;> rfl

end

section Run

variable {done : List Entry}

section

variable (indexed : Indexed codec limits done s)
include indexed

theorem Indexed.mem_seen (named : path ∈ (namedFiles codec done).map fst) : path ∈ s.seen := by
  obtain ⟨⟨_, entry⟩, mem, rfl⟩ := mem_map.1 named
  obtain ⟨listed, file, decoded⟩ := mem_namedFiles.1 mem
  exact (indexed.seen _).2 ⟨entry, listed, entryName_of_isFile file decoded⟩

theorem Indexed.distinct_append (fresh : path ∉ s.seen) :
    ((namedFiles codec done ++ [(path, entry)]).map fst).Nodup := by
  rw [map_append, map_singleton, ← concat_eq_append]
  exact indexed.distinct.concat fun mem => fresh (indexed.mem_seen mem)

theorem Indexed.namedFiles_eq_nil (fresh : manifestPath ∉ s.seen) : namedFiles codec done = [] := by
  cases read : s.manifest with
  | none => exact indexed.none read
  | some bytes =>
    obtain ⟨_, _, _, files, -⟩ := indexed.manifest bytes read
    exact absurd (indexed.mem_seen (by simp [files])) fresh

theorem Indexed.files_insert (fresh : path ∉ s.seen) (other : path ≠ manifestPath) (p : Text)
    (size : ℕ) :
    (s.files.insert path entry.size)[p]? = some size ↔
      ∃ e, (p, e) ∈ namedFiles codec done ++ [(path, entry)] ∧ p ≠ manifestPath ∧ e.size = size := by
  simp only [Std.TreeMap.getElem?_insert, Std.LawfulEqCmp.compare_eq_iff_eq]
  by_cases same : path = p
  · subst same
    have new : ∀ e, (path, e) ∉ namedFiles codec done := fun e mem =>
      fresh (indexed.mem_seen (mem_map_of_mem mem))
    simp [new, other]
  · rw [if_neg same, indexed.files]
    simp [Ne.symm same]

theorem Indexed.step (step : Step codec limits s entry s') :
    Indexed codec limits (done ++ [entry]) s' := by
  obtain ⟨name, entryName_eq, contained, seen⟩ := step.name
  have accepted : ∀ e ∈ done ++ [entry], Accepted codec e := by
    intro e mem
    rcases mem_append.1 mem with old | new
    · exact indexed.accepted e old
    · rw [mem_singleton.1 new]
      exact ⟨step.type, name, entryName_eq, contained⟩
  have names : ∀ n, n ∈ s'.seen ↔ ∃ e ∈ done ++ [entry], entryName codec e = some n := by
    intro n
    simp [seen, indexed.seen, entryName_eq, or_comm, eq_comm]
  have count : s'.count = (done ++ [entry]).length := by simp [step.count, indexed.count]
  have position : s'.position = ((done ++ [entry]).map Entry.span).sum := by
    simp [step.position, indexed.position]
  cases step with
  | directory dir =>
    have same : namedFiles codec (done ++ [entry]) = namedFiles codec done :=
      namedFiles_append_directory dir
    refine ⟨count, position, accepted, names, ?_, ?_, ?_, ?_⟩
    all_goals rw [same]
    · exact indexed.distinct
    · exact indexed.files
    · exact indexed.none
    · exact indexed.manifest
  | manifest file decoded fresh read =>
    have files : namedFiles codec (done ++ [entry]) = [(manifestPath, entry)] := by
      rw [namedFiles_append_file file decoded, indexed.namedFiles_eq_nil fresh, nil_append]
    refine ⟨count, position, accepted, names, ?_, fun p size => ?_, nofun, ?_⟩
    · rw [files]
      exact nodup_singleton _
    · have before := indexed.files p size
      rw [indexed.namedFiles_eq_nil fresh] at before
      rw [files]
      refine before.trans ⟨by simp, ?_⟩
      rintro ⟨e, mem, other, -⟩
      exact absurd (mk.inj (mem_singleton.1 mem)).1 other
    · rintro _ ⟨⟩
      exact ⟨entry, [], _, files, read⟩
  | @file path _ file decoded _ other fresh second =>
    have files : namedFiles codec (done ++ [entry]) = namedFiles codec done ++ [(path, entry)] :=
      namedFiles_append_file file decoded
    refine ⟨count, position, accepted, names, ?_, ?_, fun none => absurd none second, ?_⟩
    all_goals rw [files]
    · exact indexed.distinct_append fresh
    · exact indexed.files_insert fresh other
    · intro bytes present
      obtain ⟨first, rest, start, before, read⟩ := indexed.manifest bytes present
      exact ⟨first, rest ++ [(path, entry)], start, by rw [before, cons_append], read⟩

end

theorem indexed_start : Indexed codec limits [] {} := by
  refine ⟨rfl, rfl, by simp, by simp, by simp [namedFiles], ?_, by simp [namedFiles], nofun⟩
  simp [namedFiles]

theorem indexed_run {entries : List Entry}
    (run : entries.foldlM (indexEntry codec limits) {} = .ok s) : Indexed codec limits entries s :=
  invariant (Indexed codec limits)
    (fun _ _ _ _ indexed ok => indexed.step (step_of_indexEntry ok)) indexed_start run

end Run

end ArtifactKeeper.Bundle
