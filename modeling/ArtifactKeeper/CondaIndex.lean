import ArtifactKeeper.CondaMerge
import ArtifactKeeper.Library.Fallible

/-!
# The current index of a conda channel

`derive` keeps the newest records of every package and then, from a stack of kept records, the newest
records that meet a dependency which no kept record meets.
-/

namespace ArtifactKeeper.CondaIndex

open CondaMerge Text List

structure MatchSpec where
  /-- The name, unless it is a pattern. -/
  name : Option Text
  version : Option (Text → Bool)
  build : Option (Text → Bool)

structure RecordFields where
  name : Option Text
  version : Option Text
  build : Option Text
  depends : List Text

/-- The readers of records, versions and dependencies. -/
structure Libraries (V Raw : Type) where
  fields : Raw → Except Text RecordFields
  parseVersion : Text → Option V
  matchSpec : Text → Option MatchSpec

/-- The maps `packages` and `packages.conda`. -/
structure Repodata (Raw : Type) where
  entries : Bool → List (Text × Raw)
  distinct : ∀ v2, ((entries v2).map Prod.fst).Nodup

/-- A record stands for its index, and `name` is the key that lists it in the map of names. -/
structure Record (V : Type) where
  v2 : Bool
  filename : Text
  name : Text
  /-- The text and its place in the order of versions. -/
  version : Option (Text × V)
  build : Text
  depends : List Text
  deriving DecidableEq

variable {V Raw : Type} [LinearOrder V] (libs : Libraries V Raw) (records : List (Record V))

def satisfies (spec : MatchSpec) (record : Record V) : Bool :=
  (match spec.version, record.version with
    | none, _ => true
    | some vs, some v => vs v.1
    | some _, none => false) && spec.build.all (· record.build)

def Record.place (r : Record V) : Option V := r.version.map Prod.snd

def newest (candidates : List (Record V)) : List (Record V) :=
  match (candidates.filterMap (·.place)).max? with
  | some max => candidates.filter (·.place = some max)
  | none => candidates

def readRecord (entry : Bool × Text × Raw) : Except Text (List (Record V)) :=
  match libs.fields entry.2.2 with
  | .error reason => .error ("record " ++ entry.2.1 ++ " does not parse: " ++ reason)
  | .ok fields =>
    match fields.name.or (condaNameFromFilename entry.2.1) with
    | none => .ok records
    | some name =>
      let version := fields.version.bind fun v => (libs.parseVersion v).map (v, ·)
      .ok (records ++ [⟨entry.1, entry.2.1, toAsciiLowercase name, version, fields.build.getD [],
        fields.depends⟩])

def readRecords (doc : Repodata Raw) : Except Text (List (Record V)) :=
  ([false, true].flatMap fun v2 => (doc.entries v2).map (v2, ·)).foldlM (readRecord libs) []

/-- What a dependency with an exact name asks of a record. -/
def asks (dep : Text) : Option (Record V → Bool) :=
  (libs.matchSpec dep).bind fun spec => spec.name.map fun name record =>
    record.name = toAsciiLowercase name && satisfies spec record

structure Walk (V : Type) where
  kept : List (Record V)
  queue : List (Record V)

def Walk.insert (w : Walk V) (r : Record V) : Walk V :=
  if r ∈ w.kept then w else ⟨r :: w.kept, r :: w.queue⟩

def visit (w : Walk V) (dep : Text) : Walk V :=
  match asks libs dep with
  | none => w
  | some meets =>
    if w.kept.any meets then w else (newest (records.filter meets)).foldl Walk.insert w

/-- The loop, which gives up if the queue is not empty after so many records. -/
def drain : ℕ → Walk V → Option (List (Record V))
  | _, ⟨kept, []⟩ => some kept
  | 0, _ => none
  | fuel + 1, ⟨kept, r :: queue⟩ =>
    drain fuel (r.depends.foldl (visit libs records) ⟨kept, queue⟩)

variable (order : List Text)

/-- The newest records of every name, where `order` is the order of the map of names. -/
def newestOfNames : List (Record V) :=
  order.flatMap fun name => newest (records.filter (·.name = name))

def keep : Option (List (Record V)) :=
  let first := newestOfNames records order
  drain libs records (first.length + records.length) ⟨first, first.reverse⟩

def select (doc : Repodata Raw) (kept : List (Record V)) : Repodata Raw where
  entries v2 := (doc.entries v2).filter fun e => kept.any fun r => r.v2 = v2 && r.filename = e.1
  distinct v2 := (doc.distinct v2).sublist (filter_sublist.map _)

def derive (doc : Repodata Raw) : Except Text (Option (Repodata Raw)) := do
  let records ← readRecords libs doc
  return (keep libs records order).map (select doc)

/-! ### Newest records -/

variable {libs} {records} {kept kept' : List (Record V)} {r k : Record V} {w w' : Walk V} {dep : Text}

theorem newest_subset (candidates : List (Record V)) : newest candidates ⊆ candidates := by
  unfold newest
  split
  · exact filter_sublist.subset
  · exact Subset.refl _

theorem newest_ne_nil {candidates : List (Record V)} (mem : r ∈ candidates) :
    newest candidates ≠ [] := by
  unfold newest
  split
  · next max found =>
    obtain ⟨k, inside, version⟩ := mem_filterMap.1 (max?_eq_some_iff.1 found).1
    exact ne_nil_of_mem (mem_filter.2 ⟨inside, decide_eq_true version⟩)
  · exact ne_nil_of_mem mem

/-- No record of the name has a newer version, or none has a version that parses. -/
def IsNewest (records : List (Record V)) (r : Record V) : Prop :=
  (∀ k ∈ records, k.name = r.name → k.place = none) ∨
    ∃ v, r.place = some v ∧ ∀ k ∈ records, k.name = r.name → ∀ u, k.place = some u → u ≤ v

def IsFirst (records : List (Record V)) (r : Record V) : Prop :=
  r ∈ newest (records.filter (·.name = r.name))

theorem IsNewest.isFirst (isNewest : IsNewest records r) (mem : r ∈ records) : IsFirst records r := by
  have inside : r ∈ records.filter (·.name = r.name) := mem_filter.2 ⟨mem, by simp⟩
  unfold IsFirst newest
  split
  · next max found =>
    obtain ⟨mem, above⟩ := max?_eq_some_iff.1 found
    obtain ⟨k, listed, version⟩ := mem_filterMap.1 mem
    obtain ⟨known, same⟩ := mem_filter.1 listed
    have named := of_decide_eq_true same
    rcases isNewest with nothing | ⟨v, parsed, greatest⟩
    · rw [nothing k known named] at version
      cases version
    · have least := above v (mem_filterMap.2 ⟨r, inside, parsed⟩)
      refine mem_filter.2 ⟨inside, decide_eq_true ?_⟩
      rw [parsed, le_antisymm least (greatest k known named max version)]
  · exact inside

/-! ### One dependency -/

theorem mem_insert : k ∈ (w.insert r).kept ↔ k = r ∨ k ∈ w.kept := by
  unfold Walk.insert
  split_ifs with mem
  · exact ⟨.inr, fun h => h.elim (· ▸ mem) id⟩
  · exact mem_cons

theorem mem_foldl_insert {new : List (Record V)} :
    k ∈ (new.foldl Walk.insert w).kept ↔ k ∈ new ∨ k ∈ w.kept := by
  induction new generalizing w with
  | nil => simp
  | cons r _ ih => rw [foldl_cons, ih, mem_insert, mem_cons, or_left_comm, or_assoc]

/-- The records that are in the queue or may still come into it. -/
def Walk.work (records : List (Record V)) (w : Walk V) : ℕ :=
  w.queue.length + (records.filter (· ∉ w.kept)).length

structure Grown (records : List (Record V)) (w w' : Walk V) : Prop where
  kept : w.kept ⊆ w'.kept
  queue : w.queue ⊆ w'.queue
  new : ∀ k ∈ w'.kept, k ∈ w.kept ∨ k ∈ w'.queue
  old : ∀ k ∈ w'.queue, k ∈ w'.kept ∨ k ∈ w.queue
  work : w'.work records ≤ w.work records

theorem Grown.insert (grown : Grown records w w') (mem : r ∈ records) :
    Grown records w (w'.insert r) := by
  unfold Walk.insert
  split_ifs with old
  · exact grown
  refine ⟨fun k kept => .tail _ (grown.kept kept), fun k queued => .tail _ (grown.queue queued),
    fun k kept => ?_, fun k queued => ?_, le_trans ?_ grown.work⟩
  · rcases mem_cons.1 kept with rfl | kept
    · exact .inr (.head _)
    · exact (grown.new k kept).imp_right (.tail _)
  · rcases mem_cons.1 queued with rfl | queued
    · exact .inl (.head _)
    · exact (grown.old k queued).imp_left (.tail _)
  · have fewer : ((records.filter (· ∉ w'.kept)).filter (· ≠ r)).length <
        (records.filter (· ∉ w'.kept)).length :=
      length_filter_lt_length_iff_exists.2 ⟨r, mem_filter.2 ⟨mem, decide_eq_true old⟩, by simp⟩
    have same : records.filter (· ∉ r :: w'.kept) =
        (records.filter (· ∉ w'.kept)).filter (· ≠ r) := by
      simp [not_or]
    simp only [Walk.work, same, length_cons]
    omega

theorem Grown.visit (grown : Grown records w w') (dep : Text) :
    Grown records w (visit libs records w' dep) := by
  unfold CondaIndex.visit
  split
  · exact grown
  · split_ifs
    · exact grown
    · exact foldlRecOn _ _ grown fun _ grown r mem =>
        grown.insert (mem_of_mem_filter (newest_subset _ mem))

theorem grown_visits (libs : Libraries V Raw) (records : List (Record V)) (w : Walk V)
    (deps : List Text) :
    Grown records w (deps.foldl (visit libs records) w) :=
  foldlRecOn _ _ ⟨Subset.refl _, Subset.refl _, fun _ => .inl, fun _ => .inr, le_rfl⟩
    fun _ grown dep _ => grown.visit dep

/-- A kept record meets the dependency if any record does. -/
def Met (libs : Libraries V Raw) (records kept : List (Record V)) (dep : Text) : Prop :=
  ∀ meets, asks libs dep = some meets → (∃ k ∈ records, meets k = true) → ∃ k ∈ kept, meets k = true

omit [LinearOrder V] in
theorem Met.mono (met : Met libs records kept dep) (sub : kept ⊆ kept') :
    Met libs records kept' dep := by
  intro meets asked some
  obtain ⟨k, mem, fits⟩ := met meets asked some
  exact ⟨k, sub mem, fits⟩

theorem met_visit (dep : Text) : Met libs records (visit libs records w dep).kept dep := by
  rintro meets asked ⟨r, mem, fits⟩
  simp only [visit, asked]
  split_ifs with already
  · simpa using already
  · have listed : r ∈ records.filter meets := mem_filter.2 ⟨mem, fits⟩
    obtain ⟨k, new⟩ := exists_mem_of_ne_nil _ (newest_ne_nil listed)
    exact ⟨k, mem_foldl_insert.2 (.inl new), (mem_filter.1 (newest_subset _ new)).2⟩

theorem met_visits {deps : List Text} :
    ∀ dep ∈ deps, Met libs records (deps.foldl (visit libs records) w).kept dep := by
  induction deps generalizing w with
  | nil => nofun
  | cons first deps ih =>
    rintro dep (_ | ⟨_, mem⟩)
    · exact (met_visit first).mono (grown_visits _ _ _ deps).kept
    · exact ih dep mem

/-! ### Where a kept record comes from -/

variable (libs records)

/-- No newest record of a name meets the dependency. -/
def Adds (dep : Text) (meets : Record V → Bool) : Prop :=
  asks libs dep = some meets ∧ ∀ k, IsFirst records k → meets k = false

inductive Needed : Record V → Prop
  | first {k : Record V} (first : IsFirst records k) : Needed k
  | dependency {r k : Record V} {dep : Text} {meets : Record V → Bool}
      (needed : Needed r) (listed : dep ∈ r.depends)
      (adds : Adds libs records dep meets) (mem : k ∈ newest (records.filter meets)) :
      Needed k

/-- The record is kept with all that its dependency adds. -/
def Comes (kept : List (Record V)) (k : Record V) : Prop :=
  IsFirst records k ∨ ∃ r dep meets, Needed libs records r ∧ dep ∈ r.depends ∧
    Adds libs records dep meets ∧ k ∈ newest (records.filter meets) ∧
    newest (records.filter meets) ⊆ kept

variable {libs records}

theorem Comes.needed (comes : Comes libs records kept k) : Needed libs records k := by
  rcases comes with first | ⟨r, _, _, needed, listed, adds, mem, -⟩
  · exact .first first
  · exact .dependency needed listed adds mem

structure Sourced (libs : Libraries V Raw) (records : List (Record V)) (w : Walk V) : Prop where
  first : ∀ k, IsFirst records k → k ∈ w.kept
  comes : ∀ k ∈ w.kept, Comes libs records w.kept k

theorem Sourced.visit (sourced : Sourced libs records w) (needed : Needed libs records r)
    (listed : dep ∈ r.depends) : Sourced libs records (visit libs records w dep) := by
  unfold CondaIndex.visit
  split
  · exact sourced
  · next meets asked =>
    split_ifs with already
    · exact sourced
    have adds : Adds libs records dep meets := ⟨asked, fun k first => by
      simp only [any_eq_true, not_exists, not_and, Bool.not_eq_true] at already
      exact already k (sourced.first k first)⟩
    refine ⟨fun k first => mem_foldl_insert.2 (.inr (sourced.first k first)), fun k mem => ?_⟩
    rcases mem_foldl_insert.1 mem with new | old
    · exact .inr ⟨r, dep, meets, needed, listed, adds, new, fun k mem =>
        mem_foldl_insert.2 (.inl mem)⟩
    · refine (sourced.comes k old).imp_right ?_
      rintro ⟨r, dep, meets, needed, listed, adds, mem, sub⟩
      exact ⟨r, dep, meets, needed, listed, adds, mem, fun k mem =>
        mem_foldl_insert.2 (.inr (sub mem))⟩

/-! ### The loop -/

structure Sound (libs : Libraries V Raw) (records : List (Record V)) (w : Walk V) : Prop extends
    Sourced libs records w where
  queue : w.queue ⊆ w.kept
  closed : ∀ r ∈ w.kept, r ∈ w.queue ∨ ∀ dep ∈ r.depends, Met libs records w.kept dep

theorem Sound.pop {queue : List (Record V)} (sound : Sound libs records ⟨kept, r :: queue⟩) :
    Sound libs records (r.depends.foldl (visit libs records) ⟨kept, queue⟩) := by
  have needed := (sound.comes r (sound.queue (.head _))).needed
  have grown := grown_visits libs records ⟨kept, queue⟩ r.depends
  refine ⟨foldlRecOn _ _ ⟨sound.first, sound.comes⟩ fun w sourced dep listed =>
    sourced.visit needed listed, fun k mem => ?_, fun k mem => ?_⟩
  · exact (grown.old k mem).elim id fun queued => grown.kept (sound.queue (.tail _ queued))
  · rcases grown.new k mem with old | new
    · rcases sound.closed k old with queued | met
      · rcases mem_cons.1 queued with rfl | queued
        · exact .inr met_visits
        · exact .inl (grown.queue queued)
      · exact .inr fun dep listed => (met dep listed).mono grown.kept
    · exact .inl new

theorem drain_sound {fuel : ℕ} (sound : Sound libs records w) (enough : w.work records ≤ fuel) :
    ∃ kept, drain libs records fuel w = some kept ∧ Sound libs records ⟨kept, []⟩ := by
  induction fuel generalizing w with
  | zero =>
    obtain ⟨kept, _ | ⟨r, _⟩⟩ := w
    · exact ⟨kept, rfl, sound⟩
    · simp [Walk.work] at enough
  | succ _ ih =>
    obtain ⟨kept, _ | ⟨r, _⟩⟩ := w
    · exact ⟨kept, rfl, sound⟩
    · refine ih sound.pop ((grown_visits ..).work.trans ?_)
      simp only [Walk.work, length_cons] at enough ⊢
      omega

/-! ### The result -/

variable {order order' : List Text}

theorem mem_newestOfNames (names : ∀ r ∈ records, r.name ∈ order) :
    k ∈ newestOfNames records order ↔ IsFirst records k := by
  constructor
  · intro mem
    obtain ⟨name, -, mem⟩ := mem_flatMap.1 mem
    obtain rfl : k.name = name := by simpa using (mem_filter.1 (newest_subset _ mem)).2
    exact mem
  · exact fun first => mem_flatMap.2
      ⟨k.name, names k (mem_of_mem_filter (newest_subset _ first)), first⟩

theorem keep_sound (libs : Libraries V Raw) (names : ∀ r ∈ records, r.name ∈ order) :
    ∃ kept, keep libs records order = some kept ∧ Sound libs records ⟨kept, []⟩ := by
  refine drain_sound ⟨⟨fun k => (mem_newestOfNames names).2, fun k mem =>
    .inl ((mem_newestOfNames names).1 mem)⟩, fun k => mem_reverse.1, fun r mem =>
      .inl (mem_reverse.2 mem)⟩ ?_
  simpa [Walk.work] using length_filter_le _ records

theorem Needed.mem (needed : Needed libs records k) : k ∈ records := by
  cases needed with
  | first first => exact mem_of_mem_filter (newest_subset _ first)
  | dependency _ _ _ mem => exact mem_of_mem_filter (newest_subset _ mem)

/-- A dependency is a name and the digit its version has to be below. -/
def sampleLibraries : Libraries ℕ RecordFields where
  fields := .ok
  parseVersion text := text.head?.map (·.toNat)
  matchSpec dep := some ⟨dep[0]?.map ([·]), dep[1]?.map fun c v => v < [c], none⟩

/-- The package `a` depends on a version of `x` below 2. -/
def sample (other : Text) : Repodata RecordFields where
  entries v2 := if v2 then [] else
    [("a", ⟨some "a", some "1", none, ["x2"]⟩), ("b", ⟨some "b", some "1", none, [other]⟩),
      ("x1", ⟨some "x", some "1", none, []⟩), ("x2", ⟨some "x", some "2", none, []⟩),
      ("x5", ⟨some "x", some "5", none, []⟩)]
  distinct v2 := by cases v2 <;> simp

/-- Where a record that one dependency adds meets another one, that one adds no others.  Only records
that can be kept count. -/
def Decided (libs : Libraries V Raw) (records : List (Record V)) : Prop :=
  ∀ r, Needed libs records r → ∀ dep ∈ r.depends, ∀ meets, Adds libs records dep meets →
    ∀ r', Needed libs records r' → ∀ dep' ∈ r'.depends, ∀ meets', Adds libs records dep' meets' →
      ∀ k ∈ newest (records.filter meets'), meets k = true →
        newest (records.filter meets) ⊆ newest (records.filter meets')

theorem Decided.of_only (dep : Text) (only : ∀ r ∈ records, ∀ dep' ∈ r.depends, dep' = dep) :
    Decided libs records := by
  intro r needed _ listed _ adds r' needed' _ listed' _ adds' k _ _
  obtain rfl := (only r needed.mem _ listed).trans (only r' needed'.mem _ listed').symm
  obtain rfl := Option.some.inj (adds.1.symm.trans adds'.1)
  exact Subset.refl _

theorem Sound.needed (sound : Sound libs records ⟨kept, []⟩) (decided : Decided libs records)
    (needed : Needed libs records k) : k ∈ kept := by
  induction needed with
  | first first => exact sound.first _ first
  | @dependency r k dep meets needed listed adds mem ih =>
    obtain ⟨known, fits⟩ := mem_filter.1 (newest_subset _ mem)
    obtain ⟨j, there, fits⟩ := (sound.closed r ih).resolve_left nofun dep listed meets adds.1
      ⟨k, known, fits⟩
    rcases sound.comes j there with first | ⟨r', dep', meets', needed', listed', adds', new, sub⟩
    · rw [adds.2 j first] at fits
      cases fits
    · exact sub (decided r needed dep listed meets adds r' needed' dep' listed' meets' adds' j new fits
        mem)

/-- The order in which the names are visited does not matter. -/
theorem current_repodata_confluent (libs : Libraries V Raw) (doc : Repodata Raw)
    (accepted : readRecords libs doc = .ok records) (decided : Decided libs records)
    (names : ∀ r ∈ records, r.name ∈ order) (names' : ∀ r ∈ records, r.name ∈ order') :
    derive libs order doc = derive libs order' doc := by
  obtain ⟨kept, found, sound⟩ := keep_sound libs names
  obtain ⟨kept', found', sound'⟩ := keep_sound libs names'
  have same (k : Record V) : k ∈ kept ↔ k ∈ kept' :=
    ⟨fun mem => sound'.needed decided (sound.comes k mem).needed,
      fun mem => sound.needed decided (sound'.comes k mem).needed⟩
  have selected : select doc kept = select doc kept' := by
    simp only [select, any_eq, same]
  simp only [derive, accepted, found, found', bind, Except.bind, Option.map_some, selected]

theorem current_repodata_confluent_sample :
    derive sampleLibraries ["a", "b", "x"] (sample "x2") =
      derive sampleLibraries ["b", "a", "x"] (sample "x2") := by
  refine current_repodata_confluent _ _ rfl (.of_only "x2" ?_) ?_ ?_ <;> decide

theorem visiting_order_matters : derive sampleLibraries ["a", "b", "x"] (sample "x3") ≠
    derive sampleLibraries ["b", "a", "x"] (sample "x3") := by
  intro same
  have files := congrArg (fun d => (d.toOption.join.map fun out =>
    (out.entries false).map Prod.fst)) same
  exact absurd files (by decide +kernel)

end ArtifactKeeper.CondaIndex
