import ArtifactKeeper.Filesystem.Refinement

/-!
# Runs of the filesystem backend

Every write either changes nothing but directories on the way or replaces the node of its key
(`Wrote`), so that careful calls keep `Refines`.
-/

namespace ArtifactKeeper.Filesystem

open FileTrees FileTrees.FileTree StepSystem UnixPath List Text Prod

section

variable {cfg : Setup} {key path : Text} {names : List Text} {tree tree' : Tree}
  {temp dest : Place} {content : Except IoError Bytes} {s : State}

/-! ### Writes through a temporary file -/

theorem writeThrough_error {e : Stage × IoError} (absent : ∀ c, tree.node temp ≠ some (.file c))
    (failed : writeThrough temp dest content tree = (.error e, tree')) (q : Place) :
    tree'.node q = tree.node q := by
  unfold writeThrough at failed
  split at failed
  · rw [← (mk.inj failed).2]
  · split at failed
    · rw [← (mk.inj failed).2]
    · next _ created =>
      obtain ⟨rfl, free⟩ := createFile_eq_ok created
      split at failed
      · rw [← (mk.inj failed).2, node_erase, node_set]
        split_ifs with here
        · rw [here, node_eq_none absent free]
        · rfl
      · cases (mk.inj failed).1

theorem writeThrough_ok (absent : ∀ c, tree.node temp ≠ some (.file c)) (ne : dest ≠ temp)
    (done : writeThrough temp dest content tree = (.ok (), tree')) :
    ∃ c, content = .ok c ∧ tree.node dest ≠ some .dir ∧
      ∀ q, tree'.node q = if q = dest then some (.file c) else tree.node q := by
  unfold writeThrough at done
  split at done
  · cases (mk.inj done).1
  · next c =>
    split at done
    · cases (mk.inj done).1
    · next _ created =>
      obtain ⟨rfl, free⟩ := createFile_eq_ok created
      split at done
      · cases (mk.inj done).1
      · next renamed =>
        obtain ⟨_, file, notDir, rfl⟩ := rename_eq_ok renamed
        rw [node_set, if_pos rfl] at file
        obtain rfl := Node.file.inj (Option.some.inj file)
        rw [node_erase, if_neg ne, node_set, if_neg ne] at notDir
        refine ⟨c, rfl, notDir, fun q => ?_⟩
        rw [← (mk.inj done).2, node_set, node_erase, node_set]
        split_ifs with here gone
        · rfl
        · rw [gone, node_eq_none absent free]
        · rfl

/-- The temporary files next to a place are neither there nor the place itself. -/
def Clear (tree : Tree) (dest : Place) : Prop :=
  ∀ name, containsText name ".tmp." = true →
    dest ≠ dest.dropLast ++ [name] ∧ ∀ c, tree.node (dest.dropLast ++ [name]) ≠ some (.file c)

variable (dest : Place) (source : Tree → Except IoError Bytes) (tree : Tree) in
/-- What a write to a place has done; its source was read once the parent existed. -/
inductive Wrote : Except StorageError Unit × Tree → Prop
  | refused (e : StorageError) : Wrote (.error e, tree)
  | failed (e : StorageError) {grown tree' : Tree}
      (parent : Grown (dest.dropLast.inits.filter (· ≠ [])) tree grown)
      (same : ∀ q, tree'.node q = grown.node q) : Wrote (.error e, tree')
  | done {c : Bytes} {grown tree' : Tree}
      (parent : Grown (dest.dropLast.inits.filter (· ≠ [])) tree grown)
      (read : source grown = .ok c) (free : grown.node dest ≠ some .dir)
      (set : ∀ q, tree'.node q = if q = dest then some (.file c) else grown.node q) :
      Wrote (.ok (), tree')

theorem createParent_grown (stored : StoredAt cfg key path)
    (created : createParent cfg path tree = .ok tree') :
    Grown ((placeOf cfg (normalNames key)).dropLast.inits.filter (· ≠ [])) tree tree' := by
  obtain ⟨parent, found, place⟩ := stored.parent
  unfold createParent at created
  rw [found] at created
  rw [← place]
  exact createDirAll_grown created

theorem containsText_tempName (front : Text) (uuid : Uuid) :
    containsText (tempName front uuid) ".tmp." = true :=
  containsText_iff.2 ⟨front, uuid.hyphenated, rfl⟩

theorem wrote_put (stored : StoredAt cfg key path) (uuid : Uuid) (c : Bytes)
    (clear : Clear tree (placeOf cfg (normalNames key))) :
    Wrote (placeOf cfg (normalNames key)) (fun _ => .ok c) tree (put cfg uuid key c tree) := by
  have plain : '/' ∉ ".tmp." ++ uuid.hyphenated := by
    rw [mem_append, not_or]
    refine ⟨by decide, fun slash => ?_⟩
    have hex := uuid.hex '/' slash
    revert hex
    decide
  obtain ⟨last, sibling⟩ := stored.sibling _ plain
  have temp : resolve cfg.cwd (tempName path uuid) =
      (placeOf cfg (normalNames key)).dropLast ++ [tempName last uuid] := by
    rw [tempName, append_assoc, sibling, tempName, append_assoc]
  unfold put
  rw [stored.found]
  dsimp only
  split
  · exact .refused _
  · next _ created =>
    have parent := createParent_grown stored created
    obtain ⟨ne, absent⟩ := clear _ (containsText_tempName last uuid)
    have absent' := fun c file => absent c (parent.file_iff.1 file)
    rw [temp, stored.place]
    split
    · next failed => exact .failed _ parent (writeThrough_error absent' failed)
    · next done =>
      obtain ⟨_, same, free, set⟩ := writeThrough_ok absent' ne done
      exact .done parent same free set

theorem wrote_storeFile (stored : StoredAt cfg key path) (uuid : Uuid)
    (source : Tree → Except IoError Bytes) (copyError : IoError → StorageError)
    (clear : Clear tree (placeOf cfg (normalNames key))) :
    Wrote (placeOf cfg (normalNames key)) source tree
      (storeFile cfg uuid key path source copyError tree) := by
  unfold storeFile
  split
  · exact .refused _
  · next _ created =>
    have parent := createParent_grown stored created
    obtain ⟨_, found, place⟩ := stored.parent
    obtain ⟨ne, absent⟩ := clear _ (containsText_tempName [] uuid)
    have absent' := fun c file => absent c (parent.file_iff.1 file)
    rw [found]
    dsimp only
    rw [walk_append, place, stored.place]
    split
    · next failed => exact .failed _ parent (writeThrough_error absent' failed)
    · next failed => exact .failed _ parent (writeThrough_error absent' failed)
    · next done =>
      obtain ⟨_, same, free, set⟩ := writeThrough_ok absent' ne done
      exact .done parent same free set

/-! ### Careful calls -/

/-- A call on keys of several components that writes no temporary name and nothing below a deleted
key. -/
def Careful (s : State) : Call → Prop
  | .put _ key _ | .putFile _ key _ => Writable s (normalNames key)
  | .copy _ source dest => 1 < (normalNames source).length ∧ Writable s (normalNames dest)
  | .delete key => 1 < (normalNames key).length

/-- No files where keys are stored. -/
structure Boot (cfg : Setup) (s : State) : Prop where
  objects : s.objects = fun _ => none
  written : s.written = []
  files : ∀ place c, s.tree.node place = some (.file c) → ¬ Within cfg place

theorem fileName_append {front back : Place} (nonempty : back ≠ []) :
    fileName (front ++ back) = fileName back := by
  unfold fileName
  rw [getLast?_append_of_ne_nil front nonempty]

theorem Refines.object (apart : Apart cfg) (refines : Refines cfg s) {c : Bytes}
    (proper : ∀ name ∈ names, Proper name) (nonempty : names ≠ [])
    (file : s.tree.node (placeOf cfg names) = some (.file c)) : s.objects names = some c := by
  obtain ⟨_, at_, object⟩ :=
    refines.files _ c file (within_rootPlace proper nonempty rfl)
  rw [placeOf_inj apart proper (refines.proper object) at_, object]

theorem Refines.clear (refines : Refines cfg s) (proper : ∀ name ∈ names, Proper name)
    (writable : Writable s names) : Clear s.tree (placeOf cfg names) := by
  intro name temporary
  have many := writable.many
  have nonempty : names ≠ [] := length_pos_iff.1 (by omega)
  have parent : (placeOf cfg names).dropLast ++ [name] =
      rootPlace cfg names ++ (names.dropLast ++ [name]) := by
    rw [placeOf, dropLast_append_of_ne_nil nonempty, append_assoc]
  constructor
  · intro same
    have last := congrArg fileName same
    rw [placeOf, fileName_append nonempty, fileName_append (cons_ne_nil _ _)] at last
    have lasting := writable.lasting
    rw [last] at lasting
    exact Bool.false_ne_true (lasting.symm.trans temporary)
  · intro c file
    have first : (names.dropLast ++ [name]).head? = names.head? := by
      obtain ⟨_, more, rfl⟩ := exists_cons_of_ne_nil nonempty
      have several : more ≠ [] := by
        rintro rfl
        simp at many
      obtain ⟨_, _, rfl⟩ := exists_cons_of_ne_nil several
      rfl
    rw [parent] at file
    obtain ⟨names', at_, object⟩ := refines.files _ c file
      (within_rootPlace proper (append_ne_nil_of_right_ne_nil _ (cons_ne_nil _ _)) first)
    have valid := refines.valid names' (refines.stored names' c object).1
    have last := congrArg fileName at_
    rw [← append_assoc, fileName_append (cons_ne_nil _ _), placeOf,
      fileName_append (length_pos_iff.1 (by have := valid.many; omega))] at last
    have lasting := valid.lasting
    rw [← last] at lasting
    exact Bool.false_ne_true (lasting.symm.trans temporary)

theorem Refines.wrote (apart : Apart cfg) (refines : Refines cfg s) {call : Call} {s' : State}
    {source : Tree → Except IoError Bytes} (proper : ∀ name ∈ names, Proper name)
    (writable : Writable s names)
    (wrote : Wrote (placeOf cfg names) source s.tree (perform cfg call s.tree))
    (records : ∀ c grown tree',
      Grown ((placeOf cfg names).dropLast.inits.filter (· ≠ [])) s.tree grown →
      source grown = .ok c → record s tree' call =
        ⟨tree', Function.update s.objects names (some c), names :: s.written⟩)
    (taken : step cfg s call = some s') : Refines cfg s' := by
  unfold step at taken
  generalize perform cfg call s.tree = result at wrote taken
  cases wrote with
  | refused =>
    obtain rfl := Option.some.inj taken
    exact refines
  | failed e parent same =>
    obtain rfl := Option.some.inj taken
    exact (refines.of_grown apart proper writable parent).of_nodes same
  | done parent read free set =>
    obtain rfl := Option.some.inj taken
    have grown := refines.of_grown apart proper writable parent
    rw [records _ _ _ parent read]
    apply grown.write apart ⟨writable.many, proper, writable.lasting⟩ free _ set
    intro q below nonempty ne
    refine parent.dirs q (mem_inits_filter.2 ⟨?_, nonempty⟩)
    have whole : placeOf cfg names ≠ [] := by
      intro empty
      rw [empty, prefix_nil] at below
      exact nonempty below
    rw [← dropLast_concat_getLast whole, prefix_concat_iff] at below
    refine below.resolve_left fun same => ne ?_
    rw [same, dropLast_concat_getLast whole]

theorem refines_step (apart : Apart cfg) (refines : Refines cfg s) {call : Call} {s' : State}
    (careful : Careful s call) (taken : step cfg s call = some s') : Refines cfg s' := by
  cases call with
  | put uuid key content =>
    have proper := proper_normalNames key
    obtain ⟨_, stored⟩ := storedAt cfg careful.many
    have wrote := wrote_put stored uuid content (refines.clear proper careful)
    refine refines.wrote apart proper careful wrote ?_ taken
    intro c _ _ _ read
    rw [record, Except.ok.inj read]
  | putFile uuid key content =>
    have proper := proper_normalNames key
    obtain ⟨_, stored⟩ := storedAt cfg careful.many
    have wrote : Wrote (placeOf cfg (normalNames key)) (fun _ => content) s.tree
        (putFile cfg uuid key content s.tree) := by
      unfold putFile
      rw [stored.found]
      exact wrote_storeFile stored uuid _ _ (refines.clear proper careful)
    refine refines.wrote apart proper careful wrote ?_ taken
    intro c _ _ _ read
    rw [record, read]
    rfl
  | copy uuid source dest =>
    obtain ⟨many, writable⟩ := careful
    have proper := proper_normalNames dest
    obtain ⟨sourcePath, there⟩ := storedAt cfg many
    obtain ⟨_, stored⟩ := storedAt cfg writable.many
    have wrote : Wrote (placeOf cfg (normalNames dest))
        (copySource cfg sourcePath) s.tree
        (copy cfg uuid source dest s.tree) := by
      unfold copy
      rw [there.found, stored.found]
      exact wrote_storeFile stored uuid _ _ (refines.clear proper writable)
    refine refines.wrote apart proper writable wrote ?_ taken
    intro c _ _ parent read
    have file := parent.file_iff.1 (node_of_read (Fallible.mapError_eq_ok.1 read))
    rw [there.place] at file
    have object := refines.object apart (proper_normalNames source)
      (length_pos_iff.1 (by omega)) file
    rw [record, object]
  | delete key =>
    have proper := proper_normalNames key
    obtain ⟨_, stored⟩ := storedAt cfg careful
    have performed : perform cfg (.delete key) s.tree = delete cfg key s.tree := rfl
    unfold step at taken
    rw [performed, delete, stored.found] at taken
    dsimp only at taken
    split at taken
    · next _ done =>
      obtain rfl := Option.some.inj taken
      split at done
      · next _ removed =>
        rw [← (mk.inj done).2]
        obtain ⟨rfl, c, file⟩ := removeFile_eq_ok removed
        rw [stored.place] at file ⊢
        exact refines.delete apart proper file
      · cases (mk.inj done).1
      · cases (mk.inj done).1
    · next _ failed =>
      obtain rfl := Option.some.inj taken
      split at failed
      · cases (mk.inj failed).1
      · rw [← (mk.inj failed).2]
        exact refines
      · rw [← (mk.inj failed).2]
        exact refines

theorem Boot.refines (boot : Boot cfg s) : Refines cfg s := by
  refine ⟨?_, ?_, ?_, ?_, ?_⟩
  · intro place c file within
    exact absurd within (boot.files place c file)
  · intro _ c object
    rw [boot.objects] at object
    cases object
  all_goals
    intro _ among
    rw [boot.written] at among
    cases among

theorem refines_of_reach (apart : Apart cfg) (reach : Reach (step cfg) (Boot cfg) Careful s) :
    Refines cfg s :=
  reach.invariant (fun _ boot => boot.refines) fun _ _ _ refines careful taken =>
    refines_step apart refines careful taken

end

open Option

section

variable {cfg : Setup} {key front text : Text} {names rest : List Text} {s : State}

/-! ### Single objects -/

theorem Refines.free (refines : Refines cfg s) (among : names ∈ s.written) :
    s.tree.blocked (placeOf cfg names) = false := by
  rw [blocked_eq_false]
  intro q c below nonempty ne file
  rw [refines.dirs names among q below nonempty ne] at file
  cases file

theorem get_object (refines : Refines cfg s) {c : Bytes} (many : 1 < (normalNames key).length)
    (object : s.objects (normalNames key) = some c) : get cfg key s.tree = .ok c := by
  obtain ⟨_, stored⟩ := storedAt cfg many
  obtain ⟨among, file⟩ := refines.stored _ c object
  unfold get
  rw [stored.found]
  dsimp only
  rw [stored.place, read_of_file (refines.free among) file]

theorem get_deleted (refines : Refines cfg s) (many : 1 < (normalNames key).length)
    (among : normalNames key ∈ s.written) (gone : s.objects (normalNames key) = none) :
    get cfg key s.tree = .error (notFoundError key) := by
  obtain ⟨_, stored⟩ := storedAt cfg many
  unfold get
  rw [stored.found]
  dsimp only
  rw [stored.place, read_of_none (refines.free among) (refines.gone _ among gone)]

theorem get_absent (apart : Apart cfg) (refines : Refines cfg s) {c : Bytes}
    (many : 1 < (normalNames key).length) (gone : s.objects (normalNames key) = none) :
    get cfg key s.tree ≠ .ok c := by
  intro found
  obtain ⟨_, stored⟩ := storedAt cfg many
  unfold get at found
  rw [stored.found] at found
  dsimp only at found
  rw [stored.place] at found
  split at found
  · next _ read =>
    have object := refines.object apart (proper_normalNames key)
      (length_pos_iff.1 (by omega)) (node_of_read read)
    rw [gone] at object
    cases object
  · cases found
  · cases found

/-! ### Listings -/

def Rooted (cfg : Setup) (names : List Text) : Prop :=
  (∀ root, cfg.storage.bucketRoot = some root →
    resolve cfg.cwd root = resolve cfg.cwd cfg.storage.basePath) ∨
  ∀ ns ∈ namespaceNames, names ≠ [ns]

theorem Anchored.append_iff (nonempty : names ≠ []) (several : ∀ ns ∈ namespaceNames, names ≠ [ns]) :
    Anchored (names ++ rest) ↔ Anchored names := by
  obtain ⟨first, tail, rfl⟩ := exists_cons_of_ne_nil nonempty
  refine exists_congr fun ns => and_congr_right fun among => ?_
  constructor
  · rintro ⟨_, -, same⟩
    obtain ⟨rfl, -⟩ := cons.inj same
    exact ⟨tail, fun none => several first among (by rw [none]), rfl⟩
  · rintro ⟨_, some, same⟩
    obtain ⟨rfl, rfl⟩ := cons.inj same
    exact ⟨tail ++ rest, append_ne_nil_of_left_ne_nil some _, rfl⟩

theorem resolve_rootFor {text' : Text}
    (same : (∀ root, cfg.storage.bucketRoot = some root →
        resolve cfg.cwd root = resolve cfg.cwd cfg.storage.basePath) ∨
      (keyIsBucketRootAnchored text = true ↔ keyIsBucketRootAnchored text' = true)) :
    resolve cfg.cwd (rootFor cfg.storage text) = resolve cfg.cwd (rootFor cfg.storage text') := by
  unfold rootFor
  cases bucket : cfg.storage.bucketRoot with
  | none => rfl
  | some root =>
    rcases same with one | same
    · have equal := one root bucket
      split_ifs <;> simp [equal]
    · simp only [same]

section

variable (rooted : Rooted cfg names) (nonempty : names ≠ [])
include rooted nonempty

theorem rootPlace_append (proper : ∀ name ∈ names ++ rest, Proper name) :
    rootPlace cfg (names ++ rest) = rootPlace cfg names := by
  refine resolve_rootFor (rooted.imp_right fun several => ?_)
  rw [anchored_iff proper, anchored_iff fun name mem => proper name (mem_append_left _ mem)]
  exact Anchored.append_iff nonempty several

theorem resolve_listed (normal : components text = names.map .normal) :
    resolve cfg.cwd (push (rootFor cfg.storage text) text) = placeOf cfg names := by
  have proper : ∀ name ∈ names, Proper name := fun name mem =>
    proper_of_mem (normal ▸ mem_map_of_mem mem)
  have root : resolve cfg.cwd (rootFor cfg.storage text) = rootPlace cfg names := by
    refine resolve_rootFor (rooted.imp_right fun several => ?_)
    rw [anchored_iff_of_normal normal nonempty several, anchored_iff proper]
  unfold resolve at root ⊢
  rw [components_push_normal _ normal, walk_append, walk_normal, root, placeOf]

variable (apart : Apart cfg) (refines : Refines cfg s) (none : s.objects names = none)
include apart refines none

theorem mem_filesUnder_placeOf (proper : ∀ name ∈ names, Proper name) {place : Place} :
    place ∈ s.tree.filesUnder (placeOf cfg names) ↔
      ∃ rest, rest ≠ [] ∧ place = placeOf cfg names ++ rest ∧
        (s.objects (names ++ rest)).isSome := by
  rw [mem_filesUnder]
  constructor
  · rintro ⟨⟨rest, rfl⟩, c, file⟩
    have within : Within cfg (placeOf cfg names ++ rest) := by
      rw [placeOf, append_assoc]
      refine within_rootPlace proper (append_ne_nil_of_left_ne_nil nonempty _) ?_
      obtain ⟨_, _, rfl⟩ := exists_cons_of_ne_nil nonempty
      rfl
    obtain ⟨names', at_, object⟩ := refines.files _ c file within
    have below : placeOf cfg names <+: placeOf cfg names' := ⟨rest, at_⟩
    obtain ⟨more, rfl⟩ := prefix_of_place apart proper (refines.proper object) below
    have root := rootPlace_append rooted nonempty (refines.proper object)
    have same : rest = more := by
      rw [placeOf, placeOf, root, ← append_assoc] at at_
      exact append_cancel_left at_
    subst same
    refine ⟨rest, ?_, rfl, by rw [object]; rfl⟩
    rintro rfl
    rw [append_nil, none] at object
    cases object
  · rintro ⟨_, _, rfl, object⟩
    obtain ⟨c, object⟩ := isSome_iff_exists.1 object
    have root := rootPlace_append rooted nonempty (refines.proper object)
    refine ⟨prefix_append _ _, c, ?_⟩
    have file := (refines.stored _ c object).2
    rw [placeOf, root, ← append_assoc] at file
    exact file

theorem listFilesUnder_spec (proper : ∀ name ∈ names, Proper name) :
    (listFilesUnder (placeOf cfg names) text s.tree).Nodup ∧
      ∀ key, key ∈ listFilesUnder (placeOf cfg names) text s.tree ↔
        ∃ rest, rest ≠ [] ∧ key = text ++ '/' :: join '/' rest ∧
          (s.objects (names ++ rest)).isSome := by
  have files : ∀ place, place ∈ s.tree.filesUnder (placeOf cfg names) ↔ _ := fun _ =>
    mem_filesUnder_placeOf rooted nonempty apart refines none proper
  have valid : ∀ rest, (s.objects (names ++ rest)).isSome → Valid (names ++ rest) := by
    intro _ object
    obtain ⟨c, object⟩ := isSome_iff_exists.1 object
    exact refines.valid _ (refines.stored _ c object).1
  unfold listFilesUnder
  split_ifs with absent
  · -- an object below would have made the directory
    refine ⟨nodup_nil, fun key => iff_of_false not_mem_nil ?_⟩
    rintro ⟨rest, some, -, object⟩
    obtain ⟨c, object⟩ := isSome_iff_exists.1 object
    have root := rootPlace_append rooted nonempty (refines.proper object)
    have below : placeOf cfg (names ++ rest) = placeOf cfg names ++ rest := by
      rw [placeOf, root, ← append_assoc, placeOf]
    have dir := refines.dirs _ (refines.stored _ c object).1 (placeOf cfg names)
      (below ▸ prefix_append _ _) absent.1 (fun same => some (by
        rw [below] at same
        exact self_eq_append_right.1 same))
    rw [absent.2] at dir
    cases dir
  · constructor
    · rw [(perm_insertionSort _ _).nodup_iff]
      refine ((s.tree.filesUnder_nodup _).filter _).map_on ?_
      intro place among place' among' same
      obtain ⟨rest, some, rfl, object⟩ := (files place).1 (mem_filter.1 among).1
      obtain ⟨rest', some', rfl, object'⟩ := (files place').1 (mem_filter.1 among').1
      rw [drop_left, drop_left] at same
      have joined := (cons.inj (append_cancel_left same)).2
      have parts := congrArg (splitOn '/') joined
      rw [splitOn_join some fun part mem =>
          ((valid rest object).proper part (mem_append_right _ mem)).no_slash,
        splitOn_join some' fun part mem =>
          ((valid rest' object').proper part (mem_append_right _ mem)).no_slash] at parts
      rw [parts]
    · intro _
      rw [mem_insertionSort, List.mem_map]
      constructor
      · rintro ⟨place, among, rfl⟩
        obtain ⟨rest, some, rfl, object⟩ := (files place).1 (mem_filter.1 among).1
        exact ⟨rest, some, by rw [drop_left], object⟩
      · rintro ⟨rest, some, rfl, object⟩
        have listed := (files _).2 ⟨rest, some, rfl, object⟩
        refine ⟨placeOf cfg names ++ rest, mem_filter.2 ⟨listed, ?_⟩, by rw [drop_left]⟩
        have lasting := (valid rest object).lasting
        rw [fileName_append some] at lasting ⊢
        rw [lasting]
        rfl

theorem listKeys_spec (normal : components (trimSlashes front) = names.map .normal) :
    ∃ listed, listKeys cfg front s.tree = some listed ∧ listed.Nodup ∧
      ∀ key, key ∈ listed ↔ ∃ rest, rest ≠ [] ∧ key = trimSlashes front ++ '/' :: join '/' rest ∧
        (s.objects (names ++ rest)).isSome := by
  have proper : ∀ name ∈ names, Proper name := fun name mem =>
    proper_of_mem (normal ▸ mem_map_of_mem mem)
  refine ⟨_, ?_, listFilesUnder_spec rooted nonempty apart refines none proper⟩
  unfold listKeys
  rw [if_neg, resolve_listed rooted nonempty normal]
  intro empty
  rw [empty, components_nil] at normal
  exact nonempty (map_eq_nil_iff.1 normal.symm)

end

/-! ### The key-value store -/

/-- After careful calls, in any order, the backend answers as a key-value store does. -/
theorem filesystem_refines_store (apart : Apart cfg) {s : State}
    (reach : Reach (step cfg) (Boot cfg) Careful s) :
    (∀ key content, 1 < (normalNames key).length →
      s.objects (normalNames key) = some content → get cfg key s.tree = .ok content) ∧
    (∀ key, 1 < (normalNames key).length → s.objects (normalNames key) = none →
      (∀ content, get cfg key s.tree ≠ .ok content) ∧
      (normalNames key ∈ s.written → get cfg key s.tree = .error (notFoundError key))) ∧
    ∀ front names, components (trimSlashes front) = names.map .normal → names ≠ [] →
      s.objects names = none → Rooted cfg names →
      ∃ listed, listKeys cfg front s.tree = some listed ∧ listed.Nodup ∧
        ∀ key, key ∈ listed ↔ ∃ rest, rest ≠ [] ∧ key = trimSlashes front ++ '/' :: join '/' rest ∧
          (s.objects (names ++ rest)).isSome := by
  have refines := refines_of_reach apart reach
  refine ⟨?_, ?_, ?_⟩
  · intro _ _ many object
    exact get_object refines many object
  · intro _ many gone
    exact ⟨fun _ => get_absent apart refines many gone, fun among =>
      get_deleted refines many among gone⟩
  · intro _ _ normal nonempty none rooted
    exact listKeys_spec rooted nonempty apart refines none normal

end

/-! ### Examples of runs -/

instance (s : State) (names : List Text) : Decidable (Writable s names) :=
  decidable_of_iff (1 < names.length ∧ containsText (fileName names) ".tmp." = false ∧
      ∀ deleted ∈ s.written, s.objects deleted = none → deleted <+: names → deleted = names)
    ⟨fun ⟨many, lasting, fresh⟩ => ⟨many, lasting, fresh⟩,
      fun writable => ⟨writable.many, writable.lasting, writable.fresh⟩⟩

instance (s : State) (call : Call) : Decidable (Careful s call) := by
  cases call <;> unfold Careful <;> infer_instance

instance decidableEqExcept {ε α : Type*} [DecidableEq ε] [DecidableEq α] : DecidableEq (Except ε α)
  | .ok a, .ok b => decidable_of_iff (a = b) ⟨congrArg _, Except.ok.inj⟩
  | .error e, .error e' => decidable_of_iff (e = e') ⟨congrArg _, Except.error.inj⟩
  | .ok _, .error _ => isFalse nofun
  | .error _, .ok _ => isFalse nofun

def fresh : State := ⟨FileTree.empty, fun _ => none, []⟩

theorem boot_fresh (cfg : Setup) : Boot cfg fresh :=
  ⟨rfl, rfl, fun _ _ file => nomatch file⟩

def repository : Setup := ⟨⟨"/data/repo", some "/data"⟩, []⟩

def overlapping : Setup := ⟨⟨"/data/proxy-cache", some "/data"⟩, []⟩

def uuid : Uuid := ⟨['0'], forall_mem_singleton.2 (by decide)⟩

def after (cfg : Setup) (calls : List Call) : Option State := run unchecked (step cfg) fresh calls

theorem apart_repository : Apart repository := by
  intro _ bucket
  obtain rfl := some.inj bucket
  decide +kernel

theorem filesystem_refines_store_cached :
    ∃ s, Reach (step repository) (Boot repository) Careful s ∧
      get repository "c/d" s.tree = .ok [1] ∧
      get repository "a/b" s.tree = .error (notFoundError "a/b") ∧
      ∃ listed, listKeys repository "/proxy-cache/npm/" s.tree = some listed ∧
        "proxy-cache/npm/x".toList ∈ listed := by
  obtain ⟨s, reach, copied, deleted, among, directory, cached⟩ :=
    Reach.exists_of_start (step repository) _ (fun s e => of_decide_eq_true (p := Careful s e)) _
      (boot_fresh repository)
      [.put uuid "a/b" [1], .copy uuid "a/b" "c/d", .delete "a/b",
        .putFile uuid "proxy-cache/npm/x" (.ok [2])]
      (fun s => s.objects ["c", "d"] = some [1] ∧
        s.objects ["a", "b"] = none ∧ ["a".toList, "b"] ∈ s.written ∧
        s.objects ["proxy-cache", "npm"] = none ∧
        (s.objects ["proxy-cache", "npm", "x"]).isSome) (by decide +kernel)
  obtain ⟨objects, others, listings⟩ := filesystem_refines_store apart_repository reach
  have ab : normalNames "a/b" = ["a".toList, "b"] := by decide +kernel
  have cd : normalNames "c/d" = ["c".toList, "d"] := by decide +kernel
  obtain ⟨listed, found, -, mem⟩ := listings "/proxy-cache/npm/"
    ["proxy-cache", "npm"] (by decide +kernel) (cons_ne_nil _ _) directory
    (.inr (by decide +kernel))
  refine ⟨s, reach, objects _ _ (by rw [cd]; decide) (by rw [cd, copied]),
    (others _ (by rw [ab]; decide) (by rw [ab, deleted])).2 (by rw [ab]; exact among),
    listed, found, (mem _).2 ⟨["x"], cons_ne_nil _ _, by decide +kernel, cached⟩⟩

/-- A key with the name of a temporary file is not listed; a namespace of the bucket root is looked
up at the base path; a prefix that holds an object lists it with a slash; a deleted key that became a
directory is not reported as missing; and with an overlapping base path two keys share a file. -/
theorem filesystem_not_store :
    (after repository [.put uuid "a/x.tmp.jar" [1]]).map (fun s =>
      (get repository "a/x.tmp.jar" s.tree, listKeys repository "a" s.tree)) =
        some (.ok [1], some []) ∧
    (after repository [.put uuid "proxy-cache/npm/x" [1]]).map (fun s =>
      (get repository "proxy-cache/npm/x" s.tree,
        listKeys repository "proxy-cache" s.tree)) = some (.ok [1], some []) ∧
    (after repository [.put uuid "a/b" [1]]).map (fun s =>
      listKeys repository "a/b" s.tree) = some (some ["a/b/".toList]) ∧
    (after repository [.put uuid "a/b" [1], .delete "a/b", .put uuid "a/b/c" [2]]).map (fun s =>
      (s.objects ["a", "b"], get repository "a/b" s.tree)) =
        some (none, .error (.storage
          "Failed to read a/b: Is a directory (os error 21)")) ∧
    (after overlapping [.put uuid "a/b" [1], .put uuid "proxy-cache/a/b" [2]]).map
        (fun s => (s.objects ["a", "b"], get overlapping "a/b" s.tree)) =
      some (some [1], .ok [2]) :=
  ⟨by decide +kernel, by decide +kernel, by decide +kernel, by decide +kernel, by decide +kernel⟩

end ArtifactKeeper.Filesystem
