import ArtifactKeeper.RpmRetention.Requests
import Mathlib.Data.List.MinMax

/-!
# Retention beside publication

Numbers only grow, because the newest version of a repository is never deleted (`Inv.topped`).  A
sweep works with the numbers that survived its transaction (`Snapshot`): a row that appears later is
above all of them.
-/

namespace ArtifactKeeper.RpmRetention

open StepSystem Text List Bool
open Effect (apply)

variable {ids : IdText} {st st' : Store} {v : VersionRow}

/-! ### The store -/

structure Inv (ids : IdText) (st : Store) : Prop where
  idsBelow : ∀ i ∈ st.issued, i.id < st.nextId
  idsDistinct : (st.issued.map Issued.id).Nodup
  numbersDistinct : (st.issued.map Issued.number).Nodup
  rows : (st.versions.map VersionRow.issued).Sublist st.issued
  topped : ∀ i ∈ st.issued, ∃ v ∈ st.versions,
    v.repositoryId = i.repositoryId ∧ i.versionNumber ≤ v.versionNumber
  active : ∀ r ∈ st.repositories, ∀ id, r.activePublicationId = some id →
    ∃ v ∈ st.versions, v.id = id ∧ v.repositoryId = r.id
  stored : ∀ v ∈ st.versions,
    v.storagePrefix.getD (publicationPrefix ids v.repositoryId v.versionNumber) =
      publicationPrefix ids v.repositoryId v.versionNumber

theorem Inv.recorded (inv : Inv ids st) (mem : v ∈ st.versions) : v.issued ∈ st.issued :=
  inv.rows.subset (mem_map_of_mem mem)

variable {i j : Issued}

section

variable (inv : Inv ids st)
include inv

theorem Inv.eq_of_id (mem : i ∈ st.issued) (mem' : j ∈ st.issued) (same : i.id = j.id) : i = j :=
  inj_on_of_nodup_map inv.idsDistinct mem mem' same

theorem Inv.eq_of_number (mem : i ∈ st.issued) (mem' : j ∈ st.issued) (same : i.number = j.number) :
    i = j :=
  inj_on_of_nodup_map inv.numbersDistinct mem mem' same

theorem Inv.row_eq {w : VersionRow} (mem : v ∈ st.versions) (mem' : w ∈ st.versions)
    (same : v.issued = w.issued) : v = w :=
  inj_on_of_nodup_map (inv.rows.nodup (.of_map _ inv.idsDistinct)) mem mem' same

theorem Inv.row_of_id {u : VersionRow} (mem : u ∈ st.versions) (mem' : v ∈ st.versions)
    (same : u.id = v.id) : u = v :=
  inv.row_eq mem mem' (inv.eq_of_id (inv.recorded mem) (inv.recorded mem') same)

theorem Inv.row_of_number {u : VersionRow} (mem : u ∈ st.versions) (mem' : v ∈ st.versions)
    (same : u.issued.number = v.issued.number) : u = v :=
  inv.row_eq mem mem' (inv.eq_of_number (inv.recorded mem) (inv.recorded mem') same)

end

variable {repo : ℕ}

theorem mem_versionsOf : v ∈ st.versionsOf repo ↔ v ∈ st.versions ∧ v.repositoryId = repo := by
  simp [Store.versionsOf]

theorem Inv.lt_nextNumber (inv : Inv ids st) (mem : i ∈ st.issued) :
    i.versionNumber < st.nextNumber i.repositoryId := by
  obtain ⟨v, memV, repo, le⟩ := inv.topped i mem
  have mem' : v.versionNumber ∈ (st.versionsOf i.repositoryId).map VersionRow.versionNumber :=
    mem_map_of_mem (mem_versionsOf.2 ⟨memV, repo⟩)
  unfold Store.nextNumber
  cases found : ((st.versionsOf i.repositoryId).map VersionRow.versionNumber).max? with
  | none =>
    rw [max?_eq_none_iff.1 found] at mem'
    cases mem'
  | some newest => exact Int.lt_add_one_of_le (le.trans ((max?_eq_some_iff.1 found).2 _ mem'))

theorem Inv.create (inv : Inv ids st) (repo : ℕ) (members : List Text) :
    Inv ids (apply (.create ⟨st.nextId, repo, st.nextNumber repo, false, none, members⟩) st)
    where
  idsBelow := forall_mem_cons.2
    ⟨Nat.lt_succ_self _, fun i mem => Nat.lt_succ_of_lt (inv.idsBelow i mem)⟩
  idsDistinct := by
    refine nodup_cons.2 ⟨fun mem => ?_, inv.idsDistinct⟩
    obtain ⟨i, mem, same⟩ := mem_map.1 mem
    exact (inv.idsBelow i mem).ne same
  numbersDistinct := by
    refine nodup_cons.2 ⟨fun mem => ?_, inv.numbersDistinct⟩
    obtain ⟨i, issued, same⟩ := mem_map.1 mem
    obtain ⟨rfl, number⟩ := Prod.mk.inj same
    exact (inv.lt_nextNumber issued).ne number
  rows := inv.rows.cons_cons _
  topped := by
    refine forall_mem_cons.2 ⟨⟨_, .head _, rfl, le_rfl⟩, fun i mem => ?_⟩
    obtain ⟨v, mem, covers⟩ := inv.topped i mem
    exact ⟨v, .tail _ mem, covers⟩
  active := fun r mem id found => by
    obtain ⟨v, mem, named⟩ := inv.active r mem id found
    exact ⟨v, .tail _ mem, named⟩
  stored := forall_mem_cons.2 ⟨rfl, inv.stored⟩

theorem publish_issued {id : ℕ} {storagePrefix : Text} (v : VersionRow) :
    VersionRow.issued (if v.id = id then
      { v with published := true, storagePrefix := some storagePrefix } else v) = v.issued := by
  split_ifs <;> rfl

theorem Inv.publish (inv : Inv ids st) (mem : v ∈ st.versions) :
    Inv ids (apply (.publish v.repositoryId v.id
      (publicationPrefix ids v.repositoryId v.versionNumber)) st) where
  idsBelow := inv.idsBelow
  idsDistinct := inv.idsDistinct
  numbersDistinct := inv.numbersDistinct
  rows := by
    simp only [apply, map_map, Function.comp_def, publish_issued]
    exact inv.rows
  topped := fun i mem => by
    obtain ⟨u, memU, repo, le⟩ := inv.topped i mem
    refine ⟨_, mem_map_of_mem memU, ?_⟩
    split_ifs <;> exact ⟨repo, le⟩
  active := by
    intro _ mem' id found
    obtain ⟨r, memR, rfl⟩ := mem_map.1 mem'
    split_ifs at found with here
    · obtain rfl := Option.some.inj found
      refine ⟨_, mem_map_of_mem mem, ?_⟩
      simp [here]
    · obtain ⟨u, memU, same, repo⟩ := inv.active r memR id found
      refine ⟨_, mem_map_of_mem memU, ?_⟩
      split_ifs <;> exact ⟨same, repo⟩
  stored := by
    intro _ mem'
    obtain ⟨u, memU, rfl⟩ := mem_map.1 mem'
    split_ifs with same
    · obtain rfl := inv.row_of_id memU mem same
      rfl
    · exact inv.stored u memU

theorem exists_newest (mem : v ∈ st.versions) :
    ∃ newest ∈ st.versionsOf v.repositoryId, ∀ u ∈ st.versionsOf v.repositoryId,
      u.versionNumber ≤ newest.versionNumber := by
  cases found : (st.versionsOf v.repositoryId).argmax VersionRow.versionNumber with
  | none =>
    rw [argmax_eq_none] at found
    exact absurd (mem_versionsOf.2 ⟨mem, rfl⟩) (by simp [found])
  | some newest =>
    exact ⟨newest, argmax_mem found, fun u mem => le_of_mem_argmax mem found⟩

variable {gone : List ℕ}

theorem mem_prune : v ∈ (apply (.prune gone) st).versions ↔ v ∈ st.versions ∧ v.id ∉ gone := by
  simp [apply]

theorem Inv.prune (inv : Inv ids st)
    (newestStays : ∀ v ∈ st.versions, (∀ u ∈ st.versionsOf v.repositoryId,
      u.versionNumber ≤ v.versionNumber) → v.id ∉ gone)
    (activeStays : ∀ id ∈ gone, st.isActive id = false) :
    Inv ids (apply (.prune gone) st) where
  idsBelow := inv.idsBelow
  idsDistinct := inv.idsDistinct
  numbersDistinct := inv.numbersDistinct
  rows := (filter_sublist.map _).trans inv.rows
  topped := fun i mem => by
    obtain ⟨v, memV, repo, le⟩ := inv.topped i mem
    obtain ⟨newest, memN, above⟩ := exists_newest memV
    obtain ⟨memN, sameRepo⟩ := mem_versionsOf.1 memN
    refine ⟨newest, mem_prune.2 ⟨memN, newestStays newest memN (sameRepo ▸ above)⟩,
      sameRepo.trans repo, le.trans (above v (mem_versionsOf.2 ⟨memV, rfl⟩))⟩
  active := fun r mem id found => by
    obtain ⟨v, memV, rfl, repo⟩ := inv.active r mem id found
    refine ⟨v, mem_prune.2 ⟨memV, fun deleted => ?_⟩, rfl, repo⟩
    have inactive := activeStays v.id deleted
    simp only [Store.isActive, any_eq_false, decide_eq_true_eq] at inactive
    exact inactive r mem found
  stored := fun v mem => inv.stored v (mem_prune.1 mem).1

/-! ### Later stores -/

/-- Numbers stay issued, and a new row is above them. -/
structure Later (st st' : Store) : Prop where
  issued : st.issued ⊆ st'.issued
  rows : ∀ v ∈ st'.versions, (∃ u ∈ st.versions, u.issued = v.issued) ∨
    ∀ i ∈ st.issued, i.repositoryId = v.repositoryId → i.versionNumber < v.versionNumber

theorem later_create (inv : Inv ids st) (repo : ℕ) (members : List Text) :
    Later st
      (apply (.create ⟨st.nextId, repo, st.nextNumber repo, false, none, members⟩) st) where
  issued := subset_cons_self _ _
  rows := by
    refine forall_mem_cons.2 ⟨.inr fun i mem same => ?_, fun v mem => .inl ⟨v, mem, rfl⟩⟩
    obtain rfl : i.repositoryId = repo := same
    exact inv.lt_nextNumber mem

/-- Nothing else adds a row. -/
theorem later_apply {e : Effect} (other : ∀ v, e ≠ .create v) : Later st (e.apply st) := by
  cases e with
  | create v => exact absurd rfl (other v)
  | publish =>
    refine ⟨List.Subset.refl _, fun v mem => .inl ?_⟩
    obtain ⟨u, memU, rfl⟩ := mem_map.1 mem
    exact ⟨u, memU, (publish_issued u).symm⟩
  | prune => exact ⟨List.Subset.refl _, fun v mem => .inl ⟨v, (mem_prune.1 mem).1, rfl⟩⟩
  | none | put | delete => exact ⟨List.Subset.refl _, fun v mem => .inl ⟨v, mem, rfl⟩⟩

/-! ### What a request knows -/

structure Gone (st : Store) (repo : ℕ) (versionNumber : ℤ) : Prop where
  issued : ∃ i ∈ st.issued, i.number = (repo, versionNumber)
  absent : ∀ v ∈ st.versions, v.issued.number ≠ (repo, versionNumber)

/-- Up to the newest of the surviving numbers there are rows for surviving numbers only. -/
structure Snapshot (st : Store) (repo : ℕ) (surviving : List ℤ) : Prop where
  issued : ∀ n ∈ surviving, ∃ i ∈ st.issued, i.number = (repo, n)
  rows : ∀ newest, surviving.max? = some newest → ∀ v ∈ st.versions, v.repositoryId = repo →
    v.versionNumber ≤ newest → v.versionNumber ∈ surviving

def Asserts (ids : IdText) (st : Store) : Request → Prop
  | .writing repo versionNumber id _ => ⟨repo, versionNumber, id⟩ ∈ st.issued
  | .discarding repo versionNumber _ => Gone st repo versionNumber
  | .pruned repo surviving pruned => Snapshot st repo surviving ∧
      ∀ p ∈ pruned, ∃ n, p.directory = publicationPrefix ids repo n ∧ Gone st repo n
  | .sweeping repo surviving _ => Snapshot st repo surviving
  | .erasing keys => ∀ key ∈ keys, ∃ repo n, IsObject ids repo n key ∧ Gone st repo n
  | _ => True

theorem Gone.later {n : ℤ} (gone : Gone st repo n) (later : Later st st') : Gone st' repo n := by
  obtain ⟨i, mem, number⟩ := gone.issued
  refine ⟨⟨i, later.issued mem, number⟩, fun v memV same => ?_⟩
  rcases later.rows v memV with ⟨u, memU, old⟩ | above
  · exact gone.absent u memU (old ▸ same)
  · obtain ⟨repos, numbers⟩ := Prod.mk.inj (number.trans same.symm)
    exact (above i mem repos).ne numbers

theorem Snapshot.later {surviving : List ℤ} (snapshot : Snapshot st repo surviving)
    (later : Later st st') : Snapshot st' repo surviving := by
  refine ⟨fun n mem => ?_, fun newest found v memV repo le => ?_⟩
  · obtain ⟨i, mem, number⟩ := snapshot.issued n mem
    exact ⟨i, later.issued mem, number⟩
  · rcases later.rows v memV with ⟨u, memU, old⟩ | above
    · obtain ⟨repos, numbers, -⟩ := Issued.mk.inj old
      exact numbers ▸ snapshot.rows newest found u memU (repos.trans repo) (numbers ▸ le)
    · obtain ⟨i, mem, number⟩ := snapshot.issued newest (max?_mem found)
      obtain ⟨repos, rfl⟩ := Prod.mk.inj number
      exact absurd le (not_le.2 (above i mem (repos.trans repo.symm)))

theorem Asserts.later {q : Request} (h : Asserts ids st q) (later : Later st st') :
    Asserts ids st' q := by
  cases q with
  | writing => exact later.issued h
  | discarding => exact Gone.later h later
  | pruned =>
    refine ⟨h.1.later later, fun p mem => ?_⟩
    obtain ⟨n, directory, gone⟩ := h.2 p mem
    exact ⟨n, directory, gone.later later⟩
  | sweeping => exact Snapshot.later h later
  | erasing =>
    intro key mem
    obtain ⟨repo, n, isObject, gone⟩ := h key mem
    exact ⟨repo, n, isObject, gone.later later⟩
  | idle | publishing | finished => trivial

/-! ### Every statement -/

/-- No existing version has an object under the key. -/
def Unowned (ids : IdText) (st : Store) (key : Text) : Prop :=
  ∀ v ∈ st.versions, ¬IsObject ids v.repositoryId v.versionNumber key

theorem Gone.unowned {n : ℤ} {key : Text} (gone : Gone st repo n)
    (isObject : IsObject ids repo n key) : Unowned ids st key := fun v mem owned => by
  obtain ⟨repos, numbers⟩ := owned.unique isObject
  exact gone.absent v mem (Prod.ext repos numbers)

theorem Snapshot.unowned {surviving : List ℤ} {key : Text} (snapshot : Snapshot st repo surviving)
    (stray : isStrayKey (publicationsRoot ids repo) key surviving surviving.max? = true) :
    Unowned ids st key := fun v mem owned => by
  obtain ⟨n, newest, listed, found, le, absent⟩ := isStrayKey_iff.1 stray
  obtain ⟨repos, rfl⟩ := owned.of_listed listed
  exact absent (snapshot.rows newest found v mem repos le)

structure Good (ids : IdText) (st : Store) (o : Statement) : Prop where
  later : Later st (o.effect.apply st)
  inv : Inv ids (o.effect.apply st)
  asserts : Asserts ids (o.effect.apply st) o.next
  spares : ∀ key ∈ st.objects, ¬Unowned ids st key → key ∈ (o.effect.apply st).objects

section Statements

variable {next : Request} {key : Text}

section

variable (inv : Inv ids st)
include inv

theorem good_proceed (h : Asserts ids st next) : Good ids st (proceed next) :=
  ⟨later_apply nofun, inv, h, fun _ mem _ => mem⟩

theorem good_put (h : Asserts ids st next) : Good ids st ⟨[], .put key, next⟩ :=
  have later : Later st (apply (.put key) st) := later_apply nofun
  ⟨later, { inv with }, h.later later, fun key' mem _ => by
    by_cases same : key' = key
    · simp [apply, same]
    · simp [apply, same, mem]⟩

theorem good_delete (unowned : Unowned ids st key) (h : Asserts ids st next) :
    Good ids st ⟨[], .delete key, next⟩ :=
  have later : Later st (apply (.delete key) st) := later_apply nofun
  ⟨later, { inv with }, h.later later, fun key' mem owned => by
    have other : key' ≠ key := fun same => owned (same ▸ unowned)
    simp [apply, other, mem]⟩

theorem createVersion_good (repo : ℕ) (members : List Text) :
    Good ids st (createVersion st repo members) := by
  unfold createVersion
  split_ifs
  · exact good_proceed inv trivial
  · exact ⟨later_create inv repo members, inv.create repo members, trivial, fun _ mem _ => mem⟩

theorem readVersion_good (repo : ℕ) (versionNumber : ℤ) :
    Good ids st (readVersion st repo versionNumber) := by
  unfold readVersion
  split
  · exact good_proceed inv trivial
  · next v found =>
    have number := find?_some found
    simp only [and_eq_true, decide_eq_true_eq] at number
    obtain ⟨rfl, rfl⟩ := number
    split_ifs
    · exact good_proceed inv trivial
    · exact good_proceed inv (inv.recorded (mem_of_find?_eq_some found))

theorem markPublished_good {versionNumber : ℤ} {id : ℕ} (issued : ⟨repo, versionNumber, id⟩ ∈ st.issued) :
    Good ids st (markPublished ids st repo versionNumber id) := by
  unfold markPublished
  split_ifs with marked exists'
  · obtain ⟨v, mem, unpublished⟩ := any_eq_true.1 marked
    simp only [and_eq_true, decide_eq_true_eq] at unpublished
    obtain ⟨rfl, rfl, rfl⟩ := Issued.mk.inj
      (inv.eq_of_id issued (inv.recorded mem) unpublished.1.symm)
    exact ⟨later_apply nofun, inv.publish mem, trivial, fun _ mem _ => mem⟩
  · exact good_proceed inv trivial
  · refine good_proceed inv ⟨⟨_, issued, rfl⟩, fun v mem same => exists' ?_⟩
    have sameRow := inv.eq_of_number (inv.recorded mem) issued same
    exact any_eq_true.2 ⟨v, mem, decide_eq_true (Issued.mk.inj sameRow).2.2⟩

end

end Statements

/-! ### The transaction of a pass -/

section Prune

variable {keep : ℕ} {active : Option ℕ}

theorem mem_prunedRows (mem : v ∈ prunedRows st repo keep active) :
    v ∈ st.versionsOf repo ∧ v.id ∈ selectPrunable (st.versionsOf repo) active keep ∧
      st.isActive v.id = false := by
  simpa [prunedRows] using mem

section

variable (inv : Inv ids st)
include inv

theorem Inv.pruneRows (positive : keep ≠ 0) :
    Inv ids (apply (.prune ((prunedRows st repo keep active).map VersionRow.id)) st) := by
  refine inv.prune (fun v mem newest deleted => ?_) fun id deleted => ?_
  · obtain ⟨u, pruned, same⟩ := mem_map.1 deleted
    obtain ⟨inRepo, selected, -⟩ := mem_prunedRows pruned
    obtain ⟨memU, repoU⟩ := mem_versionsOf.1 inRepo
    obtain rfl := inv.row_of_id memU mem same
    subst repoU
    refine newest_notMem_selectPrunable positive ⟨fun a memA b memB => ?_,
      fun a memA b memB same => ?_⟩ inRepo newest selected
    all_goals
      obtain ⟨memA, repoA⟩ := mem_versionsOf.1 memA
      obtain ⟨memB, repoB⟩ := mem_versionsOf.1 memB
    · exact inv.row_of_id memA memB
    · exact inv.row_of_number memA memB (Prod.ext (repoA.trans repoB.symm) same)
  · obtain ⟨u, memU, rfl⟩ := mem_map.1 deleted
    exact (mem_prunedRows memU).2.2

theorem snapshot_survivingNumbers (gone : List ℕ) :
    Snapshot (apply (.prune gone) st) repo
      (survivingNumbers (st.versionsOf repo) gone) := by
  refine ⟨fun n mem => ?_, fun newest _ v mem inRepo _ => ?_⟩
  · obtain ⟨v, survives, rfl⟩ := mem_map.1 mem
    obtain ⟨memV, rfl⟩ := mem_versionsOf.1 (mem_of_mem_filter survives)
    exact ⟨v.issued, inv.recorded memV, rfl⟩
  · obtain ⟨mem, stays⟩ := mem_prune.1 mem
    refine mem_map_of_mem (mem_filter.2 ⟨mem_versionsOf.2 ⟨mem, inRepo⟩, ?_⟩)
    exact decide_eq_true stays

theorem gone_of_mem (mem : v ∈ st.versions) (deleted : v.id ∈ gone) :
    Gone (apply (.prune gone) st) v.repositoryId v.versionNumber := by
  refine ⟨⟨v.issued, inv.recorded mem, rfl⟩, fun u memU same => ?_⟩
  obtain ⟨memU, stays⟩ := mem_prune.1 memU
  obtain rfl := inv.row_of_number memU mem same
  exact stays deleted

theorem pruneRows_good (positive : keep ≠ 0) : Good ids st (pruneRows ids st repo keep) := by
  unfold RpmRetention.pruneRows
  split
  · exact good_proceed inv ⟨⟨nofun, nofun⟩, nofun⟩
  · next r _ =>
    refine ⟨later_apply nofun, inv.pruneRows positive,
      ⟨snapshot_survivingNumbers inv _, fun p mem => ?_⟩, fun _ mem _ => mem⟩
    obtain ⟨v, memV, rfl⟩ := mem_map.1 mem
    obtain ⟨inVersions, rfl⟩ := mem_versionsOf.1 (mem_prunedRows memV).1
    exact ⟨v.versionNumber, inv.stored v inVersions,
      gone_of_mem inv inVersions (mem_map_of_mem memV)⟩

end

end Prune

/-! ### Every run -/

theorem code_good {q : Request} {a : Action} {o : Statement} (inv : Inv ids st)
    (h : Asserts ids st q) (coded : code ids st q a = some o) : Good ids st o := by
  rw [code.eq_def] at coded
  split at coded
  · cases coded; exact good_proceed inv trivial
  · cases coded; exact good_put inv h
  · cases coded; exact createVersion_good inv _ _
  · cases coded; exact good_proceed inv trivial
  · cases coded; exact readVersion_good inv _ _
  · cases coded; exact good_put inv h
  · cases coded; exact markPublished_good inv h
  · cases coded; exact good_delete inv (Gone.unowned h (isObject_keyBelow _ _ _)) h
  · split_ifs at coded with zero
    · cases coded; exact good_proceed inv trivial
    · cases coded; exact pruneRows_good inv zero
  · split_ifs at coded
    cases coded
    exact good_proceed inv h.1
  · cases coded
    refine good_proceed inv fun key mem => ?_
    obtain ⟨p, memP, known⟩ := mem_flatMap.1 mem
    obtain ⟨n, directory, gone⟩ := h.2 p memP
    exact ⟨_, n, isObject_of_mem_knownVersionKeys (directory ▸ known), gone⟩
  · split_ifs at coded with stray
    · cases coded; exact good_delete inv (Snapshot.unowned h stray) h
    · cases coded; exact good_proceed inv h
  · cases coded
    obtain ⟨⟨_, n, isObject, gone⟩, rest⟩ := forall_mem_cons.1 h
    exact good_delete inv (gone.unowned isObject) rest
  · cases coded; exact good_proceed inv h
  · cases coded; exact good_proceed inv h
  · cases coded; exact good_proceed inv (forall_mem_cons.1 h).2
  · cases coded

theorem holds_of_reach {w : World Store Request (ℕ × ℤ)}
    (h : Reach (service ids).step Initial Any w) :
    (service ids).Holds (Inv ids) (Asserts ids) w := by
  refine Protocol.invariant (fun w e o holds _ coded => ?_) (fun w e o j holds _ coded _ _ => ?_)
    (fun w initial => ?_) h
  · have good := code_good holds.store (holds.procs e.1) coded
    exact ⟨good.inv, good.asserts⟩
  · exact (holds.procs j).later (code_good holds.store (holds.procs e.1) coded).later
  · obtain ⟨idle, versions, issued, inactive⟩ := initial
    refine .of_idle idle rfl ?_ trivial
    refine ⟨?_, ?_, ?_, ?_, ?_, fun r mem id found => ?_, ?_⟩
    case refine_6 => rw [inactive r mem] at found; cases found
    all_goals simp [versions, issued]

/-- In every run: no number of a repository is issued twice, an active publication is a version of
its repository, and a step that removes an object removes no object of an existing version. -/
theorem retention_keeps_versions {w : World Store Request (ℕ × ℤ)}
    (h : Reach (service ids).step Initial Any w) :
    (w.store.issued.map Issued.number).Nodup ∧
      (∀ r ∈ w.store.repositories, ∀ id, r.activePublicationId = some id →
        ∃ v ∈ w.store.versions, v.id = id ∧ v.repositoryId = r.id) ∧
      ∀ e w', (service ids).step w e = some w' → ∀ v ∈ w.store.versions, ∀ key ∈ w.store.objects,
        IsObject ids v.repositoryId v.versionNumber key → key ∈ w'.store.objects := by
  have holds := holds_of_reach h
  refine ⟨holds.store.numbersDistinct, holds.store.active,
    fun e w' taken v memV key mem owned => ?_⟩
  obtain ⟨o, coded, _, _, rfl⟩ := Protocol.step_eq_some taken
  have good := code_good holds.store (holds.procs e.1) coded
  exact good.spares key mem fun unowned => unowned v memV owned

/-! ### A pass beside a publication -/

/-- Identifiers as runs of one letter. -/
def letters : IdText where
  text n := List.replicate n 'a'
  injective := replicate_left_injective 'a'
  slashFree n mem := absurd (eq_of_mem_replicate mem) (by decide)

def oneRepository : World Store Request (ℕ × ℤ) where
  store := ⟨[⟨1, none⟩], [], [], 0, []⟩
  pool := .idle .idle

/-- A version is created by request `i` and published by request `j`. -/
def publishes (i j : ℕ) (versionNumber : ℤ) : List (ℕ × Action) :=
  [(i, .createVersion 1 ["p.rpm"]), (j, .publish 1 versionNumber), (j, .readVersion)] ++
    List.replicate 6 (j, .put) ++ [(j, .markPublished)]

def firstAndThird : List Text := [publicationPrefix letters 1 1, publicationPrefix letters 1 3]

/-- Request 4 deletes the first of two versions, a third one is begun, and the sweep has listed an
object of each. -/
def passBesidePublication : List (ℕ × Action) :=
  publishes 0 1 1 ++ publishes 2 3 2 ++
    [(4, .prune 1 1), (5, .createVersion 1 ["p.rpm"]), (6, .publish 1 3), (6, .readVersion),
      (6, .put), (4, .listKeys (firstAndThird.map (keyBelow · "repodata/primary.xml.gz")))]

theorem retention_keeps_versions_sweep :
    ∃ w w', Reach (service letters).step Initial Any w ∧
      (service letters).step w (4, .sweep) = some w' ∧
      w'.store.objects.length < w.store.objects.length ∧
      w.store.versions.map VersionRow.versionNumber = [3, 2] ∧
      (w.store.issued.map Issued.number).Nodup ∧
      ∀ v ∈ w.store.versions, ∀ key ∈ w.store.objects,
        IsObject letters v.repositoryId v.versionNumber key → key ∈ w'.store.objects := by
  obtain ⟨w, reached, ends⟩ :=
    Reach.exists_of_free (service letters).step Initial oneRepository ⟨rfl, rfl, rfl, by decide⟩
      passBesidePublication
      (fun w => (w.store.versions.map VersionRow.versionNumber == [3, 2] &&
        ((service letters).step w (4, .sweep)).any fun w' =>
          decide (w'.store.objects.length < w.store.objects.length)) = true) (by decide +kernel)
  simp only [and_eq_true, beq_iff_eq, Option.any_eq_true, decide_eq_true_eq] at ends
  obtain ⟨numbers, w', taken, fewer⟩ := ends
  obtain ⟨distinct, -, spares⟩ := retention_keeps_versions reached
  exact ⟨w, w', reached, taken, fewer, numbers, distinct, spares _ _ taken⟩

/-! ### Published versions -/

/-- All files of a version but these are stored. -/
def StoredBut (ids : IdText) (st : Store) (i : Issued) (files : List Text) : Prop :=
  ∀ name ∈ putOrder, name ∈ files ∨
    keyBelow (publicationPrefix ids i.repositoryId i.versionNumber) name ∈ st.objects

def Complete (ids : IdText) (st : Store) : Prop :=
  ∀ v ∈ st.versions, v.published = true → StoredBut ids st v.issued []

/-- While its row exists, a version that is written lacks only the files to come. -/
def Written (ids : IdText) (st : Store) : Request → Prop
  | .writing repo n id files =>
    ∀ v ∈ st.versions, v.issued = ⟨repo, n, id⟩ → StoredBut ids st v.issued files
  | _ => True

section

variable {q : Request} {o : Statement}

theorem Good.storedBut {files : List Text} (good : Good ids st o) (mem : v ∈ st.versions)
    (stored : StoredBut ids st v.issued files) :
    StoredBut ids (o.effect.apply st) v.issued files :=
  fun name file => (stored name file).imp_right fun found =>
    good.spares _ found fun unowned => unowned v mem (isObject_keyBelow _ _ _)

theorem Good.written (good : Good ids st o) (asserts : Asserts ids st q)
    (written : Written ids st q) : Written ids (o.effect.apply st) q := by
  cases q with
  | writing repo n id files =>
    intro v mem same
    rcases good.later.rows v mem with ⟨u, memU, old⟩ | above
    · rw [← old] at same ⊢
      exact good.storedBut memU (written u memU same)
    · obtain ⟨rfl, rfl, -⟩ := Issued.mk.inj same
      exact absurd (above _ asserts rfl) (lt_irrefl _)
  | _ => trivial

theorem code_complete {a : Action} (inv : Inv ids st) (asserts : Asserts ids st q)
    (complete : Complete ids st) (written : Written ids st q) (coded : code ids st q a = some o) :
    Complete ids (o.effect.apply st) ∧ Written ids (o.effect.apply st) o.next := by
  have good := code_good inv asserts coded
  have kept (v) (mem : v ∈ st.versions) (published : v.published = true) :=
    good.storedBut mem (complete v mem published)
  rw [code.eq_def] at coded
  split at coded
  all_goals try split_ifs at coded
  all_goals cases coded
  -- what neither writes a row nor is about the files of one
  all_goals try exact ⟨kept, trivial⟩
  · exact ⟨kept, good.written asserts written⟩
  · unfold createVersion
    split_ifs
    · exact ⟨complete, trivial⟩
    · exact ⟨forall_mem_cons.2 ⟨nofun, complete⟩, trivial⟩
  · unfold readVersion
    split
    · exact ⟨complete, trivial⟩
    · split_ifs
      · exact ⟨complete, trivial⟩
      · exact ⟨complete, fun _ _ _ _ => .inl⟩
  · refine ⟨kept, fun v mem same name file => ?_⟩
    rcases good.storedBut mem (written v mem same) name file with left | stored
    · rcases mem_cons.1 left with rfl | later
      · rw [same]
        exact .inr (.head _)
      · exact .inl later
    · exact .inr stored
  · unfold markPublished
    split_ifs
    · refine ⟨forall_mem_map.2 fun v mem published => ?_, trivial⟩
      split_ifs at published ⊢ with here
      · exact written v mem (inv.eq_of_id (inv.recorded mem) asserts here)
      · exact complete v mem published
    all_goals exact ⟨complete, trivial⟩
  · unfold pruneRows
    split
    · exact ⟨complete, trivial⟩
    · exact ⟨fun v mem => complete v (mem_prune.1 mem).1, trivial⟩

end

/-- As long as its row exists, a published version has all its metadata files. -/
theorem published_versions_complete {w} (h : Reach (service ids).step Initial Any w) :
    Complete ids w.store := by
  suffices holds : (service ids).Holds (Complete ids) (Written ids) w from holds.store
  refine Protocol.invariant (fun w e o holds known coded => ?_)
    (fun w e o j holds known coded _ _ => ?_) (fun w start => ?_)
    (h.strengthen fun _ => holds_of_reach)
  · exact code_complete known.1.store (known.1.procs e.1) holds.store (holds.procs e.1) coded
  · have good := code_good known.1.store (known.1.procs e.1) coded
    exact good.written (known.1.procs j) (holds.procs j)
  · exact .of_idle start.idle rfl (by simp [Complete, start.versions]) trivial

theorem published_versions_complete_swept : ∃ w, Reach (service letters).step Initial Any w ∧
    w.store.versions.map VersionRow.published = [false, true] ∧ Complete letters w.store := by
  obtain ⟨w, reached, ends⟩ :=
    Reach.exists_of_free (service letters).step Initial oneRepository ⟨rfl, rfl, rfl, by decide⟩
      (passBesidePublication ++ [(4, .sweep)])
      (fun w => w.store.versions.map VersionRow.published = [false, true]) (by decide +kernel)
  exact ⟨w, reached, ends, published_versions_complete reached⟩

end ArtifactKeeper.RpmRetention
