import ArtifactKeeper.Library.Protocol

/-!
# Flat Maven keys

On a cloud backend all repositories share the flat keys `maven/…`.  A write resolves the owner of
its key from the catalog (`guard_flat_key_writable`), claims the key (`claim_flat_key_for_write`),
puts the object, and takes the claim back if the put failed (`release_flat_key_claim`).
-/

namespace ArtifactKeeper.MavenFlat

abbrev StorageKey := List Char

/-- Filesystem backends give each repository its own keys. -/
inductive Backend
  | filesystem
  | cloud (id : ℕ)
  deriving DecidableEq

/-- Where an object is stored. -/
inductive Location
  | shared (backend : Backend) (key : StorageKey)
  | own (repo : ℕ) (key : StorageKey)
  deriving DecidableEq

/-- The `source` of an attribution row, as far as a release looks at it. -/
inductive Source
  | writeClaim
  | backfill
  deriving DecidableEq

structure Attribution where
  repositoryId : ℕ
  source : Source
  deriving DecidableEq

structure Store where
  (artifactRows metadataFiles : Backend → StorageKey → List ℕ)
  owner : Backend → StorageKey → Option Attribution
  objects : Location → Option ℕ

/-! ### Owner resolution -/

def checksumSuffixes : List StorageKey :=
  [['.', 's', 'h', 'a', '1'], ['.', 'm', 'd', '5'], ['.', 's', 'h', 'a', '2', '5', '6'],
    ['.', 'a', 's', 'c']]

def stripSuffix (key suffix : StorageKey) : Option StorageKey :=
  if suffix.isSuffixOf key then some (key.take (key.length - suffix.length)) else none

variable (key : StorageKey)

def stripChecksumSuffix : Option StorageKey :=
  checksumSuffixes.findSome? (stripSuffix key)

/-- The three lookups of `resolve_direct`, in order. -/
inductive Layer
  | artifactRow
  | attributionTable
  | metadataFiles
  deriving DecidableEq

def Layer.next : Layer → Option Layer
  | .artifactRow => some .attributionTable
  | .attributionTable => some .metadataFiles
  | .metadataFiles => none

variable (st : Store)

def Store.owners (backend : Backend) (key : StorageKey) : Layer → List ℕ
  | .artifactRow => (st.artifactRows backend key).eraseDups.take 2
  | .attributionTable => (st.owner backend key).toList.map (·.repositoryId)
  | .metadataFiles => (st.metadataFiles backend key).eraseDups.take 2

inductive LayerResult
  | absent
  | owner (repo : ℕ)
  | ambiguous
  deriving DecidableEq

def queryLayer : List ℕ → LayerResult
  | [] => .absent
  | [only] => .owner only
  | _ => .ambiguous

/-! ### Writes -/

structure Write where
  repo : ℕ
  backend : Backend
  key : StorageKey
  deriving DecidableEq

variable (w : Write)

def Write.location : Location :=
  match w.backend with
  | .filesystem => .own w.repo w.key
  | .cloud _ => .shared w.backend w.key

inductive FlatKeyWriteClaim
  | notApplicable
  | claimed
  | alreadyOwned
  deriving DecidableEq

variable (claim : FlatKeyWriteClaim)

def FlatKeyWriteClaim.needsReleaseOnFailure : Bool := claim = .claimed

inductive AppError
  | authorization (message : String)
  deriving DecidableEq

def ownedByAnother : AppError :=
  .authorization ("storage key '" ++ String.ofList key ++
    "' is owned by another repository; refusing cross-repository overwrite")

def concurrentlyClaimed : AppError :=
  .authorization ("storage key '" ++ String.ofList key ++ "' was concurrently claimed by another " ++
    "repository; refusing cross-repository first-publish race")

inductive Request
  | idle
  /-- The guard resolves the owner of the key, or of the base key of a sidecar. -/
  | guarding (w : Write) (base : Option StorageKey) (layer : Layer)
  | guarded (w : Write)
  /-- The claim's insert found a row. -/
  | conflicted (w : Write)
  | ready (w : Write) (claim : FlatKeyWriteClaim)
  | failed (w : Write) (claim : FlatKeyWriteClaim)
  | refused (error : AppError)
  | finished
  deriving DecidableEq

inductive Action
  | setArtifactRows (backend : Backend) (key : StorageKey) (repos : List ℕ)
  | setMetadataFiles (backend : Backend) (key : StorageKey) (repos : List ℕ)
  | write (w : Write)
  | query
  | insertClaim
  | readOwner
  | put
  | putFailed
  | release
  | drop

inductive Effect
  | none
  | setArtifactRows (backend : Backend) (key : StorageKey) (repos : List ℕ)
  | setMetadataFiles (backend : Backend) (key : StorageKey) (repos : List ℕ)
  | insertClaim (backend : Backend) (key : StorageKey) (repo : ℕ)
  | releaseClaim (backend : Backend) (key : StorageKey) (repo : ℕ)
  | put (location : Location) (repo : ℕ)

def setAt {α : Type} (f : Backend → StorageKey → α) (backend : Backend) (key : StorageKey) (v : α) :
    Backend → StorageKey → α :=
  fun b k => if b = backend ∧ k = key then v else f b k

/-- Only a write claim of the repository itself is deleted. -/
def released (repo : ℕ) (row : Option Attribution) : Option Attribution :=
  row.filter fun a => !(a.repositoryId = repo && a.source = .writeClaim)

def Effect.apply : Effect → Store → Store
  | .none, st => st
  | .setArtifactRows b k repos, st => { st with artifactRows := setAt st.artifactRows b k repos }
  | .setMetadataFiles b k repos, st => { st with metadataFiles := setAt st.metadataFiles b k repos }
  | .insertClaim b k repo, st => { st with owner := setAt st.owner b k (some ⟨repo, .writeClaim⟩) }
  | .releaseClaim b k repo, st => { st with owner := setAt st.owner b k (released repo (st.owner b k)) }
  | .put location repo, st => { st with objects := Function.update st.objects location (some repo) }

/-- Every query is one step, so no lock outlives a step. -/
abbrev Lock := Empty

abbrev Statement := Outcome Request Lock Effect

def proceed (next : Request) : Statement := ⟨[], .none, next⟩

/-- `guard_flat_key_writable` starts with the first lookup. -/
def guardFlatKeyWritable : Request :=
  if w.backend = .filesystem then .guarded w else .guarding w none .artifactRow

/-- No owner at this key: a sidecar inherits the owner of its base, other keys may be written. -/
def unattributed : Option StorageKey → Request
  | some _ => .guarded w
  | none =>
    match stripChecksumSuffix w.key with
    | some base => .guarding w (some base) .artifactRow
    | none => .guarded w

/-- One lookup of `attributed_owner`. -/
def attributedOwner (base : Option StorageKey) (layer : Layer) : Request :=
  match queryLayer (st.owners w.backend (base.getD w.key) layer) with
  | .owner repo => if repo = w.repo then .guarded w else .refused (ownedByAnother w.key)
  | .ambiguous => unattributed w base
  | .absent =>
    match layer.next with
    | some layer => .guarding w base layer
    | none => unattributed w base

/-- The insert of `claim_flat_key_for_write`. -/
def claimFlatKeyForWrite : Statement :=
  if w.backend = .filesystem then proceed (.ready w .notApplicable)
  else if (st.owner w.backend w.key).isNone then
    ⟨[], .insertClaim w.backend w.key w.repo, .ready w .claimed⟩
  else proceed (.conflicted w)

def readOwner : Request :=
  if (st.owner w.backend w.key).any (·.repositoryId = w.repo) then .ready w .alreadyOwned
  else .refused (concurrentlyClaimed w.key)

def releaseFlatKeyClaim : Statement :=
  if claim.needsReleaseOnFailure then ⟨[], .releaseClaim w.backend w.key w.repo, .finished⟩
  else proceed .finished

def code (q : Request) (a : Action) : Option Statement :=
  match a, q with
  | .setArtifactRows b k repos, .idle => some ⟨[], .setArtifactRows b k repos, .finished⟩
  | .setMetadataFiles b k repos, .idle => some ⟨[], .setMetadataFiles b k repos, .finished⟩
  | .write w, .idle => some (proceed (guardFlatKeyWritable w))
  | .query, .guarding w base layer => some (proceed (attributedOwner st w base layer))
  | .insertClaim, .guarded w => some (claimFlatKeyForWrite st w)
  | .readOwner, .conflicted w => some (proceed (readOwner st w))
  | .put, .ready w _ => some ⟨[], .put w.location w.repo, .finished⟩
  | .putFailed, .ready w claim => some (proceed (.failed w claim))
  | .release, .failed w claim => some (releaseFlatKeyClaim w claim)
  | .drop, _ => some (proceed .finished)
  | _, _ => none

def service : Protocol Store Request Lock Action Effect where
  holds _ := []
  apply := Effect.apply
  code := code

/-! ### Bytes and owner of a flat key -/

open StepSystem Option

variable {st} {q : Request} {a : Action} {o : Statement} {b : Backend} {k : StorageKey}

def HeldBy (st : Store) (b : Backend) (k : StorageKey) (repo : ℕ) : Prop :=
  (st.owner b k).map (·.repositoryId) = some repo

section

variable (b) (k) (st : Store)

/-- The object at the key was last written by the repository that holds the claim. -/
def Agrees : Prop :=
  ∀ repo, st.objects (.shared b k) = some repo → HeldBy st b k repo

def Relies (repo : ℕ) (q : Request) : Prop :=
  ∃ w claim, q = .ready w claim ∧ w.location = .shared b k ∧ w.repo = repo

/-- Such a request relies on the claim. -/
def Backed (q : Request) : Prop :=
  ∀ repo, Relies b k repo q → HeldBy st b k repo

variable (w : World Store Request Lock)

/-- A claim on the key is released only while there is no object and no other write relies on it. -/
def Sheltered (e : ℕ × Action) : Prop :=
  ∀ write claim, e.2 = .release → w.pool.proc e.1 = .failed write claim →
    write.backend = b → write.key = k → claim.needsReleaseOnFailure →
    w.store.objects (.shared b k) = none ∧ ∀ j, ¬Relies b k write.repo (w.pool.proc j)

structure Unclaimed : Prop where
  idle : w.pool = .idle .idle
  objects : w.store.objects (.shared b k) = none
  owner : w.store.owner b k = none

/-! ### Steps -/

inductive Touches (q : Request) (a : Action) : Effect → Request → Prop
  | keep {effect : Effect} {next : Request} (owner : (effect.apply st).owner b k = st.owner b k)
      (objects : (effect.apply st).objects (.shared b k) = st.objects (.shared b k))
      (backed : ∀ repo, Relies b k repo next → HeldBy st b k repo) : Touches q a effect next
  | claim {next : Request} (repo : ℕ) (free : st.owner b k = none)
      (only : ∀ r, Relies b k r next → r = repo) : Touches q a (.insertClaim b k repo) next
  | put {next : Request} (repo : ℕ) (relied : Relies b k repo q)
      (done : ∀ r, ¬Relies b k r next) : Touches q a (.put (.shared b k) repo) next
  | release {next : Request} (w : Write) (claim : FlatKeyWriteClaim) (action : a = .release)
      (phase : q = .failed w claim) (backend : w.backend = b) (key : w.key = k)
      (needed : claim.needsReleaseOnFailure) (done : ∀ r, ¬Relies b k r next) :
      Touches q a (.releaseClaim b k w.repo) next

end

variable {repo : ℕ} {next : Request}

theorem not_relies (other : ∀ w claim, next ≠ .ready w claim) :
    ¬Relies b k repo next := fun ⟨w, claim, same, _⟩ => other w claim same

theorem touches_proceed (other : ∀ w claim, next ≠ .ready w claim) :
    Touches b k st q a .none next :=
  .keep rfl rfl fun _ relies => absurd relies (not_relies other)

theorem attributedOwner_not_ready (st : Store) (w : Write) (base : Option StorageKey) (layer : Layer)
    (w' : Write) (claim : FlatKeyWriteClaim) : attributedOwner st w base layer ≠ .ready w' claim := by
  have unattributed (base : Option StorageKey) : unattributed w base ≠ .ready w' claim := by
    unfold MavenFlat.unattributed
    split
    · nofun
    · split <;> nofun
  unfold attributedOwner
  split
  · split_ifs <;> nofun
  · exact unattributed base
  · split
    · nofun
    · exact unattributed base

theorem location_eq_shared {w : Write} (here : w.location = .shared b k) :
    w.backend = b ∧ w.key = k ∧ w.backend ≠ .filesystem := by
  unfold Write.location at here
  split at here
  · cases here
  · next cloud =>
    simp only [Location.shared.injEq] at here
    exact ⟨here.1, here.2, by rw [cloud]; nofun⟩

theorem setAt_of_ne {α : Type} {f : Backend → StorageKey → α} {b' : Backend} {k' : StorageKey} {v : α}
    (ne : ¬(b = b' ∧ k = k')) : setAt f b' k' v b k = f b k := if_neg ne

theorem claim_touches :
    Touches b k st q a (claimFlatKeyForWrite st w).effect (claimFlatKeyForWrite st w).next := by
  unfold claimFlatKeyForWrite
  split_ifs with files free
  · refine .keep rfl rfl fun repo ⟨w', claim, same, here, _⟩ => ?_
    cases same
    exact absurd files (location_eq_shared here).2.2
  · by_cases here : b = w.backend ∧ k = w.key
    · obtain ⟨rfl, rfl⟩ := here
      refine .claim w.repo (isNone_iff_eq_none.1 free) fun r ⟨w', claim, same, _, owner⟩ => ?_
      cases same
      exact owner.symm
    · refine .keep (setAt_of_ne here) rfl fun repo ⟨w', claim, same, place, _⟩ => ?_
      cases same
      obtain ⟨rfl, rfl, -⟩ := location_eq_shared place
      exact absurd ⟨rfl, rfl⟩ here
  · exact touches_proceed nofun

theorem readOwner_touches : Touches b k st q a .none (readOwner st w) := by
  unfold readOwner
  split_ifs with mine
  · refine .keep rfl rfl fun repo ⟨w', claim, same, here, owner⟩ => ?_
    cases same
    obtain ⟨rfl, rfl, -⟩ := location_eq_shared here
    rw [Option.any_eq_true] at mine
    obtain ⟨_, found, same⟩ := mine
    simp only [decide_eq_true_eq] at same
    rw [HeldBy, found, map_some, same, owner]
  · exact touches_proceed nofun

theorem put_touches : Touches b k st (.ready w claim) a (.put w.location w.repo) .finished := by
  by_cases here : w.location = .shared b k
  · rw [here]
    exact .put w.repo ⟨w, claim, rfl, here, rfl⟩ fun r => not_relies nofun
  · exact .keep rfl (Function.update_of_ne (Ne.symm here) _ _) fun _ relies =>
      absurd relies (not_relies nofun)

theorem release_touches :
    Touches b k st (.failed w claim) .release (releaseFlatKeyClaim w claim).effect
      (releaseFlatKeyClaim w claim).next := by
  unfold releaseFlatKeyClaim
  split_ifs with needed
  · by_cases here : b = w.backend ∧ k = w.key
    · obtain ⟨rfl, rfl⟩ := here
      exact .release w claim rfl rfl rfl rfl needed fun r => not_relies nofun
    · exact .keep (setAt_of_ne here) rfl fun _ relies => absurd relies (not_relies nofun)
  · exact touches_proceed nofun

theorem code_touches (h : code st q a = some o) : Touches b k st q a o.effect o.next := by
  revert h
  fun_cases code st q a <;> intro h <;> cases h
  · exact .keep rfl rfl fun _ relies => absurd relies (not_relies nofun)
  · exact .keep rfl rfl fun _ relies => absurd relies (not_relies nofun)
  · refine touches_proceed fun w' claim => ?_
    unfold guardFlatKeyWritable
    split_ifs <;> nofun
  · exact touches_proceed (attributedOwner_not_ready st _ _ _)
  · exact claim_touches _
  · exact readOwner_touches _
  · exact put_touches _ _
  · exact touches_proceed nofun
  · exact release_touches _ _
  · exact touches_proceed nofun

/-! ### Runs -/

theorem heldBy_congr {st' : Store} (same : st'.owner b k = st.owner b k)
    (held : HeldBy st b k repo) : HeldBy st' b k repo := by
  rw [HeldBy, same]
  exact held

theorem heldBy_release {other : ℕ} (held : HeldBy st b k repo) (ne : repo ≠ other) :
    HeldBy ((Effect.releaseClaim b k other).apply st) b k repo := by
  obtain ⟨row, found, same⟩ := map_eq_some_iff.1 held
  have kept : released other (some row) = some row := by
    simp [released, same, ne]
  simp [HeldBy, Effect.apply, setAt, and_self, found, kept, map_some, same]

theorem not_heldBy_of_free (free : st.owner b k = none) : ¬HeldBy st b k repo := by
  rw [HeldBy, free]
  nofun

/-- A write keeps the agreement and has its claim when it is about to put. -/
theorem agrees_own : service.Own (Sheltered b k) (Agrees b k) (Backed b k) := by
  rintro w e ⟨_, _⟩ before sheltered coded
  cases code_touches (b := b) (k := k) coded with
  | keep owner objects backed =>
    refine ⟨fun repo found => ?_, fun repo relies => heldBy_congr owner (backed repo relies)⟩
    exact heldBy_congr owner (before.store repo (objects ▸ found))
  | claim _ free only =>
    refine ⟨fun r found => absurd (before.store r found) (not_heldBy_of_free free),
      fun r relies => ?_⟩
    rw [only r relies]
    simp [HeldBy, service, Effect.apply, setAt]
  | put repo relied done =>
    refine ⟨fun r found => ?_, fun r relies => absurd relies (done r)⟩
    have same : repo = r := by simpa [service, Effect.apply] using found
    exact same ▸ before.procs e.1 repo relied
  | release write claim action phase backend key needed done =>
    obtain ⟨empty, -⟩ := sheltered write claim action phase backend key needed
    refine ⟨fun r found => ?_, fun r relies => absurd relies (done r)⟩
    exact absurd (empty.symm.trans found) nofun

/-- No step takes away the claim that another write relies on. -/
theorem agrees_others : service.Others (Sheltered b k) (Agrees b k) (Backed b k) := by
  rintro w e ⟨_, _⟩ j before sheltered coded _ _ repo relies
  have held := before.procs j repo relies
  cases code_touches (b := b) (k := k) coded with
  | keep owner => exact heldBy_congr owner held
  | claim _ free => exact absurd held (not_heldBy_of_free free)
  | put => exact held
  | release write claim action phase backend key needed =>
    obtain ⟨-, unused⟩ := sheltered write claim action phase backend key needed
    exact heldBy_release held fun same => unused j (same ▸ relies)

/-- In every reachable state the object at the key was last written by the repository that holds its
claim. -/
theorem bytes_agree_with_owner {w}
    (h : Reach service.step (Unclaimed b k) (Sheltered b k) w) : Agrees b k w.store := by
  refine (Protocol.invariant agrees_own agrees_others (fun w start => ?_) h).store
  refine ⟨fun repo found => ?_, fun i repo relies => ?_, ?_⟩
  · rw [start.objects] at found
    cases found
  · rw [start.idle] at relies
    exact absurd relies (not_relies nofun)
  · rw [start.idle]
    exact Pool.coherent_idle _ rfl

def empty : World Store Request Lock :=
  ⟨⟨fun _ _ => [], fun _ _ => [], fun _ _ => none, fun _ => none⟩, .idle .idle⟩

theorem empty_unclaimed : Unclaimed b k empty := ⟨rfl, rfl, rfl⟩

/-- What `Sheltered` asks of a release while at most `n` requests are under way. -/
def shelteredCheck (n : ℕ) (w : World Store Request Lock) (e : ℕ × Action) : Bool :=
  match e.2, w.pool.proc e.1 with
  | .release, .failed write _ => (w.store.objects write.location).isNone &&
      (List.range n).all fun j => match w.pool.proc j with
        | .ready _ _ => false
        | _ => true
  | _, _ => true

theorem sheltered_of_check {n id : ℕ} (w e)
    (resting : Protocol.Resting n .idle w) (checked : shelteredCheck n w e = true) :
    Sheltered (.cloud id) k w e := by
  rintro write _ action phase backend rfl _
  have place : write.location = .shared (.cloud id) write.key := by
    simp [Write.location, backend]
  simp only [shelteredCheck, action, phase, Bool.and_eq_true, List.all_eq_true, List.mem_range,
    isNone_iff_eq_none] at checked
  refine ⟨place ▸ checked.1, fun j ⟨w', claim', ready, _⟩ => ?_⟩
  by_cases low : j < n
  · have other := checked.2 j low
    rw [ready] at other
    cases other
  · rw [resting j (Nat.not_lt.1 low)] at ready
    cases ready

/-- A failed first write releases its claim, and another repository takes the key. -/
theorem bytes_agree_with_owner_after_release :
    ∃ w, Reach service.step (Unclaimed (.cloud 0) []) (Sheltered (.cloud 0) []) w ∧
      w.store.objects (.shared (.cloud 0) []) = some 1 ∧ Agrees (.cloud 0) [] w.store := by
  obtain ⟨w, reached, ends⟩ : ∃ w,
      Reach service.step (Unclaimed (.cloud 0) []) (Sheltered (.cloud 0) []) w ∧
        w.store.objects (.shared (.cloud 0) []) = some 1 :=
    Protocol.exists_of_run_below (n := 2) (q := .idle) sheltered_of_check (.start empty_unclaimed)
      (fun _ _ => rfl)
      [(0, .write ⟨0, .cloud 0, []⟩), (0, .query), (0, .query), (0, .query), (0, .insertClaim),
        (0, .putFailed), (0, .release), (1, .write ⟨1, .cloud 0, []⟩), (1, .query), (1, .query),
        (1, .query), (1, .insertClaim), (1, .put)] _ (by decide)
  exact ⟨w, reached, ends, bytes_agree_with_owner reached⟩

/-- The first write of a repository claims the key; a second one finds its repository the owner and
puts the object; the put of the first fails and it releases the claim.  Another repository then
claims the key, under which the bytes of the first stay stored. -/
theorem foreign_bytes_under_claim :
    ∃ w, Reach service.step (Unclaimed (.cloud 0) []) Any w ∧
      w.store.objects (.shared (.cloud 0) []) = some 0 ∧
      w.store.owner (.cloud 0) [] = some ⟨1, .writeClaim⟩ ∧ ¬Agrees (.cloud 0) [] w.store := by
  obtain ⟨w, reached, bytes, claimed⟩ := Reach.exists_of_free service.step _ _ empty_unclaimed
      [(0, .write ⟨0, .cloud 0, []⟩), (0, .query), (0, .query), (0, .query), (0, .insertClaim),
        (1, .write ⟨0, .cloud 0, []⟩), (1, .query), (1, .query), (1, .insertClaim),
        (1, .readOwner), (1, .put), (0, .putFailed), (0, .release),
        (2, .write ⟨1, .cloud 0, []⟩), (2, .query), (2, .query), (2, .query), (2, .insertClaim)]
      (fun w => w.store.objects (.shared (.cloud 0) []) = some 0 ∧
        w.store.owner (.cloud 0) [] = some ⟨1, .writeClaim⟩) (by decide)
  refine ⟨w, reached, bytes, claimed, fun agrees => ?_⟩
  have held := agrees 0 bytes
  rw [HeldBy, claimed] at held
  cases held

end ArtifactKeeper.MavenFlat
