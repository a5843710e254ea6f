import ArtifactKeeper.Library.Generations
import ArtifactKeeper.Library.StepSystem
import ArtifactKeeper.Storage

/-!
# The packument cache

A package is invalidated by a prefix of its keys.  A compute that has read the package before may
store its result afterwards, so it takes a guard when it begins, the stamp of the package, and
`store_guarded` compares it before and after the write.
-/

namespace ArtifactKeeper.Packuments

open StepSystem List Function Prod

/-! ### Keys -/

def acceptVariant (wantAbbreviated : Bool) : Text :=
  if wantAbbreviated then "corgi" else "full"

def encodingLabel (gzip : Bool) : Text := if gzip then "gzip" else "identity"

def keyHead (repoKey package : Text) (memberList : Option Text) : Text :=
  match memberList with
  | some digest => repoKey ++ ':' :: package ++ ':' :: digest ++ [':']
  | none => repoKey ++ ':' :: package ++ [':']

def memberScopedCacheKey (baseUrlHash : Text → Text) (repoKey package : Text)
    (memberList : Option Text) (wantAbbreviated gzip : Bool) (baseUrl : Text) : Text :=
  keyHead repoKey package memberList ++ acceptVariant wantAbbreviated ++
    ':' :: encodingLabel gzip ++ ':' :: baseUrlHash baseUrl

def invalidationPrefix (repoKey package : Text) : Text := keyHead repoKey package none

theorem invalidationPrefix_isPrefix (baseUrlHash : Text → Text) (repoKey package : Text)
    (memberList : Option Text) (wantAbbreviated gzip : Bool) (baseUrl : Text) :
    invalidationPrefix repoKey package <+:
      memberScopedCacheKey baseUrlHash repoKey package memberList wantAbbreviated gzip baseUrl := by
  have head : invalidationPrefix repoKey package <+: keyHead repoKey package memberList := by
    cases memberList with
    | none => exact prefix_rfl
    | some digest => exact ⟨digest ++ [':'], by simp [invalidationPrefix, keyHead]⟩
  unfold memberScopedCacheKey
  rw [append_assoc, append_assoc]
  exact head.trans (prefix_append _ _)

/-! ### The in-process backend -/

structure CachedPackument where
  bytes : Bytes
  contentType : Text
  contentEncoding : Option Text
  etag : Text
  deriving DecidableEq

structure Entry where
  key : Text
  entry : CachedPackument
  storedAt : ℕ
  writer : ℕ
  deriving DecidableEq

structure Config where
  staleMax : ℕ
  maxEntries : ℕ
  positive : 0 < maxEntries

/-- At least one entry is kept. -/
def withMaxEntries (staleMax maxEntries : ℕ) : Config :=
  ⟨staleMax, max maxEntries 1, Nat.lt_of_lt_of_le Nat.zero_lt_one (Nat.le_max_right _ _)⟩

def Entry.elapsed (e : Entry) (now : ℕ) : ℕ := now - e.storedAt

def isExpired (age staleMax : ℕ) : Bool := staleMax ≤ age

def isOldest (now : ℕ) (entries : List Entry) (key : Text) : Bool :=
  entries.any fun e => e.key = key && entries.all fun other => other.elapsed now ≤ e.elapsed now

variable (cfg : Config)

/-- Store an entry; `oldest` is evicted if the map is full. -/
def set (now : ℕ) (oldest : Text) (new : Entry) (entries : List Entry) : Option (List Entry) :=
  let kept := entries.filter fun e => !isExpired (e.elapsed now) cfg.staleMax
  let room :=
    if cfg.maxEntries ≤ kept.length && !(kept.any fun e => e.key = new.key) then
      if isOldest now kept oldest then some (kept.filter fun e => e.key ≠ oldest) else none
    else some kept
  room.map fun kept => new :: kept.filter fun e => e.key ≠ new.key

def invalidatePrefix (front : Text) (entries : List Entry) : List Entry :=
  entries.filter fun e => !front.isPrefixOf e.key

/-! ### Calls -/

def invalidationGenerationsMax : ℕ := 1024

structure StoreGuard where
  front : Text
  stamp : ℕ ×ₗ ℕ

structure Taken where
  guard : StoreGuard
  time : ℕ

structure Cache where
  entries : List Entry
  generations : Generations Text
  /-- The guards that were taken, and the time that orders them with the invalidations (only
  observed). -/
  taken : List Taken
  clock : ℕ

/-- The stamp that a guard must match. -/
def Cache.generationOf (cache : Cache) (front : Text) : ℕ ×ₗ ℕ := cache.generations.stamp front

inductive Request
  | idle
  | begun
  | checking (taken : Taken) (key : Text) (entry : CachedPackument)
  | writing (taken : Taken) (key : Text) (entry : CachedPackument)
  | rechecking (taken : Taken) (key : Text)
  | dropping (taken : Taken) (key : Text)
  | stored (taken : Taken) (key : Text)
  | bumping (front : Text) (began : ℕ)
  | evicting (front : Text) (began : ℕ)
  | invalidated (front : Text) (began : ℕ)

inductive Action
  | beginStore (repoKey package : Text)
  | storeGuarded (guard : ℕ) (key : Text) (entry : CachedPackument)
  | invalidatePackage (repoKey package : Text)
  | proceed
  /-- The write to the backend, with the time and the entry it evicts if it must. -/
  | set (now : ℕ) (oldest : Text)

def code (i : ℕ) (cache : Cache) (q : Request) (a : Action) : Option (Cache × Request) :=
  match q, a with
  | .idle, .beginStore repoKey package =>
    let front := invalidationPrefix repoKey package
    let taken := ⟨⟨front, cache.generationOf front⟩, cache.clock⟩
    some ({ cache with taken := cache.taken ++ [taken], clock := cache.clock + 1 }, .begun)
  | .idle, .storeGuarded guard key entry =>
    cache.taken[guard]?.map fun taken => (cache, .checking taken key entry)
  | .checking taken key entry, .proceed =>
    if cache.generationOf taken.guard.front ≠ taken.guard.stamp then
      some (cache, .stored taken key)
    else some (cache, .writing taken key entry)
  | .writing taken key entry, .set now oldest =>
    (set cfg now oldest ⟨key, entry, now, i⟩ cache.entries).map fun entries =>
      ({ cache with entries := entries }, .rechecking taken key)
  | .rechecking taken key, .proceed =>
    if cache.generationOf taken.guard.front ≠ taken.guard.stamp then
      some (cache, .dropping taken key)
    else some (cache, .stored taken key)
  | .dropping taken key, .proceed =>
    some ({ cache with entries := invalidatePrefix taken.guard.front cache.entries },
      .stored taken key)
  | .idle, .invalidatePackage repoKey package =>
    some ({ cache with clock := cache.clock + 1 },
      .bumping (invalidationPrefix repoKey package) cache.clock)
  | .bumping front began, .proceed =>
    some ({ cache with generations := cache.generations.bump invalidationGenerationsMax front },
      .evicting front began)
  | .evicting front began, .proceed =>
    some ({ cache with entries := invalidatePrefix front cache.entries }, .invalidated front began)
  | _, _ => none

structure State where
  cache : Cache
  requests : ℕ → Request

def step (s : State) (e : ℕ × Action) : Option State :=
  (code cfg e.1 s.cache (s.requests e.1) e.2).map fun (cache, q) =>
    ⟨cache, update s.requests e.1 q⟩

def boot : State := ⟨⟨[], .start, [], 0⟩, fun _ => .idle⟩

open Option

section

variable {cfg} {s s' : State} {cache : Cache} {q : Request} {i : ℕ}

/-! ### The invariant -/

structure Cache.Later (cache later : Cache) : Prop where
  clock : cache.clock ≤ later.clock
  kept : ∀ t ∈ cache.taken, t ∈ later.taken
  fresh : ∀ t ∈ later.taken, t ∈ cache.taken ∨ cache.clock ≤ t.time
  stamps : ∀ front, cache.generationOf front ≤ later.generationOf front

/-- Guards come from the cache, and an invalidation that has bumped the generation is ahead of every
guard that was taken before it began. -/
def Request.Fits (cache : Cache) : Request → Prop
  | .idle | .begun => True
  | .checking t _ _ | .writing t _ _ | .rechecking t _ | .dropping t _ | .stored t _ =>
    t ∈ cache.taken
  | .bumping _ began => began < cache.clock
  | .evicting front began | .invalidated front began =>
    began < cache.clock ∧ ∀ t ∈ cache.taken, t.guard.front = front → t.time < began →
      t.guard.stamp < cache.generationOf front

theorem Request.Fits.mono {later : Cache} (fits : q.Fits cache) (grown : cache.Later later) :
    q.Fits later := by
  have clock := grown.clock
  have ahead : ∀ front began, (began < cache.clock ∧ ∀ t ∈ cache.taken, t.guard.front = front →
      t.time < began → t.guard.stamp < cache.generationOf front) →
      began < later.clock ∧ ∀ t ∈ later.taken, t.guard.front = front → t.time < began →
        t.guard.stamp < later.generationOf front := by
    rintro front _ ⟨_, ahead⟩
    refine ⟨by omega, fun t among same early => ?_⟩
    rcases grown.fresh t among with old | _
    · exact (ahead t old same early).trans_le (grown.stamps front)
    · omega
  cases q with
  | idle | begun => trivial
  | checking t | writing t | rechecking t | dropping t | stored t =>
    exact grown.kept t fits
  | bumping => exact Nat.lt_of_lt_of_le fits clock
  | evicting front began | invalidated front began => exact ahead front began fits

/-- The key a call has written, if it has got that far. -/
def Request.wrote : Request → Option Text
  | .rechecking _ key | .dropping _ key | .stored _ key => some key
  | _ => none

structure Inv (s : State) : Prop where
  taken : ∀ t ∈ s.cache.taken, t.guard.stamp ≤ s.cache.generationOf t.guard.front
  fits : ∀ i, (s.requests i).Fits s.cache
  written : ∀ e ∈ s.cache.entries, (s.requests e.writer).wrote = some e.key
  gone : ∀ i j t key front began, s.requests i = .stored t key →
    s.requests j = .invalidated front began → t.guard.front = front → t.time < began →
    front <+: key → ∀ e ∈ s.cache.entries, e.writer ≠ i

theorem Inv.moved (inv : Inv s) (later : s.cache.Later cache)
    (taken : ∀ t ∈ cache.taken, t.guard.stamp ≤ cache.generationOf t.guard.front)
    (fits : q.Fits cache)
    (entries : ∀ e ∈ cache.entries,
      e.writer ≠ i ∧ e ∈ s.cache.entries ∨ e.writer = i ∧ q.wrote = some e.key)
    (asStore : ∀ t key, q = .stored t key → ∀ j front began,
      s.requests j = .invalidated front began → t.guard.front = front → t.time < began →
      front <+: key → ∀ e ∈ cache.entries, e.writer ≠ i)
    (asInvalidation : ∀ front began, q = .invalidated front began →
      ∀ e ∈ cache.entries, ¬ front <+: e.key) :
    Inv ⟨cache, update s.requests i q⟩ := by
  refine ⟨taken, fun k => ?_, fun e among => ?_, ?_⟩
  · dsimp only
    by_cases mover : k = i
    · subst mover
      rw [update_self]
      exact fits
    · rw [update_of_ne mover]
      exact (inv.fits k).mono later
  · dsimp only
    rcases entries e among with ⟨other, old⟩ | ⟨rfl, wrote⟩
    · rw [update_of_ne other]
      exact inv.written e old
    · rw [update_self]
      exact wrote
  · intro k j t key front began stored invalidated same early below e among
    dsimp only at stored invalidated among
    by_cases store : k = i
    · subst store
      rw [update_self] at stored
      have other : j ≠ k := by
        rintro rfl
        rw [update_self, stored] at invalidated
        cases invalidated
      rw [update_of_ne other] at invalidated
      exact asStore t key stored j front began invalidated same early below e among
    · rw [update_of_ne store] at stored
      rintro rfl
      have old := ((entries e among).resolve_right fun mine => store mine.1).2
      by_cases invalidation : j = i
      · subst invalidation
        rw [update_self] at invalidated
        have wrote := inv.written e old
        rw [stored] at wrote
        rw [some.inj wrote] at below
        exact asInvalidation front began invalidated e among below
      · rw [update_of_ne invalidation] at invalidated
        exact inv.gone _ j t key front began stored invalidated same early below e old rfl

section

variable {before : Request} (inv : Inv s) (here : s.requests i = before)
include inv here

theorem Inv.fit : before.Fits s.cache := here ▸ inv.fits i

theorem Inv.entries_keep (fewer : ∀ e ∈ cache.entries, e ∈ s.cache.entries)
    (wrote : q.wrote = before.wrote) : ∀ e ∈ cache.entries,
      e.writer ≠ i ∧ e ∈ s.cache.entries ∨ e.writer = i ∧ q.wrote = some e.key := by
  intro e among
  have old := fewer e among
  by_cases mover : e.writer = i
  · refine .inr ⟨mover, ?_⟩
    rw [wrote, ← here, ← mover]
    exact inv.written e old
  · exact .inl ⟨mover, old⟩

theorem Inv.no_entry (nothing : before.wrote = none) : ∀ e ∈ s.cache.entries, e.writer ≠ i := by
  rintro e among rfl
  rw [← here, inv.written e among] at nothing
  cases nothing

end

/-! ### Steps -/

theorem Cache.Later.refl (cache : Cache) : cache.Later cache :=
  ⟨le_rfl, fun _ => id, fun _ => .inl, fun _ => le_rfl⟩

theorem Cache.Later.entries (cache : Cache) (entries : List Entry) :
    cache.Later { cache with entries := entries } :=
  ⟨le_rfl, fun _ => id, fun _ => .inl, fun _ => le_rfl⟩

variable {front : Text} {entries : List Entry} {e : Entry}

theorem mem_invalidatePrefix :
    e ∈ invalidatePrefix front entries ↔ e ∈ entries ∧ ¬ front <+: e.key := by
  unfold invalidatePrefix
  rw [mem_filter, Bool.not_eq_true', ← Bool.not_eq_true, isPrefixOf_iff_prefix]

theorem mem_of_mem_set {now : ℕ} {oldest : Text} {new : Entry} {entries' : List Entry}
    (done : set cfg now oldest new entries = some entries') (among : e ∈ entries') :
    e = new ∨ e ∈ entries := by
  obtain ⟨_, room, rfl⟩ := map_eq_some_iff.1 done
  refine (mem_cons.1 among).imp_right fun old => ?_
  have inside := (mem_filter.1 old).1
  split_ifs at room
  · rw [← some.inj room] at inside
    exact (mem_filter.1 (mem_filter.1 inside).1).1
  · rw [← some.inj room] at inside
    exact (mem_filter.1 inside).1

theorem Inv.on_the_way {before : Request} (inv : Inv s) (here : s.requests i = before)
    (later : s.cache.Later cache)
    (taken : ∀ t ∈ cache.taken, t.guard.stamp ≤ cache.generationOf t.guard.front)
    (fits : q.Fits cache) (entries : cache.entries = s.cache.entries)
    (wrote : q.wrote = before.wrote) (stored : ∀ t key, q ≠ .stored t key)
    (invalidated : ∀ front began, q ≠ .invalidated front began) :
    Inv ⟨cache, update s.requests i q⟩ := by
  refine inv.moved later taken fits (inv.entries_keep here (fun e among => ?_) wrote)
    (fun t key same => absurd same (stored t key)) fun front began same =>
      absurd same (invalidated front began)
  rw [← entries]
  exact among

theorem Inv.beginStore (inv : Inv s) (front : Text) (here : s.requests i = .idle) :
    Inv ⟨{ s.cache with
      taken := s.cache.taken ++ [⟨⟨front, s.cache.generationOf front⟩, s.cache.clock⟩],
      clock := s.cache.clock + 1 }, update s.requests i .begun⟩ := by
  refine inv.on_the_way here ?_ (fun t among => ?_) trivial rfl rfl nofun nofun
  · refine ⟨Nat.le_succ _, fun t => mem_append_left _, fun t among => ?_, fun _ => le_rfl⟩
    refine (mem_append.1 among).imp_right fun new => ?_
    rw [mem_singleton.1 new]
  · rcases mem_append.1 among with old | new
    · exact inv.taken t old
    · rw [mem_singleton.1 new]
      exact le_rfl

variable {t : Taken} {key : Text} {entry : CachedPackument}

section

variable (inv : Inv s)
include inv

theorem Inv.refused (here : s.requests i = .checking t key entry) :
    Inv ⟨s.cache, update s.requests i (.stored t key)⟩ := by
  have guard := inv.fit here
  have nothing := inv.no_entry here rfl
  exact inv.moved (.refl _) inv.taken guard (fun e among => .inl ⟨nothing e among, among⟩)
    (fun _ _ _ _ _ _ _ _ _ _ => nothing) nofun

theorem Inv.set {oldest : Text} {now : ℕ} (here : s.requests i = .writing t key entry)
    (done : Packuments.set cfg now oldest ⟨key, entry, now, i⟩ s.cache.entries = some entries) :
    Inv ⟨{ s.cache with entries := entries }, update s.requests i (.rechecking t key)⟩ := by
  have guard := inv.fit here
  have nothing := inv.no_entry here rfl
  refine inv.moved (.entries _ _) inv.taken guard (fun e among => ?_) nofun nofun
  rcases mem_of_mem_set done among with rfl | old
  · exact .inr ⟨rfl, rfl⟩
  · exact .inl ⟨nothing e old, old⟩

theorem Inv.passed (here : s.requests i = .rechecking t key)
    (same : s.cache.generationOf t.guard.front = t.guard.stamp) :
    Inv ⟨s.cache, update s.requests i (.stored t key)⟩ := by
  have guard := inv.fit here
  refine inv.moved (.refl _) inv.taken guard
    (inv.entries_keep here (fun _ => id) rfl) ?_ nofun
  intro _ _ stored j _ _ invalidated prefixed early
  obtain ⟨rfl, rfl⟩ := Request.stored.inj stored
  have ahead := inv.fits j
  rw [invalidated] at ahead
  have later := ahead.2 t guard prefixed early
  rw [← prefixed, same] at later
  exact absurd later (lt_irrefl _)

/-- A store that removes its package removes its own entry. -/
theorem Inv.drop (here : s.requests i = .dropping t key) :
    Inv ⟨{ s.cache with entries := invalidatePrefix t.guard.front s.cache.entries },
      update s.requests i (.stored t key)⟩ := by
  have guard := inv.fit here
  refine inv.moved (.entries _ _) inv.taken guard
    (inv.entries_keep here (fun e among => (mem_invalidatePrefix.1 among).1) rfl) ?_ nofun
  intro _ _ stored j _ _ _ prefixed _ below e among
  obtain ⟨rfl, rfl⟩ := Request.stored.inj stored
  rintro rfl
  obtain ⟨old, kept⟩ := mem_invalidatePrefix.1 among
  have wrote := inv.written e old
  rw [here] at wrote
  rw [← some.inj wrote, prefixed] at kept
  exact kept below

theorem Inv.bump {began : ℕ} (here : s.requests i = .bumping front began) :
    Inv ⟨{ s.cache with generations := s.cache.generations.bump invalidationGenerationsMax front },
      update s.requests i (.evicting front began)⟩ := by
  have clock := inv.fit here
  have grows := Generations.stamp_le_bump invalidationGenerationsMax s.cache.generations front
  refine inv.on_the_way here ⟨le_rfl, fun _ => id, fun _ => .inl, grows⟩
    (fun t among => (inv.taken t among).trans (grows _)) ⟨clock, ?_⟩ rfl rfl nofun nofun
  rintro t among rfl _
  exact (inv.taken t among).trans_lt (Generations.stamp_lt_bump _ _ _)

theorem Inv.evict {began : ℕ} (here : s.requests i = .evicting front began) :
    Inv ⟨{ s.cache with entries := invalidatePrefix front s.cache.entries },
      update s.requests i (.invalidated front began)⟩ := by
  have ahead := inv.fit here
  have nothing := inv.no_entry here rfl
  refine inv.moved (.entries _ _) inv.taken ahead (fun e among => ?_) nofun ?_
  · have old := (mem_invalidatePrefix.1 among).1
    exact .inl ⟨nothing e old, old⟩
  · intro _ _ same e among
    obtain ⟨rfl, rfl⟩ := Request.invalidated.inj same
    exact (mem_invalidatePrefix.1 among).2

theorem inv_code {a : Action} (coded : code cfg i s.cache (s.requests i) a =
    some (cache, q)) : Inv ⟨cache, update s.requests i q⟩ := by
  unfold code at coded
  split at coded
  · next repoKey package here =>
    cases coded
    exact inv.beginStore (invalidationPrefix repoKey package) here
  · next _ _ _ here =>
    obtain ⟨t, found, same⟩ := map_eq_some_iff.1 coded
    cases same
    exact inv.on_the_way here (.refl _) inv.taken (mem_of_getElem? found) rfl rfl nofun nofun
  · next t _ _ here =>
    have guard := inv.fit here
    split_ifs at coded
    · cases coded
      exact inv.refused here
    · cases coded
      exact inv.on_the_way here (.refl _) inv.taken guard rfl rfl nofun nofun
  · next t _ _ _ _ here =>
    obtain ⟨_, done, same⟩ := map_eq_some_iff.1 coded
    cases same
    exact inv.set here done
  · next t _ here =>
    have guard := inv.fit here
    split_ifs at coded with changed
    · cases coded
      exact inv.on_the_way here (.refl _) inv.taken guard rfl rfl nofun nofun
    · cases coded
      exact inv.passed here (not_not.1 changed)
  · next t _ here =>
    cases coded
    exact inv.drop here
  · next _ _ here =>
    cases coded
    exact inv.on_the_way here ⟨Nat.le_succ _, fun _ => id, fun _ => .inl, fun _ => le_rfl⟩ inv.taken
      (Nat.lt_succ_self _) rfl rfl nofun nofun
  · next _ _ here =>
    cases coded
    exact inv.bump here
  · next _ _ here =>
    cases coded
    exact inv.evict here
  · cases coded

end

theorem inv_of_reach (reach : Reach (step cfg) (· = boot) Any s) : Inv s := by
  refine reach.invariant ?_ ?_
  · rintro s rfl
    exact ⟨nofun, fun _ => trivial, nofun, nofun⟩
  · intro s e _ inv _ taken
    obtain ⟨⟨_, q⟩, coded, rfl⟩ := map_eq_some_iff.1 taken
    exact inv_code inv coded

end

/-- Once an invalidation of a package and a store that took its guard before that invalidation began
have both returned, the entry that the store has written is not in the cache. -/
theorem no_stale_packument {cfg : Config} {s : State}
    (reach : Reach (step cfg) (· = boot) Any s) (baseUrlHash : Text → Text)
    (repoKey package baseUrl : Text) (memberList : Option Text) (wantAbbreviated gzip : Bool)
    (store invalidation began : ℕ) (taken : Taken)
    (stored : s.requests store = .stored taken
      (memberScopedCacheKey baseUrlHash repoKey package memberList wantAbbreviated gzip baseUrl))
    (guard : taken.guard.front = invalidationPrefix repoKey package)
    (invalidated : s.requests invalidation =
      .invalidated (invalidationPrefix repoKey package) began)
    (before : taken.time < began) : ∀ e ∈ s.cache.entries, e.writer ≠ store :=
  (inv_of_reach reach).gone store invalidation taken _ _ began stored invalidated guard before
    (invalidationPrefix_isPrefix ..)

def leftPadKey : Text :=
  memberScopedCacheKey id "npm" "left-pad" none false true "host"

/-- The calls 1 and 2 have returned, a store whose guard is older than the invalidation. -/
def raced (s : State) : Bool :=
  match s.requests 1, s.requests 2 with
  | .stored taken key, .invalidated front began =>
    decide (key = leftPadKey ∧ taken.guard.front = invalidationPrefix "npm" "left-pad" ∧
      front = invalidationPrefix "npm" "left-pad" ∧ taken.time < began)
  | _, _ => false

theorem no_stale_packument_raced :
    ∃ s, Reach (step (withMaxEntries 60 2)) (· = boot) Any s ∧
      (∃ taken, s.requests 1 = .stored taken leftPadKey) ∧
      ∀ e ∈ s.cache.entries, e.writer ≠ 1 := by
  obtain ⟨s, reach, ends⟩ := Reach.exists_of_free (step (withMaxEntries 60 2)) (· = boot) boot rfl
      [(0, .beginStore "npm" "left-pad"),
        (1, .storeGuarded 0 leftPadKey ⟨[1], "json", none, "e"⟩), (1, .proceed),
        (2, .invalidatePackage "npm" "left-pad"), (2, .proceed), (2, .proceed),
        (1, .set 5 []), (1, .proceed), (1, .proceed)] (fun s => raced s = true) (by decide +kernel)
  unfold raced at ends
  split at ends
  · next taken _ _ began stored invalidated =>
    obtain ⟨rfl, guard, rfl, before⟩ := of_decide_eq_true ends
    exact ⟨s, reach, ⟨taken, stored⟩, no_stale_packument reach id _ _ _ _ _ _ 1 2 began taken stored
      guard invalidated before⟩
  · cases ends

end ArtifactKeeper.Packuments
