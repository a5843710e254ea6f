import ArtifactKeeper.Journal.Requests

/-!
# Journal rows and claim tokens

Rows are unique by id and by repository and key (`WellFormed`), the ids of pushes and sweeps stay
the ids of their own rows (`Names`), and no two sweeps hold one token (`distinct`).  These facts
hold in every run.
-/

namespace ArtifactKeeper.Journal

open StepSystem List Protocol Rows Int JournalRow
open Prod hiding map_map

variable {st : Store} {q : Request} {o : Statement} {w : Effect}
  {ok : World Store Request Lock → ℕ × Action → Prop}

/-! ### Rows -/

structure WellFormed (st : Store) : Prop where
  ids : (st.journal.map JournalRow.id).Nodup
  slots : (st.journal.map slot).Nodup
  below : ∀ row ∈ st.journal, row.id < st.nextId

variable {row : JournalRow}

theorem WellFormed.find_of_mem (wf : WellFormed st) (mem : row ∈ st.journal) :
    st.find row.id = some row := lookup_of_mem wf.ids mem

/-- What a row never changes. -/
def JournalRow.identity (row : JournalRow) : ℕ × Repo × StorageKey := (row.id, row.slot)

theorem identity_apply :
    ((w.apply st).journal.map identity).Sublist (st.journal.map identity) ∨
      ∃ row, (w.apply st).journal = row :: st.journal ∧ row.id = st.nextId ∧
        lookup slot row.slot st.journal = none := by
  have kept {κ : Type} [DecidableEq κ] {key : JournalRow → κ} (k : κ) {f : JournalRow → JournalRow}
      (keeps : ∀ row, (f row).identity = row.identity) :
      ((update key k f st.journal).map identity).Sublist
        (st.journal.map identity) := by
    rw [map_update k keeps]
  cases w with
  | register =>
    simp only [Effect.apply, Store.register]
    split
    · exact .inl (kept _ fun row => rfl)
    · next missing => exact .inr ⟨_, rfl, rfl, missing⟩
  | claim | tombstone | release => exact .inl (kept _ fun row => rfl)
  | commitBlob | reap | deleteRepository => exact .inl (filter_sublist.map _)
  | _ => exact .inl (Sublist.refl _)

theorem wellFormed_apply (wf : WellFormed st) : WellFormed (w.apply st) := by
  have unique {κ : Type} (key : ℕ × Repo × StorageKey → κ)
      (old : (st.journal.map (key ∘ identity)).Nodup)
      (new : ∀ row : JournalRow, row.id = st.nextId → lookup slot row.slot st.journal = none →
        ∀ old ∈ st.journal, key old.identity ≠ key row.identity) :
      ((w.apply st).journal.map (key ∘ identity)).Nodup := by
    rcases identity_apply (w := w) with sub | ⟨row, same, id, missing⟩
    · rw [← map_map] at old ⊢
      exact old.sublist (sub.map _)
    · rw [same, map_cons, nodup_cons]
      exact ⟨by simpa using new row id missing, old⟩
  refine ⟨unique fst wf.ids ?_, unique snd wf.slots ?_, fun row' mem => ?_⟩
  · exact fun row id _ old mem same => Nat.ne_of_lt (wf.below old mem) (same.trans id)
  · exact fun row _ missing old mem => lookup_eq_none missing mem
  · rcases apply_journal mem with ⟨row, old, evolves⟩ | ⟨id, r, _, _, rfl, _⟩
    · rw [evolves.id]
      exact Nat.lt_of_lt_of_le (wf.below row old) apply_nextId
    · rw [id]
      exact Nat.lt_succ_self _

/-! ### Pushes and sweeps -/

variable (st)

/-- The id was drawn for the slot: if the row is still there, it has that slot. -/
def Names (id : ℕ) (slot : Repo × StorageKey) : Prop :=
  id < st.nextId ∧ ∀ row ∈ st.journal, row.id = id → row.slot = slot

structure Journaled (p : Push) : Prop where
  names : Names st p.journalId (p.repo, p.key)
  past : p.registeredAt ≤ st.now

structure Claimed (c : Claim) : Prop where
  names : Names st c.id (c.repo, c.key)
  token : c.token < st.nextToken

structure Drawn (q : Request) : Prop where
  push : ∀ p, q.push = some p → Journaled st p
  claim : ∀ c, q.claim = some c → Claimed st c

variable {st}

theorem names_of_mem (wf : WellFormed st) (mem : row ∈ st.journal) : Names st row.id row.slot := by
  refine ⟨wf.below row mem, fun other mem' same => ?_⟩
  rw [inj_on_of_nodup_map wf.ids mem' mem same]

theorem names_apply {id : ℕ} {slot : Repo × StorageKey} (h : Names st id slot) :
    Names (w.apply st) id slot := by
  obtain ⟨drawn, named⟩ := h
  refine ⟨Nat.lt_of_lt_of_le drawn apply_nextId, fun row' mem same => ?_⟩
  rcases apply_journal mem with ⟨row, old, evolves⟩ | ⟨_, _⟩
  · rw [evolves.slot]
    exact named row old (evolves.id.symm.trans same)
  · omega

theorem names_registeredId (wf : WellFormed st) (r : Repo) (key : StorageKey) (session : Option ℕ) :
    Names (Effect.apply (.register r key session) st) (registeredId st r key) (r, key) := by
  unfold registeredId
  cases found : lookup slot (r, key) st.journal with
  | some _ =>
    obtain ⟨mem, slot⟩ := lookup_eq_some found
    rw [← slot]
    exact names_apply (names_of_mem wf mem)
  | none =>
    refine ⟨Nat.lt_succ_self _, fun row' mem equal => ?_⟩
    have equal : row'.id = st.nextId := equal
    rcases apply_journal mem with ⟨row, old, evolves⟩ | ⟨_, _, _, _, effect, slot, _⟩
    · have := wf.below row old
      have := evolves.id
      omega
    · cases effect
      exact slot

variable {p : Push}

theorem journaled_apply (h : Journaled st p) : Journaled (w.apply st) p :=
  ⟨names_apply h.names, le_trans h.past apply_now⟩

variable {c : Claim}

theorem claimed_apply (h : Claimed st c) : Claimed (w.apply st) c :=
  ⟨names_apply h.names, Nat.lt_of_lt_of_le h.token apply_nextToken⟩

theorem drawn_own : service.Own ok WellFormed Drawn := by
  intro v e o holds _ coded
  have sound := code_sound coded
  refine ⟨wellFormed_apply holds.store, fun p pushes => ?_, fun c claims => ?_⟩
  · rcases sound.push p pushes with old | ⟨⟨_, effect⟩, id, time⟩
    · exact journaled_apply ((holds.procs e.1).push p old)
    · rw [effect]
      refine ⟨?_, le_trans (le_of_eq time) apply_now⟩
      rw [id]
      exact names_registeredId holds.store _ _ _
  · rcases sound.claim c claims with old | ⟨effect, token, _, found, slot⟩
    · exact claimed_apply ((holds.procs e.1).claim c old)
    · rw [effect]
      obtain ⟨mem, id⟩ := lookup_eq_some found
      refine ⟨?_, ?_⟩
      · rw [← id, ← slot]
        exact names_apply (names_of_mem holds.store mem)
      · rw [token]
        exact Nat.lt_succ_self _

theorem drawn_others : service.Others ok WellFormed Drawn := by
  intro v e o j holds _ _ _ _
  exact ⟨fun p pushes => journaled_apply ((holds.procs j).push p pushes),
    fun c claims => claimed_apply ((holds.procs j).claim c claims)⟩

/-- No request is in flight and the journal is well formed. -/
structure Quiescent (w : World Store Request Lock) : Prop where
  quiet : w.pool = .idle .idle
  rows : WellFormed w.store

theorem drawn {w} (h : Reach service.step Quiescent ok w) : service.Holds WellFormed Drawn w := by
  refine invariant drawn_own drawn_others (fun w start => ?_) h
  exact .of_idle start.quiet rfl start.rows ⟨nofun, nofun⟩

/-! ### Tokens -/

/-- Two sweeps hold two tokens. -/
def Distinct (_ : Store) (q q' : Request) : Prop :=
  ∀ c c', q.claim = some c → q'.claim = some c' → c.token ≠ c'.token

def Known (ok : World Store Request Lock → ℕ × Action → Prop) (w : World Store Request Lock)
    (e : ℕ × Action) : Prop :=
  service.Holds WellFormed Drawn w ∧ ok w e

theorem distinct_meets : service.Meets (Known ok) Distinct := by
  intro v e o j pairs ⟨known, _⟩ coded other
  have mine (c c' : Claim) (next : o.next.claim = some c) (his : (v.pool.proc j).claim = some c') :
      c.token ≠ c'.token := by
    rcases (code_sound coded).claim c next with old | ⟨_, _⟩
    · exact pairs e.1 j (Ne.symm other) c c' old his
    · have := ((known.procs j).claim c' his).token
      omega
  exact ⟨mine, fun c c' his next => (mine c' c next his).symm⟩

theorem distinct_apart : service.Apart (Known ok) Distinct :=
  fun _ _ _ i j pairs _ _ _ _ ne => pairs i j ne

theorem distinct {w} (h : Reach service.step Quiescent ok w) : Pairs Distinct w := by
  refine pairwise distinct_meets distinct_apart (fun w start i j _ => ?_)
    (h.strengthen fun _ => drawn)
  rw [start.quiet]
  nofun

variable {a : Action}

/-! ### Conditions -/

variable (st) (w : World Store Request Lock) (e : ℕ × Action)

/-- Every delete is issued before the sweep's own claim lapses. -/
def Prompt : Prop :=
  match e.2, w.pool.proc e.1 with
  | .deleteObject, .tombstoned _ expires => w.store.now < expires
  | .deleteObjectFailed _, .tombstoned _ expires => w.store.now < expires
  | _, _ => True

/-- The push's row is gone, or carries a tombstone that had not lapsed when the push registered. -/
def Condemned (p : Push) : Prop :=
  ∀ row ∈ st.journal, row.id = p.journalId → row.pendingDeleteAt.isSome ∧
    ∀ expires, row.claimExpiresAt = some expires → p.registeredAt ≤ expires

/-- A row is tombstoned only when every push of the key in flight on another row is condemned or has
a fresh row; a push commits over a lapsed tombstone on its own row only if it had lapsed before the
push registered; and no repository is deleted while a sweep stands between its tombstone on one of
the repository's rows and its delete. -/
def Orderly : Prop :=
  match e.2, w.pool.proc e.1 with
  | .tombstone, .claimed c =>
    ∀ j p, (w.pool.proc j).push = some p → p.key = c.key → p.journalId ≠ c.id →
      Condemned w.store p ∨ ∃ row ∈ w.store.journal, row.id = p.journalId ∧ row.fresh w.store.now
  | .commitBlob, .written p _ =>
    ∀ row ∈ w.store.journal, row.id = p.journalId → row.pendingDeleteAt.isSome →
      ∀ expires, row.claimExpiresAt = some expires → expires ≤ w.store.now →
        expires < p.registeredAt
  | .deleteRepository r, _ => ∀ j c expires, w.pool.proc j = .tombstoned c expires → c.repo ≠ r
  | _, _ => True

def Careful : Prop := Prompt w e ∧ Orderly w e

/-! ### The row of a tombstone -/

/-- The tombstone of the sweep is in force. -/
structure Binding (c : Claim) (expires : ℤ) : Prop where
  unreferenced : isReferenced st c.key = false
  row : ∃ row ∈ st.journal, row.id = c.id ∧ row.slot = (c.repo, c.key) ∧
    row.claimToken = some c.token ∧ row.pendingDeleteAt.isSome ∧
    row.claimExpiresAt = some expires

/-- What a sweep knows until its claim lapses. -/
def SweepOpen : Request → Prop
  | .tombstoned c expires => st.now < expires → Binding st c expires
  | _ => True

def Claiming : Prop :=
  (service.Holds WellFormed Drawn w ∧ Pairs Distinct w) ∧ Careful w e

def Guarded : Prop :=
  (service.Holds WellFormed Drawn w ∧ service.Holds (fun _ => True) SweepOpen w) ∧ Careful w e

variable {st} {w : Effect}

theorem claimForBlobCommit_doomed (wf : WellFormed st) (mem : row ∈ st.journal)
    (doomed : row.doomed st.now) (id : ℕ) (r : Repo) :
    claimForBlobCommit st id r row.storageKey = .doomed := by
  unfold claimForBlobCommit
  by_cases own : row.id = id
  · subst own
    rw [wf.find_of_mem mem]
    simp [doomed]
  · rw [if_pos (any_eq_true.2 ⟨row, mem, by simp [own, doomed]⟩)]

variable {expires : ℤ}

theorem doomed_of_live (tomb : row.pendingDeleteAt.isSome)
    (lease : row.claimExpiresAt = some expires) (live : st.now < expires) : row.doomed st.now := by
  simp [doomed, tomb, lease, live]

/-- A write by another request leaves a tombstone in force until its claim lapses. -/
theorem binding_apply (wf : WellFormed st) (b : Binding st c expires) (live : st.now < expires)
    (warranted : Warranted st q w) (mover : Drawn st q)
    (foreign : ∀ c', q.claim = some c' → c'.token ≠ c.token)
    (standing : ∀ r, w = .deleteRepository r → c.repo ≠ r) : Binding (w.apply st) c expires := by
  obtain ⟨unreferenced, row, mem, id, slot, token, tomb, lease⟩ := b
  have key : row.storageKey = c.key := congrArg snd slot
  have doomed := doomed_of_live tomb lease live
  have presents {id' : ℕ} (h : Presents st q id') : row.id ≠ id' := by
    rintro rfl
    obtain ⟨c', _, claims, found', token'⟩ := h
    rw [wf.find_of_mem mem] at found'
    cases found'
    rw [token] at token'
    exact foreign c' claims (Option.some.inj token').symm
  cases w with
  | register r k =>
    refine ⟨unreferenced, ?_⟩
    simp only [Effect.apply, Store.register]
    split
    · by_cases same : row.slot = (r, k)
      · exact ⟨_, mem_update_of_eq mem same, id, slot, token, tomb, lease⟩
      · exact ⟨row, mem_update_of_ne mem same, id, slot, token, tomb, lease⟩
    · exact ⟨row, mem_cons_of_mem _ mem, id, slot, token, tomb, lease⟩
  | commitBlob =>
    obtain ⟨p, rfl, rfl, rfl, rfl, cleared, _⟩ := warranted
    have other : p.key ≠ c.key := by
      intro same
      rw [same, ← key, claimForBlobCommit_doomed wf mem doomed] at cleared
      cases cleared
    have kept : row.id ≠ p.journalId := by
      intro same
      have := (mover.push p rfl).names.2 row mem same
      exact other ((congrArg snd this).symm.trans key)
    refine ⟨?_, row, mem_filter.2 ⟨mem, by simpa using kept⟩, id, slot, token, tomb, lease⟩
    simp only [Effect.apply, Store.commitBlob, isReferenced] at unreferenced ⊢
    split_ifs
    · exact unreferenced
    · simp [other, unreferenced]
  | claim id' =>
    obtain ⟨_, found', lapsed⟩ := warranted
    have kept : row.id ≠ id' := by
      rintro rfl
      rw [wf.find_of_mem mem] at found'
      cases found'
      simp only [lease, Option.all_some, decide_eq_true_eq] at lapsed
      omega
    exact ⟨unreferenced, row, mem_update_of_ne mem kept, id, slot, token, tomb, lease⟩
  | tombstone =>
    obtain ⟨c', row', rfl, rfl, found', token', _⟩ := warranted
    have kept := presents ⟨c', row', rfl, found', token'⟩
    exact ⟨unreferenced, row, mem_update_of_ne mem kept, id, slot, token, tomb, lease⟩
  | release =>
    have kept := presents warranted
    exact ⟨unreferenced, row, mem_update_of_ne mem kept, id, slot, token, tomb, lease⟩
  | reap =>
    have kept := presents warranted
    exact ⟨unreferenced, row, mem_filter.2 ⟨mem, by simpa using kept⟩, id, slot, token, tomb, lease⟩
  | deleteRepository r =>
    have kept : row.repositoryId ≠ r := by
      rw [show row.repositoryId = c.repo from congrArg fst slot]
      exact standing r rfl
    refine ⟨?_, row, mem_filter.2 ⟨mem, by simpa using kept⟩, id, slot, token, tomb, lease⟩
    simp only [Effect.apply, isReferenced, any_filter, any_eq_false, Bool.and_eq_true,
      not_and] at unreferenced ⊢
    exact fun b mem _ => unreferenced b mem
  | _ => exact ⟨unreferenced, row, mem, id, slot, token, tomb, lease⟩

theorem binding_of_tombstone (mine : Claimed st c)
    (warranted : Warranted st (.claimed c) (.tombstone c.id)) :
    Binding (Effect.apply (.tombstone c.id) st) c (st.now + claimTtl) := by
  obtain ⟨_, row, ⟨⟩, _, found, token, live⟩ := warranted
  obtain ⟨mem, id⟩ := lookup_eq_some found
  have slot := mine.names.2 row mem id
  have key : row.storageKey = c.key := congrArg snd slot
  simp only [sharedLiveness, Bool.and_eq_true, Bool.not_eq_true', key] at live
  exact ⟨live.1, _, mem_update_of_eq mem id, id, slot, token, rfl, rfl⟩

/-! ### Which action leads where -/

theorem deletes_repository {r : Repo} (h : code st q a = some o)
    (effect : o.effect = .deleteRepository r) : a = .deleteRepository r := by
  cases a with
  | deleteRepository => cases q <;> cases h; cases effect; rfl
  | register => cases q <;> cases h; unfold register at effect; split_ifs at effect
  | commitBlob =>
    cases q <;> cases h
    unfold commitBlob at effect
    split at effect
    · cases effect
    · split_ifs at effect
  | claim =>
    cases q <;> try cases h
    simp only [code, claim] at h
    split at h
    · split_ifs at h; cases h; cases effect
    · cases h
  | tombstone | tombstoneUnacknowledged =>
    cases q <;> cases h
    unfold tombstone at effect
    split at effect <;> cases effect
  | deleteObjectFailed landed => cases q <;> cases h; cases landed <;> cases effect
  | reap => cases q <;> cases h; unfold reap at effect; split_ifs at effect
  | release => cases q <;> cases h; unfold release at effect; split_ifs at effect
  | _ => cases q <;> cases h <;> cases effect

theorem claimed_tombstones {c' : Claim} (h : code st (.claimed c) a = some o)
    (next : o.next = .tombstoned c' expires) : a = .tombstone := by
  cases a with
  | tombstone => rfl
  | tombstoneUnacknowledged =>
    cases h
    unfold tombstone at next
    split at next <;> cases next
  | _ => simp [code] at h <;> subst h <;> cases next

theorem sweepOpen_own : service.Own Claiming (fun _ => True) SweepOpen := by
  intro v e o holds ⟨⟨known, _⟩, _⟩ coded
  have sound := code_sound coded
  refine ⟨trivial, ?_⟩
  change SweepOpen (o.effect.apply v.store) o.next
  cases next : o.next with
  | tombstoned c expires =>
    intro live
    rcases sound.tombstoned c expires next with ⟨stays, _, effect⟩ | ⟨phase, effect, rfl⟩
    · have mine := holds.procs e.1
      rw [← stays, next] at mine
      rw [effect] at live ⊢
      simp only [Effect.apply] at live
      have before := mine (by omega)
      exact ⟨before.unreferenced, before.row⟩
    · have warranted := sound.warranted
      rw [phase, effect] at warranted
      rw [effect]
      refine binding_of_tombstone ((known.procs e.1).claim c ?_) warranted
      rw [phase]
      rfl
  | _ => trivial

theorem sweepOpen_others : service.Others Claiming (fun _ => True) SweepOpen := by
  intro v e o j holds ⟨⟨known, tokens⟩, careful⟩ coded other _
  have mine := holds.procs j
  change SweepOpen (o.effect.apply v.store) (v.pool.proc j)
  cases phase : v.pool.proc j with
  | tombstoned c expires =>
    intro live
    rw [phase] at mine
    have now := lt_of_le_of_lt (apply_now (w := o.effect)) live
    refine binding_apply known.store (mine now) now (code_sound coded).warranted (known.procs e.1)
      (fun c' claims => ?_) fun r effect => ?_
    · exact tokens e.1 j (Ne.symm other) c' c claims (by rw [phase]; rfl)
    · have orderly := careful.2
      simp only [Orderly, deletes_repository coded effect] at orderly
      exact orderly j c expires phase
  | _ => trivial

theorem sweepOpen {w} (h : Reach service.step Quiescent Careful w) :
    service.Holds (fun _ => True) SweepOpen w := by
  refine invariant sweepOpen_own sweepOpen_others (fun w start => ?_)
    (h.strengthen fun _ before => ⟨drawn before, distinct before⟩)
  exact .of_idle start.quiet rfl trivial trivial

/-! ### Condemned pushes -/

theorem condemned_apply (mine : Journaled st p) (h : Condemned st p) :
    Condemned (w.apply st) p := by
  intro _ mem same
  rcases apply_journal mem with ⟨row, old, evolves⟩ | ⟨_, _⟩
  · obtain ⟨tomb, lease⟩ := h row old (evolves.id.symm.trans same)
    refine ⟨evolves.tombstone tomb, fun expires found => ?_⟩
    rcases evolves.lease with kept | ⟨_, renewed, after⟩
    · exact lease expires (kept.symm.trans found)
    · rw [renewed] at found
      cases found
      exact le_trans mine.past after
  · have := mine.names.1
    omega

/-- While a tombstone is in force, pushes of its key are condemned. -/
def Condemns (st : Store) (q q' : Request) : Prop :=
  ∀ p c expires, q.push = some p → q' = .tombstoned c expires → p.key = c.key →
    st.now < expires → Condemned st p

theorem condemned_of_registers (wf : WellFormed st) (made : Registers st p w)
    (allowed : isReclaimed st p.repo p.key = false) (b : Binding st c expires)
    (same : p.key = c.key) (live : st.now < expires) : Journaled st p ∧ Condemned st p := by
  obtain ⟨row, mem, _, slot, _, tomb, lease⟩ := b.row
  obtain ⟨_, id, time⟩ := made
  have key : row.storageKey = p.key := (congrArg snd slot).trans same.symm
  have repo : row.repositoryId = p.repo := by
    by_contra foreign
    refine Bool.eq_false_iff.1 allowed (any_eq_true.2 ⟨row, mem, ?_⟩)
    simp [key, foreign, reclaiming, tomb, lease, live]
  have own : row.slot = (p.repo, p.key) := Prod.ext repo key
  have found := lookup_of_mem wf.slots mem
  rw [own] at found
  have named : p.journalId = row.id := by rw [id, registeredId, found]; rfl
  refine ⟨⟨?_, le_of_eq time⟩, fun other mem' equal => ?_⟩
  · rw [named, ← own]
    exact names_of_mem wf mem
  · rw [inj_on_of_nodup_map wf.ids mem' mem (equal.trans named)]
    refine ⟨tomb, fun expires' found' => ?_⟩
    rw [lease] at found'
    cases found'
    omega

theorem condemned_of_tombstone (mine : Journaled st p) (theirs : Claimed st c)
    (warranted : Warranted st (.claimed c) (.tombstone c.id)) (same : p.key = c.key)
    (orderly : p.journalId ≠ c.id →
      Condemned st p ∨ ∃ row ∈ st.journal, row.id = p.journalId ∧ row.fresh st.now) :
    Condemned (Effect.apply (.tombstone c.id) st) p := by
  have ttl := claimTtl_nonneg
  by_cases own : p.journalId = c.id
  · intro _ mem equal
    rcases mem_update mem with ⟨_, other⟩ | ⟨_, _, _, rfl⟩
    · exact absurd (equal.trans own) other
    · refine ⟨rfl, fun expires found => ?_⟩
      cases found
      have := mine.past
      omega
  · rcases orderly own with condemned | ⟨sibling, mem, id, fresh⟩
    · exact condemned_apply mine condemned
    · obtain ⟨_, row, ⟨⟩, _, found, _, live⟩ := warranted
      obtain ⟨mem', id'⟩ := lookup_eq_some found
      have slot := mine.names.2 sibling mem id
      have slot' := theirs.names.2 row mem' id'
      have key : sibling.storageKey = row.storageKey :=
        (congrArg snd slot).trans (same.trans (congrArg snd slot').symm)
      simp only [sharedLiveness, Bool.and_eq_true, Bool.not_eq_true'] at live
      have blocked := any_eq_false.1 live.2 sibling mem
      simp [key, fresh, id, id', own] at blocked

theorem condemns_meets : service.Meets Guarded Condemns := by
  intro v e o j pairs ⟨⟨known, sweeps⟩, careful⟩ coded other
  have sound := code_sound coded
  constructor
  · intro p c expires pushes phase same live
    have now := lt_of_le_of_lt (apply_now (w := o.effect)) live
    rcases sound.push p pushes with old | made
    · exact condemned_apply ((known.procs e.1).push p old)
        (pairs e.1 j (Ne.symm other) p c expires old phase same now)
    · have warranted := sound.warranted
      obtain ⟨_, effect⟩ := made.1
      rw [effect] at warranted
      have binding := sweeps.procs j
      rw [phase] at binding
      obtain ⟨mine, condemned⟩ :=
        condemned_of_registers known.store made warranted (binding now) same now
      exact condemned_apply mine condemned
  · intro p c expires pushes next same live
    have mine := (known.procs j).push p pushes
    rcases sound.tombstoned c expires next with ⟨stays, _⟩ | ⟨phase, effect, _⟩
    · have now := lt_of_le_of_lt (apply_now (w := o.effect)) live
      exact condemned_apply mine (pairs j e.1 other p c expires pushes (stays ▸ next) same now)
    · have warranted := sound.warranted
      have orderly := careful.2
      rw [phase] at coded
      simp only [Orderly, claimed_tombstones coded next, phase] at orderly
      rw [phase, effect] at warranted
      have theirs := (known.procs e.1).claim c (by rw [phase]; rfl)
      change Condemned (o.effect.apply v.store) p
      rw [effect]
      exact condemned_of_tombstone mine theirs warranted same (orderly j p pushes same)

theorem condemns_apart : service.Apart Guarded Condemns := by
  intro v e o i j pairs ⟨⟨known, _⟩, _⟩ _ _ _ ne p c expires pushes phase same live
  have now := lt_of_le_of_lt (apply_now (w := o.effect)) live
  exact condemned_apply ((known.procs i).push p pushes)
    (pairs i j ne p c expires pushes phase same now)

theorem condemns {w} (h : Reach service.step Quiescent Careful w) : Pairs Condemns w := by
  refine pairwise condemns_meets condemns_apart (fun w start i j _ => ?_)
    (h.strengthen fun _ before => ⟨drawn before, sweepOpen before⟩)
  rw [start.quiet]
  nofun

/-! ### Committed blobs keep their objects -/

open Option Bool

/-- No sweep has deleted the object of the key since `stamp` deletes had happened. -/
def Intact (st : Store) (key : StorageKey) (stamp : ℕ) : Prop :=
  stamp = st.deletes key ∧ st.objects key = true

/-- Every committed blob has kept the object that its push wrote. -/
def Kept (st : Store) : Prop := ∀ b ∈ st.blobs, Intact st b.storageKey b.stamp

/-- A push that has written its object still has it or can no longer commit. -/
def PushOpen (st : Store) : Request → Prop
  | .written p stamp => Intact st p.key stamp ∨ Condemned st p
  | _ => True

variable {key : StorageKey}

theorem tombstoned_deletes (h : code st (.tombstoned c expires) a = some o)
    (effect : o.effect = .deleteObject key) :
    a = .deleteObject ∨ ∃ landed, a = .deleteObjectFailed landed := by
  cases a with
  | deleteObject => exact .inl rfl
  | deleteObjectFailed landed => exact .inr ⟨landed, rfl⟩
  | _ => simp [code] at h <;> subst h <;> cases effect

theorem written_commits {stamp : ℕ} {r : Repo} {id stamp' : ℕ}
    (h : code st (.written p stamp) a = some o) (effect : o.effect = .commitBlob r key id stamp') :
    a = .commitBlob := by
  cases a with
  | commitBlob => rfl
  | _ => simp [code] at h <;> subst h <;> cases effect

theorem condemned_commit (condemned : Condemned st p)
    (cleared : claimForBlobCommit st p.journalId p.repo p.key = .cleared)
    (alive : st.repositories p.repo)
    (orderly : ∀ row ∈ st.journal, row.id = p.journalId → row.pendingDeleteAt.isSome →
      ∀ expires, row.claimExpiresAt = some expires → expires ≤ st.now → expires < p.registeredAt) :
    (st.blobs.any fun b => b.storageKey = p.key && b.repositoryId = p.repo) = true := by
  unfold claimForBlobCommit at cleared
  split at cleared
  · cases cleared
  · split at cleared
    · next row found =>
      obtain ⟨mem, id⟩ := lookup_eq_some found
      obtain ⟨tomb, lease⟩ := condemned row mem id
      split_ifs at cleared with doomed
      cases expiry : row.claimExpiresAt with
      | none => simp [JournalRow.doomed, tomb, expiry] at doomed
      | some expires =>
        simp only [JournalRow.doomed, tomb, expiry, all_some, Bool.true_and,
          decide_eq_true_eq, not_lt] at doomed
        have := orderly row mem id tomb expires expiry doomed
        have := lease expires expiry
        omega
    · split_ifs at cleared with live
      exact live

theorem intact_apply {stamp : ℕ} (h : Intact st key stamp) (kept : w ≠ .deleteObject key) :
    Intact (w.apply st) key stamp := by
  cases w with
  | putObject =>
    refine ⟨h.1, ?_⟩
    simp only [Effect.apply]
    split_ifs
    · rfl
    · exact h.2
  | deleteObject k =>
    have other : key ≠ k := fun same => kept (by rw [same])
    exact ⟨h.1.trans (if_neg other).symm, (if_neg other).trans h.2⟩
  | _ => exact h

theorem kept_apply (kept : Kept st)
    (commits : ∀ r key id stamp, w = .commitBlob r key id stamp →
      (st.blobs.any fun b => b.storageKey = key && b.repositoryId = r) = false →
      Intact st key stamp)
    (deletes : ∀ key, w = .deleteObject key → isReferenced st key = false) : Kept (w.apply st) := by
  cases w with
  | deleteObject =>
    intro b mem
    refine intact_apply (kept b mem) fun same => ?_
    cases same
    have := any_eq_false.1 (deletes _ rfl) b mem
    simp at this
  | commitBlob r key id stamp =>
    intro b mem
    refine intact_apply ?_ (fun same => by cases same)
    simp only [Effect.apply, Store.commitBlob] at mem
    split_ifs at mem with present
    · exact kept b mem
    · rcases mem_cons.1 mem with rfl | old
      · exact commits r key id stamp rfl (eq_false_iff.2 present)
      · exact kept b old
  | deleteRepository => exact fun b mem => kept b (mem_of_mem_filter mem)
  | _ => exact fun b mem => intact_apply (kept b mem) (fun same => by cases same)

/-! ### Runs -/

variable (w : World Store Request Lock) (e : ℕ × Action)

structure Protected : Prop where
  known : service.Holds WellFormed Drawn w
  sweeps : service.Holds (fun _ => True) SweepOpen w
  pushes : Pairs Condemns w

theorem deletes_in_force {v e} (prompt : Prompt v e)
    (coded : code v.store (v.pool.proc e.1) e.2 = some o) (effect : o.effect = .deleteObject key) :
    ∃ c expires, v.pool.proc e.1 = .tombstoned c expires ∧ c.key = key ∧ v.store.now < expires := by
  have warranted := (code_sound coded).warranted
  rw [effect] at warranted
  obtain ⟨c, expires, phase, same⟩ := warranted
  rw [phase] at coded
  refine ⟨c, expires, phase, same, ?_⟩
  rcases tombstoned_deletes coded effect with action | ⟨_, action⟩ <;>
    simpa only [Prompt, action, phase] using prompt

theorem kept_own : service.Own (fun w e => Protected w ∧ Careful w e) Kept PushOpen := by
  intro v e o holds ⟨protect, prompt, orderly⟩ coded
  have sound := code_sound coded
  constructor
  · refine kept_apply holds.store (fun r key id stamp effect missing => ?_) fun key effect => ?_
    · have warranted := sound.warranted
      rw [effect] at warranted
      obtain ⟨p, phase, rfl, rfl, rfl, cleared, alive⟩ := warranted
      have mine := holds.procs e.1
      rw [phase] at mine coded
      simp only [Orderly, written_commits coded effect, phase] at orderly
      rcases mine with intact | condemned
      · exact intact
      · rw [condemned_commit condemned cleared alive orderly] at missing
        cases missing
    · obtain ⟨c, _, phase, rfl, live⟩ := deletes_in_force prompt coded effect
      have binding := protect.sweeps.procs e.1
      rw [phase] at binding
      exact (binding live).unreferenced
  · change PushOpen (o.effect.apply v.store) o.next
    cases next : o.next with
    | written p stamp =>
      rcases sound.written p stamp next with ⟨stays, _, effect⟩ | ⟨effect, rfl⟩
      · have mine := holds.procs e.1
        rw [← stays, next] at mine
        rcases mine with intact | condemned
        · exact .inl (intact_apply intact fun same => by cases effect.symm.trans same)
        · refine .inr (condemned_apply ((protect.known.procs e.1).push p ?_) condemned)
          rw [← stays, next]
          rfl
      · rw [effect]
        exact .inl ⟨rfl, if_pos rfl⟩
    | _ => trivial

theorem kept_others : service.Others (fun w e => Protected w ∧ Careful w e) Kept PushOpen := by
  intro v e o j holds ⟨protect, prompt, _⟩ coded other _
  have mine := holds.procs j
  change PushOpen (o.effect.apply v.store) (v.pool.proc j)
  cases phase : v.pool.proc j with
  | written p =>
    rw [phase] at mine
    have pushes : (v.pool.proc j).push = some p := by rw [phase]; rfl
    have journaled := (protect.known.procs j).push p pushes
    rcases mine with intact | condemned
    · by_cases effect : o.effect = .deleteObject p.key
      · obtain ⟨c, expires, sweep, same, live⟩ := deletes_in_force prompt coded effect
        have condemned := protect.pushes j e.1 other p c expires pushes sweep same.symm live
        exact .inr (condemned_apply journaled condemned)
      · exact .inl (intact_apply intact effect)
    · exact .inr (condemned_apply journaled condemned)
  | _ => trivial

/-- A quiescent start in which every committed blob has its object. -/
structure Initial : Prop where
  quiescent : Quiescent w
  kept : Kept w.store

/-- In every careful run, no committed blob loses the object its push wrote to a sweep. -/
theorem committed_blobs_kept {w} (h : Reach service.step Initial Careful w) : Kept w.store := by
  have quiet {v : World Store Request Lock} (h : Reach service.step Initial Careful v) :
      Reach service.step Quiescent Careful v :=
    h.mono (fun _ start => start.quiescent) fun _ _ careful => careful
  have holds := invariant kept_own kept_others (fun v start => ?_) (h.strengthen
    fun _ before => ⟨drawn (quiet before), sweepOpen (quiet before), condemns (quiet before)⟩)
  · exact holds.store
  · exact .of_idle start.quiescent.quiet rfl start.kept trivial

/-! ### A careful run -/

def unused : World Store Request Lock where
  store :=
    { journal := []
      blobs := []
      repositories := fun _ => true
      sessions := fun _ => false
      objects := fun _ => false
      deletes := fun _ => 0
      now := 0
      nextId := 0
      nextToken := 0 }
  pool := .idle .idle

theorem unused_initial : Initial unused :=
  ⟨⟨rfl, nodup_nil, nodup_nil, fun _ mem => absurd mem not_mem_nil⟩,
    fun _ mem => absurd mem not_mem_nil⟩

/-- The part of `Prompt` and `Orderly` that a run can check. -/
def carefulCheck : Bool :=
  match e.2, w.pool.proc e.1 with
  | .deleteObject, .tombstoned _ expires => w.store.now < expires
  | .deleteObjectFailed _, _ | .tombstone, _ | .deleteRepository _, _ => false
  | .commitBlob, .written p _ =>
    w.store.journal.all fun row => row.id ≠ p.journalId || row.pendingDeleteAt.isNone
  | _, _ => true

theorem careful_of_check (h : carefulCheck w e = true) : Careful w e := by
  constructor
  · unfold Prompt
    split <;> simp_all [carefulCheck]
  · unfold Orderly
    split
    · simp_all [carefulCheck]
    · next action phase =>
      simp only [carefulCheck, action, phase, List.all_eq_true, or_eq_true, decide_eq_true_eq] at h
      intro row mem id _
      rcases h row mem with other | _
      · exact absurd id other
      · simp_all
    · simp_all [carefulCheck]
    · trivial

/-- A push into repository 0 is abandoned and its row is claimed a day later. -/
def abandoned : List (ℕ × Action) :=
  [(0, .register 0 7 none), (0, .drop), (1, .tick 86400000001), (2, .claim .pending 0)]

theorem abandoned_tombstoned (w)
    (h : (run carefulCheck service.step unused abandoned).bind
      (fun w => service.step w (2, .tombstone)) = some w) :
    Reach service.step Initial Careful w := by
  obtain ⟨v, ran, taken⟩ := bind_eq_some_iff.1 h
  have reached := Reach.of_run careful_of_check (.start unused_initial) ran
  have harmless : Prompt v (2, .tombstone) := trivial
  refine .next reached ⟨harmless, ?_⟩ taken
  have listed : (run carefulCheck service.step unused abandoned).all
      (fun v => [0, 1, 2].all fun j => (v.pool.proc j).push.isNone) = true := by decide
  have none (j : ℕ) : (v.pool.proc j).push = none := by
    by_cases mem : j ∈ [0, 1, 2]
    · rw [ran, all_some, List.all_eq_true] at listed
      exact isNone_iff_eq_none.1 (listed j mem)
    · rw [proc_of_run ran (by simpa [abandoned] using mem)]
      rfl
  unfold Orderly
  split
  · intro j p pushes
    rw [none j] at pushes
    cases pushes
  all_goals trivial

/-- A sweep deletes an abandoned object, and a later push of the key keeps its own. -/
theorem committed_blobs_kept_after_sweep :
    ∃ w, Reach service.step Initial Careful w ∧
      w.store.deletes 7 = 1 ∧ (∃ b ∈ w.store.blobs, b.storageKey = 7) ∧ Kept w.store := by
  obtain ⟨w, reach, deleted, kept⟩ : ∃ w, Reach service.step Initial Careful w ∧
      w.store.deletes 7 = 1 ∧ ∃ b ∈ w.store.blobs, b.storageKey = 7 :=
    Reach.exists_of_run careful_of_check _
      [(2, .deleteObject), (2, .reap), (3, .register 1 7 none), (3, .putObject), (3, .commitBlob)] _
      abandoned_tombstoned (by decide)
  exact ⟨w, reach, deleted, kept, committed_blobs_kept reach⟩

/-! ### A lost blob -/

def promptCheck : Bool :=
  match e.2, w.pool.proc e.1 with
  | .deleteObject, .tombstoned _ expires => w.store.now < expires
  | .deleteObjectFailed _, .tombstoned _ expires => w.store.now < expires
  | _, _ => true

theorem prompt_of_check (h : promptCheck w e = true) : Prompt w e := by
  unfold Prompt
  split <;> simp_all [promptCheck]

/-- A push into repository 1 registers over the lapsed tombstone of a crashed sweep; the sweep of
repository 0's row deletes its object, and it commits. -/
theorem leftover_tombstone_loses_blob :
    ∃ w b, Reach service.step Initial Prompt w ∧
      b ∈ w.store.blobs ∧ b.stamp < w.store.deletes b.storageKey ∧
        w.store.objects b.storageKey = false := by
  obtain ⟨w, reach, b, mem, lost, gone⟩ :=
    Reach.exists_of_start service.step _ prompt_of_check _ unused_initial
      [(0, .register 1 7 none), (0, .drop), (1, .register 0 7 none), (1, .drop),
        (2, .tick 86400000001), (3, .claim .pending 0), (3, .tombstone), (3, .drop),
        (2, .tick 900000000), (4, .register 1 7 none), (4, .putObject), (5, .claim .pending 1),
        (5, .tombstone), (5, .deleteObject), (5, .reap), (4, .commitBlob)]
      (fun w => ∃ b ∈ w.store.blobs, b.stamp < w.store.deletes b.storageKey ∧
        w.store.objects b.storageKey = false) (by decide)
  exact ⟨w, b, reach, mem, lost, gone⟩

end ArtifactKeeper.Journal
