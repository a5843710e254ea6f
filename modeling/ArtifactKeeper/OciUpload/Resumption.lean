import ArtifactKeeper.OciUpload.Content

/-!
# Open sessions can be resumed

The parts of a session are all stored unless a cancellation has claimed it (`Stored`), and only a
cancellation that owns its session deletes what a part row names (`Safe`).  An open session is then
resumable, in runs that keep three things apart (`orderly`).
-/

namespace ArtifactKeeper.OciUpload

open StepSystem List Bool Reach Request

variable {sha256 : Bytes → Sha256Digest} {st : Store} {q : Request} {a : Action} {o : Statement}
  {w : Effect}

def Session.isCancelled (s : Session) : Bool := s.stateToken.any Lease.isCancel

open Session (append isCancelled committedPart)

/-- The steps that keep cancellation, completion and recovery apart. -/
def orderly (w : World Store Request Lock) (e : ℕ × Action) : Bool :=
  match e.2, w.pool.proc e.1 with
  | .claimCompletion session _, _ =>
    (w.store.sessions session).all fun s => !s.isClaimable w.store.now || !s.isCancelled
  | .deleteSessionFailed landed, .cancelling _ _ _ => landed
  | .recover, .recovering snap key _ =>
    (w.store.sessions snap.session).all fun s =>
      s.state = .open || s.parts.all (·.storageKey ≠ key)
  | _, _ => true

def Orderly (w : World Store Request Lock) (e : ℕ × Action) : Prop := orderly w e = true

def PartsStored (st : Store) (s : Session) : Prop :=
  ∀ p ∈ s.parts, st.objects p.storageKey = some p.body

/-- Only a cancellation may have deleted parts. -/
def Stored (st : Store) : Prop :=
  ∀ id s, st.sessions id = some s → s.isCancelled = false → PartsStored st s

/-- No part row names the key. -/
def Loose (st : Store) (k : Key) : Prop :=
  ∀ id s, st.sessions id = some s → ∀ p ∈ s.parts, p.storageKey ≠ k

/-- What a request knows of the objects it may delete and of the session it may reset. -/
structure Safe (st : Store) (q : Request) : Prop where
  pending : ∀ u, q.pending = some u → st.objects u.key = some u.body
  scratch : ∀ k ∈ q.scratch, Loose st k
  sources : ∀ k ∈ q.sources, Loose st k ∨ ∃ t index, q.target = some t ∧ k.place = some (t.1, index)
  cancels : ∀ t, q.cancels = some t → ∀ s, st.sessions t.1 = some s →
    s.stateToken = some (.cancel t.2)
  restores : ∀ t, q.restores = some t → ∀ s, st.sessions t.1 = some s → s.stateToken = some t.2 →
    PartsStored st s

/-! ### Keys that no part row names -/

theorem loose_of_unrecorded (ledger : Ledger st) {k : Key} (h : k ∉ st.recorded) : Loose st k :=
  fun id s found p mem same => h (same ▸ ledger.parts id s found p mem)

theorem loose_fresh (ledger : Ledger st) {k : Key} (h : Fresh st w k) : Loose (w.apply st) k := by
  obtain ⟨unique, _, rfl⟩ := h
  exact loose_of_unrecorded ledger fun mem => (ledger.drawn k mem).ne_fresh unique

theorem loose_apply (faithful : Faithful st q) (warranted : Warranted sha256 st q a w) {k : Key}
    (h : Loose st k) (other : w.records ≠ some k) : Loose (w.apply st) k := by
  intro id _ found p mem same
  rcases apply_session found with ⟨s, old, kept | appended⟩ | created
  · rw [kept.parts] at mem
    exact h id s old p mem same
  · obtain ⟨snap, _, _, _, _, rfl, rfl, rfl⟩ := appended
    obtain ⟨rfl, _⟩ := warranted
    simp only [append, legacyPart_eq_nil (faithful.snapshot snap rfl), append_nil,
      mem_append, mem_singleton] at mem
    rcases mem with mem | rfl
    · exact h _ s old p mem same
    · exact other (congrArg some same)
  · obtain ⟨_, _, _, rfl, rfl⟩ := created
    simp only [newSession] at mem
    split_ifs at mem
    · cases mem_singleton.1 mem
      exact other (congrArg some same)
    · cases mem

theorem scratch_of_pending {u : Upload} (h : q.pending = some u) :
    q.scratch = [] ∧ q.sources = [] := by
  cases q <;> cases h <;> exact ⟨rfl, rfl⟩

variable {id : ℕ} {v : World Store Request Lock} {e : ℕ × Action} {s : Session}

theorem loose_of_gone (tables : Tables sha256 st) {k : Key} {index : ℕ}
    (place : k.place = some (id, index)) (gone : st.sessions id = none) : Loose st k := by
  rintro id' s found p mem rfl
  cases ((tables id' s found).keys p mem).symm.trans place
  cases gone.symm.trans found

/-! ### Stored parts stay stored -/

theorem put_ne (warranted : Warranted sha256 st q a w) {k : Key}
    (drawn : Drawn st k) (body : Bytes) : w ≠ .put k body := by
  rintro rfl
  exact drawn.ne_fresh warranted

theorem partsStored_apply (ledger : Ledger st) (tables : Tables sha256 st) (safe : Safe st q)
    (warranted : Warranted sha256 st q a w) (found : st.sessions id = some s)
    (stored : PartsStored st s)
    (spared : ∀ token keys, q = .cancelling id token keys → s.stateToken ≠ some (.cancel token)) :
    PartsStored (w.apply st) s := by
  intro p mem
  have drawn := ledger.drawn _ (ledger.parts id s found p mem)
  refine object_stays (stored p mem) drawn.isSome ?_ (put_ne warranted drawn)
  rintro rfl
  rcases warranted with scratch | ⟨session, token, keys, rfl, listed⟩
  · exact safe.scratch _ scratch id s found p mem rfl
  · rcases safe.sources _ listed with loose | ⟨t, _, target, place⟩
    · exact loose id s found p mem rfl
    · cases target
      cases ((tables id s found).keys p mem).symm.trans place
      exact spared token keys rfl (safe.cancels (session, token) rfl s found)

theorem isCancelled_of_open (wf : WellFormed sha256 st id s) (isOpen : s.state = .open) :
    s.isCancelled = false := by
  rw [isCancelled, wf.lease isOpen]
  rfl

theorem isCancelled_of_claim (tables : Tables sha256 v.store) (orderly : Orderly v e)
    {lease : Lease} (warranted : Warranted sha256 v.store (v.pool.proc e.1) e.2 (.claim id lease))
    (found : v.store.sessions id = some s) : s.isCancelled = false := by
  obtain ⟨_, _, _, same, how⟩ := warranted
  cases found.symm.trans same
  rcases how with ⟨isOpen, _⟩ | ⟨_, claimable, _, action⟩
  · exact isCancelled_of_open (tables id s found) isOpen
  · simpa [Orderly, OciUpload.orderly, action, found, claimable] using orderly

section

variable (warranted : Warranted sha256 v.store (v.pool.proc e.1) e.2 w) (known : Known sha256 v)
include warranted known

theorem stored_apply (orderly : Orderly v e) (stored : Stored v.store)
    (safe : Safe v.store (v.pool.proc e.1)) :
    Stored (w.apply v.store) := by
  intro id _ found live
  have ledger := known.keys.store
  have tables := known.parts.store
  have faithful := known.parts.procs e.1
  rcases apply_session found with ⟨s, old, kept | appended⟩ | created
  · have spared (token : ℕ) (keys : List Key) (cancels : v.pool.proc e.1 = .cancelling id token keys) :
        s.stateToken ≠ some (.cancel token) := by
      intro mine
      rcases kept.lease with ⟨_, same⟩ | ⟨rfl, _⟩ | ⟨_, rfl, _⟩
      · rw [isCancelled, same, mine] at live
        cases live
      · obtain ⟨_, _, phase, _⟩ := warranted
        cases cancels.symm.trans phase
      · obtain ⟨_, phase, _⟩ := warranted
        cases cancels.symm.trans phase
    have before : PartsStored v.store s := by
      rcases kept.lease with ⟨_, same⟩ | ⟨rfl, _⟩ | ⟨lease, rfl, _⟩
      · exact stored id s old (by rw [← live, isCancelled, isCancelled, same])
      · obtain ⟨lease, _, phase, same, token⟩ := warranted
        cases old.symm.trans same
        exact safe.restores (id, lease) (by rw [phase]; rfl) s old token
      · exact stored id s old (isCancelled_of_claim tables orderly warranted old)
    have after := partsStored_apply ledger tables safe warranted old before spared
    rw [PartsStored, kept.parts]
    exact after
  · obtain ⟨snap, _, _, _, _, rfl, rfl, rfl⟩ := appended
    obtain ⟨phase, _, _, _, same, appendable⟩ := warranted
    cases old.symm.trans same
    rw [phase] at safe faithful
    simp only [Session.isAppendable, and_eq_true, decide_eq_true_eq] at appendable
    have before := stored _ s old (isCancelled_of_open (tables _ s old) appendable.1.1)
    intro p mem
    simp only [append, legacyPart_eq_nil (faithful.snapshot snap rfl), append_nil,
      mem_append, mem_singleton] at mem
    rcases mem with mem | rfl
    · exact before p mem
    · exact safe.pending _ rfl
  · obtain ⟨_, _, _, rfl, rfl⟩ := created
    obtain ⟨phase, _⟩ := warranted
    rw [phase] at safe
    intro p mem
    simp only [newSession] at mem
    split_ifs at mem
    · cases mem_singleton.1 mem
      exact safe.pending _ rfl
    · cases mem

/-! ### Leases -/

theorem cancels_apply (orderly : Orderly v e) {token : ℕ} (recorded : .temp id ∈ v.store.recorded)
    (kept : w ≠ .reset id)
    (h : ∀ s, v.store.sessions id = some s → s.stateToken = some (.cancel token)) (s' : Session)
    (found : (w.apply v.store).sessions id = some s') : s'.stateToken = some (.cancel token) := by
  have tables := known.parts.store
  rcases apply_session found with ⟨s, old, keeps | appended⟩ | created
  · rcases keeps.lease with ⟨_, same⟩ | ⟨reset, _⟩ | ⟨_, rfl, _⟩
    · exact same.trans (h s old)
    · exact absurd reset kept
    · have live := isCancelled_of_claim tables orderly warranted old
      rw [isCancelled, h s old] at live
      cases live
  · obtain ⟨_, _, _, _, _, rfl, rfl, rfl⟩ := appended
    exact h s old
  · exact absurd recorded (created_unrecorded (known.keys.procs e.1) warranted created)

theorem restores_apply (safe : Safe v.store (v.pool.proc e.1)) {t : ℕ × Lease}
    (drawn : t.2.token < v.store.next)
    (spared : ∀ token keys, v.pool.proc e.1 = .cancelling t.1 token keys → t.2 ≠ .cancel token)
    (h : ∀ s, v.store.sessions t.1 = some s → s.stateToken = some t.2 → PartsStored v.store s)
    (s' : Session) (found : (w.apply v.store).sessions t.1 = some s')
    (leased : s'.stateToken = some t.2) : PartsStored (w.apply v.store) s' := by
  obtain ⟨s, old, token, kept⟩ := leased_of_apply known.parts.store warranted drawn found leased
  rw [PartsStored, kept.parts]
  refine partsStored_apply known.keys.store known.parts.store safe warranted old (h s old token) ?_
  intro token' keys phase same
  exact spared token' keys phase (Option.some.inj (token.symm.trans same))

end

theorem target_of_restores {t : ℕ × Lease} (h : q.restores = some t) : q.target = some t := by
  cases q <;> first | exact h | cases h

theorem target_of_cancels {t : ℕ × ℕ} (h : q.cancels = some t) :
    q.target = some (t.1, .cancel t.2) := by
  cases q <;> cases h <;> rfl

theorem gone_of_not_owned {token : ℕ} {keys : List Key} (tables : Tables sha256 st)
    (safe : Safe st (.cancelling id token keys))
    (lost : st.owns (some (id, .cancel token)) = false) : st.sessions id = none := by
  cases found : st.sessions id with
  | none => rfl
  | some s =>
    have mine := safe.cancels (id, token) rfl s found
    have claimed : s.state = .committing := by
      cases state : s.state with
      | «open» => cases ((tables id s found).lease state).symm.trans mine
      | committing => rfl
    simp [Store.owns, found, Session.isOwned, claimed, mine] at lost

/-! ### Every orderly run -/

theorem loose_of_recover (known : Known sha256 v)
    (orderly : Orderly v e) {snap : Snapshot} {key : Key} {body : Bytes} (action : e.2 = .recover)
    (phase : v.pool.proc e.1 = .recovering snap key body)
    (missing : ∀ s, v.store.sessions snap.session = some s → s.committedPart snap key = none) :
    Loose v.store key := by
  rintro id s found p mem rfl
  have place := (known.keys.procs e.1).upload ⟨snap.session, snap.partIndex, p.storageKey, body⟩
    (by rw [phase]; rfl)
  obtain ⟨rfl, index⟩ := Prod.mk.inj
    (Option.some.inj (((known.parts.store id s found).keys p mem).symm.trans place))
  have absent := missing s found
  simp only [Orderly, OciUpload.orderly, action, phase, found, Option.all_some, or_eq_true,
    decide_eq_true_eq, all_eq_true] at orderly
  rcases orderly with isOpen | unlisted
  · rw [committedPart, if_pos isOpen, find?_eq_none] at absent
    exact absent p mem (by simp [index])
  · exact unlisted p mem rfl

theorem safe_own : (service sha256).Own (fun w e => Known sha256 w ∧ Orderly w e) Stored Safe := by
  intro v e o holds ⟨known, orderly⟩ coded
  have sound := code_sound coded
  have warranted := sound.warranted
  have ledger := known.keys.store
  have traced := known.keys.procs e.1
  have tables := known.parts.store
  have faithful := known.parts.procs e.1
  have safe := holds.procs e.1
  have after := stored_apply warranted known orderly holds.store safe
  have tables' := tables_apply ledger traced tables faithful warranted
  have keeps {k : Key} (held : k ∈ (v.pool.proc e.1).scratch ∨ k ∈ (v.pool.proc e.1).sources) :
      o.effect.records ≠ some k := by
    intro records
    obtain ⟨u, pending, _⟩ := records_pending warranted records
    rw [(scratch_of_pending pending).1, (scratch_of_pending pending).2] at held
    rcases held with mem | mem <;> cases mem
  refine ⟨after, fun u pending => ?_, fun k mem => ?_, fun k mem => ?_, fun t cancels => ?_,
    fun t restores => ?_⟩
  · rcases sound.pending u pending with ⟨old, _⟩ | fresh
    · have drawn := traced.held _ (held_of_upload (upload_of_pending old))
      refine object_stays (safe.pending u old) drawn.isSome ?_ (put_ne warranted drawn)
      intro effect
      rw [effect] at warranted
      rcases warranted with scratch | ⟨_, _, _, phase, _⟩
      · rw [(scratch_of_pending old).1] at scratch
        cases scratch
      · rw [phase] at old
        cases old
    · rcases sound.upload u (upload_of_pending pending) with old | ⟨_, effect, _⟩
      · exact absurd fresh.1 (traced.held _ (held_of_upload old)).ne_fresh
      · rw [effect]
        simp [service, Effect.apply, Store.setObject]
  · rcases sound.scratch k mem with old | fresh | ⟨effect, u, pending, rfl⟩ | ⟨old, released⟩ |
      ⟨action, effect, _, _, phase, missing⟩
    · exact loose_apply faithful warranted (safe.scratch k old) (keeps (.inl old))
    · exact loose_fresh ledger fresh
    · rw [effect]
      exact loose_of_unrecorded ledger (traced.pending u pending)
    · rcases safe.sources k old with loose | ⟨t, _, target, place⟩
      · exact loose_apply faithful warranted loose (keeps (.inr old))
      · refine loose_of_gone tables' place ?_
        rcases released with ⟨_, effect, session⟩ | ⟨_, _, target', gone⟩
        · rw [effect]
          simp [Effect.apply, Store.commitBlob, session, target]
        · cases target.symm.trans target'
          exact gone_apply traced warranted (traced.target t target) gone
    · rw [effect]
      exact loose_of_recover known orderly action phase missing
  · rcases sound.sources k mem with fresh | ⟨target, old | ⟨effect, lists | old⟩⟩
    · exact .inl (loose_fresh ledger fresh)
    · rcases safe.sources k old with loose | ⟨t, index, same, place⟩
      · exact .inl (loose_apply faithful warranted loose (keeps (.inr old)))
      · exact .inr ⟨t, index, target.trans same, place⟩
    · obtain ⟨t, same, rfl | ⟨s, p, found, part, rfl⟩⟩ := lists
      · exact .inr ⟨t, 0, target.trans same, rfl⟩
      · exact .inr ⟨t, p.partIndex, target.trans same, (tables _ s found).keys p part⟩
    · rw [effect]
      exact .inl (safe.scratch k old)
  · rcases sound.cancels t cancels with old | effect
    · refine cancels_apply warranted known orderly (traced.target _ (target_of_cancels old)) ?_
        (safe.cancels t old)
      intro reset
      rw [reset] at warranted
      obtain ⟨_, _, phase, _⟩ := warranted
      rw [phase] at old
      cases old
    · intro _ found
      rw [effect] at found
      rcases updateSession_sessions found with ⟨other, _⟩ | ⟨s, _, _, rfl⟩
      · exact absurd rfl other
      · rfl
  · rcases sound.restores t restores with old | kind | effect | ⟨token, phase, lease, lost⟩
    · refine restores_apply warranted known safe ?_ ?_ (safe.restores t old)
      · exact known.below e.1 _ (ticket_of_target (target_of_restores old))
      · intro _ _ phase
        rw [phase] at old
        cases old
    · intro s' found leased
      exact after t.1 s' found (by rw [isCancelled, leased]; exact kind)
    · intro _ found _
      rw [effect] at found warranted ⊢
      rcases updateSession_sessions found with ⟨other, _⟩ | ⟨s, _, old, rfl⟩
      · exact absurd rfl other
      · exact holds.store t.1 s old (isCancelled_of_claim tables orderly warranted old)
    · intro _ found
      rw [phase] at safe
      rcases lost with lost | effect | action
      · have recorded := traced.target (t.1, .cancel token) (by rw [phase]; rfl)
        have gone := gone_of_not_owned tables safe (by rw [← lease]; exact lost)
        cases (gone_apply traced warranted recorded gone).symm.trans found
      · rw [effect] at found
        simp [service, Effect.apply, Store.setSession] at found
      · simp [Orderly, OciUpload.orderly, action, phase] at orderly

theorem safe_others :
    (service sha256).Others (fun w e => Known sha256 w ∧ Orderly w e) Stored Safe := by
  intro v e o j holds ⟨known, orderly⟩ coded other _
  have sound := code_sound coded
  have warranted := sound.warranted
  have traced := known.keys.procs j
  have faithful := known.parts.procs e.1
  have safe := holds.procs j
  have keeps {k : Key} (held : k ∈ (v.pool.proc j).held) : o.effect.records ≠ some k := by
    intro records
    obtain ⟨u, pending, rfl⟩ := records_pending warranted records
    exact known.clear e.1 j (Ne.symm other) u pending held
  refine ⟨fun u pending => ?_, fun k mem => ?_, fun k mem => ?_, fun t cancels => ?_,
    fun t restores => ?_⟩
  · have drawn := traced.held _ (held_of_upload (upload_of_pending pending))
    refine object_stays (safe.pending u pending) drawn.isSome ?_ (put_ne warranted drawn)
    intro effect
    rw [effect] at warranted
    refine known.clear j e.1 other u pending ?_
    rcases warranted with scratch | ⟨_, _, _, phase, listed⟩
    · exact held_of_scratch scratch
    · rw [phase]
      exact held_of_sources listed
  · exact loose_apply faithful warranted (safe.scratch k mem) (keeps (held_of_scratch mem))
  · rcases safe.sources k mem with loose | place
    · exact .inl (loose_apply faithful warranted loose (keeps (held_of_sources mem)))
    · exact .inr place
  · have target := target_of_cancels cancels
    refine cancels_apply warranted known orderly (traced.target _ target) ?_ (safe.cancels t cancels)
    intro reset
    rw [reset] at warranted
    obtain ⟨_, s, phase, found, token⟩ := warranted
    cases (safe.cancels t cancels s found).symm.trans token
    refine known.apart j e.1 other t.2 (ticket_of_target target) ?_
    rw [phase]
    exact mem_singleton_self _
  · have target := target_of_restores restores
    refine restores_apply warranted known (holds.procs e.1) (known.below j _ (ticket_of_target target))
      ?_ (safe.restores t restores)
    intro token _ phase same
    refine known.apart j e.1 other t.2.token (ticket_of_target target) ?_
    rw [same, phase]
    exact mem_singleton_self _

theorem safe {w} (h : Reach (service sha256).step Quiescent Orderly w) :
    (service sha256).Holds Stored Safe w := by
  refine Protocol.invariant safe_own safe_others (fun w start => ?_) (h.strengthen fun _ => known)
  refine .of_idle start.quiet rfl (fun id s found => ?_) ⟨nofun, nofun, nofun, nofun, nofun⟩
  rw [start.sessions] at found
  cases found

/-- In an orderly run every part of an open session has an object of the recorded length. -/
theorem open_sessions_resumable {w}
    (h : Reach (service sha256).step Quiescent Orderly w) {id : ℕ} {s : Session}
    (found : w.store.sessions id = some s) (isOpen : s.state = .open) :
    ∀ p ∈ s.parts, ∃ object, w.store.objects p.storageKey = some object ∧
      object.length = p.sizeBytes := by
  intro p mem
  have wf := (faithful h).store id s found
  exact ⟨p.body, (safe h).store id s found (isCancelled_of_open wf isOpen) p mem,
    (wf.sizes p mem).symm⟩

/-! ### Runs -/

def otherParam : Text := Sha256Digest.algorithm ++ List.replicate 64 'b'

/-- A completion of two parts with the wrong digest resets its session. -/
theorem open_sessions_resumable_after_mismatch :
    ∃ w s, Reach (service sampleDigest).step Quiescent Orderly w ∧ w.store.sessions 0 = some s ∧
      s.state = .open ∧ s.parts.length = 2 ∧
      ∀ p ∈ s.parts, ∃ object, w.store.objects p.storageKey = some object ∧
        object.length = p.sizeBytes := by
  obtain ⟨w, reached, ends⟩ :=
    exists_of_start (service sampleDigest).step _ (fun w e => @id (Orderly w e)) _ quiescent_empty
      [(0, .postUpload [1, 2]), (0, .insertSession), (1, .fetchSession 0), (1, .putPart [3]),
        (1, .commitPatch), (2, .claimCompletion 0 otherParam), (2, .noFinal), (2, .fetchParts),
        (2, .readPart), (2, .readPart), (2, .putCompletion), (2, .deleteKey (.complete 0 3) true),
        (2, .reset)]
      (fun w => (w.store.sessions 0).any fun s => s.state = .open ∧ s.parts.length = 2) (by decide)
  obtain ⟨s, found, state⟩ := (Option.any_eq_true _ _).1 ends
  obtain ⟨isOpen, parts⟩ := of_decide_eq_true state
  exact ⟨w, s, reached, found, isOpen, parts, open_sessions_resumable reached found isOpen⟩

/-- The session is open and one of its parts is gone. -/
def holed (w : World Store Request Lock) (id : ℕ) : Bool :=
  (w.store.sessions id).any fun s =>
    s.state = .open && s.parts.any fun p => w.store.objects p.storageKey = none

theorem exists_of_holed {w} (h : holed w id) :
    ∃ s p, w.store.sessions id = some s ∧ s.state = .open ∧ p ∈ s.parts ∧
      w.store.objects p.storageKey = none := by
  obtain ⟨s, found, state⟩ := (Option.any_eq_true _ _).1 h
  simp only [and_eq_true, decide_eq_true_eq, any_eq_true] at state
  obtain ⟨isOpen, p, mem, gone⟩ := state
  exact ⟨s, p, found, isOpen, mem, gone⟩

/-- A cancellation deletes the objects, fails to delete the session and resets it. -/
theorem cancelled_session_reopened :
    ∃ w s p, Reach (service sampleDigest).step Quiescent Any w ∧ w.store.sessions 0 = some s ∧
      s.state = .open ∧ p ∈ s.parts ∧ w.store.objects p.storageKey = none := by
  obtain ⟨w, reached, ends⟩ := exists_of_free (service sampleDigest).step _ _ quiescent_empty
      [(0, .postUpload [1, 2]), (0, .insertSession), (1, .claimCancel 0), (1, .listParts),
        (1, .cancelDelete (.temp 0)), (1, .deleteSessionFailed false), (1, .reset)]
      (fun w => holed w 0 = true) (by decide)
  obtain ⟨s, p, hole⟩ := exists_of_holed ends
  exact ⟨w, s, p, reached, hole⟩

/-- A completion claims the session of a cancellation that stopped six hours ago and resets it. -/
theorem stale_cancellation_reopened :
    ∃ w, Reach (service sampleDigest).step Quiescent Any w ∧ holed w 0 = true :=
  exists_of_free _ _ _ quiescent_empty
    [(0, .postUpload [1, 2]), (0, .insertSession), (1, .claimCancel 0), (1, .listParts),
      (1, .cancelDelete (.temp 0)), (1, .drop), (2, .tick 21600000001),
      (2, .claimCompletion 0 sampleParam), (2, .fail), (2, .reset)] _ (by decide)

/-- A PATCH whose COMMIT was not acknowledged deletes its part while a completion holds the session,
and the completion resets it. -/
theorem unacknowledged_part_deleted :
    ∃ w, Reach (service sampleDigest).step Quiescent Any w ∧ holed w 0 = true :=
  exists_of_free _ _ _ quiescent_empty
    [(0, .postUpload [1, 2]), (0, .insertSession), (1, .fetchSession 0), (1, .putPart [3]),
      (1, .commitPatchUnacknowledged true), (2, .claimCompletion 0 sampleParam), (1, .recover),
      (1, .deleteKey (.part 0 1 1) true), (2, .fail), (2, .reset)] _ (by decide)

/-! ### Integrity of chunked uploads -/

/-- Steps other than a cancellation and a COMMIT whose success the request does not learn. -/
def acknowledging (_ : World Store Request Lock) (e : ℕ × Action) : Bool :=
  match e.2 with
  | .claimCancel _ => false
  | .insertSessionUnacknowledged landed | .commitPatchUnacknowledged landed => !landed
  | _ => true

def Acknowledging (w : World Store Request Lock) (e : ℕ × Action) : Prop :=
  acknowledging w e = true

/-- The parts of the session are the acknowledged bodies, and no cancellation has claimed it. -/
structure Attested (s : Session) : Prop where
  live : s.isCancelled = false
  bodies : s.acked.flatten = (s.parts.map PartRow.body).flatten

def AllAttested (st : Store) : Prop := ∀ id s, st.sessions id = some s → Attested s

/-- No request cancels, and no stored body in flight is recorded. -/
structure Plain (st : Store) (q : Request) : Prop where
  cancels : q.cancels = none
  upload : ∀ u, q.upload = some u → u.key ∉ st.recorded

theorem mem_of_committedPart {snap : Snapshot} {key : Key} {p : PartRow}
    (h : s.committedPart snap key = some p) : p ∈ s.parts ∧ p.storageKey = key := by
  unfold committedPart at h
  split_ifs at h
  have matched := find?_some h
  simp only [Bool.and_eq_true, decide_eq_true_eq] at matched
  exact ⟨mem_of_find?_eq_some h, matched.2⟩

theorem attested_apply {e} (known : Known sha256 v)
    (acknowledging : Acknowledging v e) (attested : AllAttested v.store)
    (plain : Plain v.store (v.pool.proc e.1))
    (warranted : Warranted sha256 v.store (v.pool.proc e.1) e.2 w) :
    AllAttested (w.apply v.store) := by
  intro id _ found
  rcases apply_session found with ⟨s, old, kept | appended⟩ | created
  · refine ⟨?_, ?_⟩
    · rw [isCancelled]
      rcases kept.lease with ⟨_, same⟩ | ⟨_, _, none⟩ | ⟨_, rfl, _, same⟩
      · rw [same]
        exact (attested id s old).live
      · rw [none]
        rfl
      · rw [same]
        obtain ⟨_, _, _, _, ⟨_, action⟩ | ⟨kind, _⟩⟩ := warranted
        · simp [Acknowledging, OciUpload.acknowledging, action] at acknowledging
        · exact kind
    · rcases kept.acked with same | ⟨body, rfl⟩
      · rw [same, kept.parts]
        exact (attested id s old).bodies
      · obtain ⟨_, _, s₀, p, phase, _, same, committed⟩ := warranted
        obtain ⟨mem, rfl⟩ := mem_of_committedPart committed
        have recorded := known.keys.store.parts id s₀ same p mem
        exact absurd recorded (plain.upload ⟨_, _, p.storageKey, body⟩ (by rw [phase]; rfl))
  · obtain ⟨snap, _, _, _, acknowledged, rfl, rfl, rfl⟩ := appended
    obtain ⟨phase, _, acked, _⟩ := warranted
    have current := (known.parts.procs e.1).snapshot snap (by rw [phase]; rfl)
    have told : acknowledged = true := by
      rcases acked with told | action
      · exact told
      · simp [Acknowledging, OciUpload.acknowledging, action] at acknowledging
    refine ⟨(attested _ s old).live, ?_⟩
    simp [append, legacyPart_eq_nil current, told, (attested _ s old).bodies]
  · obtain ⟨body, _, acknowledged, rfl, rfl⟩ := created
    obtain ⟨_, rfl, acked⟩ := warranted
    have told : acknowledged = true := by
      rcases acked with told | action
      · exact told
      · simp [Acknowledging, OciUpload.acknowledging, action] at acknowledging
    refine ⟨rfl, ?_⟩
    by_cases filled : 0 < body.length
    · simp [newSession, firstDigest, filled, told]
    · have empty : body = [] := length_eq_zero_iff.1 (by omega)
      simp [newSession, empty, told]

theorem plain_own : (service sha256).Own (fun w e => Known sha256 w ∧ Acknowledging w e) AllAttested
    Plain := by
  intro v e o holds ⟨known, acknowledging⟩ coded
  have sound := code_sound coded
  have plain := holds.procs e.1
  refine ⟨attested_apply known acknowledging holds.store plain sound.warranted, ?_,
    fun u upload mem => ?_⟩
  · cases next : o.next.cancels with
    | none => rfl
    | some t =>
      rcases sound.cancels t next with old | effect
      · rw [plain.cancels] at old
        cases old
      · have warranted := sound.warranted
        rw [effect] at warranted
        obtain ⟨_, _, _, _, ⟨_, action⟩ | ⟨kind, _⟩⟩ := warranted
        · simp [Acknowledging, OciUpload.acknowledging, action] at acknowledging
        · cases kind
  · rcases mem_recorded.1 mem with new | recorded
    · rcases sound.records _ new with finished | action
      · rw [finished] at upload
        cases upload
      · simp [Acknowledging, OciUpload.acknowledging, action] at acknowledging
    · rcases sound.upload u upload with old | ⟨fresh, _⟩
      · exact plain.upload u old recorded
      · exact (known.keys.store.drawn _ recorded).ne_fresh fresh.1

theorem plain_others : (service sha256).Others (fun w e => Known sha256 w ∧ Acknowledging w e)
    AllAttested Plain := by
  intro v e o j holds ⟨known, _⟩ coded other _
  have plain := holds.procs j
  refine ⟨plain.cancels, fun u upload mem => ?_⟩
  rcases mem_recorded.1 mem with new | recorded
  · obtain ⟨u', pending, same⟩ := records_pending (code_sound coded).warranted new
    refine known.clear e.1 j (Ne.symm other) u' pending ?_
    rw [same]
    exact held_of_upload upload
  · exact plain.upload u upload recorded

theorem plain {w} (h : Reach (service sha256).step Quiescent Acknowledging w) :
    (service sha256).Holds AllAttested Plain w := by
  refine Protocol.invariant plain_own plain_others (fun w start => ?_) (h.strengthen fun _ => known)
  refine .of_idle start.quiet rfl (fun id s found => ?_) ⟨rfl, nofun⟩
  rw [start.sessions] at found
  cases found

/-- Without a cancellation and without lost acknowledgements every step is orderly. -/
theorem orderly_of_plain (known : Known sha256 v)
    (holds : (service sha256).Holds AllAttested Plain v) (e) : Orderly v e := by
  unfold Orderly orderly
  split
  · next session _ _ =>
    cases found : v.store.sessions session with
    | none => rfl
    | some s => simp [(holds.store session s found).live]
  · next phase =>
    have none := (holds.procs e.1).cancels
    rw [phase] at none
    cases none
  · next snap key body _ phase =>
    cases found : v.store.sessions snap.session with
    | none => rfl
    | some s =>
      have unrecorded := (holds.procs e.1).upload ⟨_, _, key, body⟩ (by rw [phase]; rfl)
      simp only [Option.all_some, Bool.or_eq_true, all_eq_true, decide_eq_true_eq]
      refine .inr fun p mem same => unrecorded ?_
      rw [← same]
      exact known.keys.store.parts _ s found p mem
  · rfl

theorem orderly_of_acknowledging {w} (h : Reach (service sha256).step Quiescent Acknowledging w) :
    Reach (service sha256).step Quiescent Orderly w := by
  have facts := h.strengthen fun _ reached => And.intro (known reached) (plain reached)
  exact facts.mono (fun _ start => start) fun _ e ⟨⟨known, holds⟩, _⟩ => orderly_of_plain known holds e

/-- The parts of a session are numbered in order and their sizes add up to the bytes received.  What is
stored for them is the acknowledged bodies in order, if no step cancels or loses an acknowledgement. -/
theorem acknowledged_chunks_kept {w} (h : Reach (service sha256).step Quiescent Any w) {id : ℕ}
    {s : Session} (found : w.store.sessions id = some s) :
    s.parts.map PartRow.partIndex = List.range s.parts.length ∧
    (s.parts.map PartRow.sizeBytes).sum = s.bytesReceived ∧
    (Reach (service sha256).step Quiescent Acknowledging w →
      (∃ bodies : List Bytes, s.parts.map (fun p => w.store.objects p.storageKey) = bodies.map some ∧
        bodies.flatten = s.acked.flatten) ∧
      storageConcat w.store.objects s.partRecords = some s.acked.flatten) := by
  have wf := (faithful h).store id s found
  refine ⟨wf.indices, wf.total, fun h => ?_⟩
  have attested := (plain h).store id s found
  have stored := (safe (orderly_of_acknowledging h)).store id s found attested.live
  refine ⟨⟨s.parts.map PartRow.body, ?_, attested.bodies.symm⟩, ?_⟩
  · rw [map_map]
    exact map_congr_left stored
  · rw [partRecords_eq wf, storageConcat_of_stored wf.sizes stored, attested.bodies]

/-- Two PATCHes read the same session: one appends its body, the other is refused. -/
theorem acknowledged_chunks_kept_concurrent :
    ∃ w s,
      Reach (service sampleDigest).step Quiescent Acknowledging w ∧ w.store.sessions 0 = some s ∧
      s.acked = [[1, 2], [4]] ∧
      storageConcat w.store.objects s.partRecords = some s.acked.flatten := by
  obtain ⟨w, reached, ends⟩ :=
    exists_of_start (service sampleDigest).step _ (fun w e => @id (Acknowledging w e)) _
      quiescent_empty
      [(0, .postUpload [1, 2]), (0, .insertSession), (1, .fetchSession 0), (2, .fetchSession 0),
        (1, .putPart [3]), (2, .putPart [4]), (2, .commitPatch), (1, .commitPatch),
        (1, .deleteKey (.part 0 1 1) true)]
      (fun w => (w.store.sessions 0).any fun s => s.acked = [[1, 2], [4]]) (by decide)
  obtain ⟨s, found, acked⟩ := (Option.any_eq_true _ _).1 ends
  have kept := acknowledged_chunks_kept (reached.mono (fun _ start => start) fun _ _ _ => trivial) found
  exact ⟨w, s, reached, found, of_decide_eq_true acked, (kept.2.2 reached).2⟩

end ArtifactKeeper.OciUpload
