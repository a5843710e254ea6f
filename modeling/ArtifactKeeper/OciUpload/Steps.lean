import ArtifactKeeper.OciUpload.Requests
import Mathlib.Data.List.Dedup

/-!
# What a step of an upload request can do

`code_sound` inverts `code` once: the phase and the query behind every write (`Warranted`), and how
a request comes to have a stored body, a lease, a promotion or an object to delete.
-/

namespace ArtifactKeeper.OciUpload

open List Option

variable {sha256 : Bytes → Sha256Digest} {st : Store} {q : Request} {a : Action} {o : Statement}
  {w : Effect}

/-! ### What a request holds -/

structure Upload where
  session : ℕ
  index : ℕ
  key : Key
  body : Bytes

namespace Request

/-- The body a POST or a PATCH has stored. -/
def upload : Request → Option Upload
  | .posted session body => some ⟨session, 0, .temp session, body⟩
  | .patched snap key body | .recovering snap key body =>
    some ⟨snap.session, snap.partIndex, key, body⟩
  | _ => none

/-- The stored body that no transaction has recorded yet. -/
def pending : Request → Option Upload
  | .posted session body => some ⟨session, 0, .temp session, body⟩
  | .patched snap key body => some ⟨snap.session, snap.partIndex, key, body⟩
  | _ => none

def snapshot : Request → Option Snapshot
  | .streaming snap | .patched snap _ _ | .recovering snap _ _ => some snap
  | _ => none

def completion : Request → Option Completion
  | .completing c | .skipping c _ | .received c _ | .assembling c _ _ _ _ => some c
  | _ => none

/-- The session and token of a cancellation. -/
def cancels : Request → Option (ℕ × ℕ)
  | .leased session token | .cancelling session token _ => some (session, token)
  | _ => none

/-- The session a request may reset. -/
def restores : Request → Option (ℕ × Lease)
  | .leased session token => some (session, .cancel token)
  | .discarding target _ => target
  | _ => none

/-- The objects a request deletes or may delete while its session exists. -/
def scratch : Request → List Key
  | .skipping _ key => [key]
  | .received _ final | .assembling _ final _ _ _ => finalKeys final
  | .promoting p | .promoted p _ | .confirming p => p.spent ++ p.scratch
  | .discarding _ keys => keys
  | _ => []

/-- The objects a request deletes to end its session. -/
def sources : Request → List Key
  | .assembling c _ parts _ _ => c.cleanupKeys parts
  | .promoting p | .promoted p _ | .confirming p => p.sources
  | .cancelling _ _ keys => keys
  | _ => []

/-- The numbers a request has drawn for its stored body and its lease. -/
def tickets (q : Request) : List ℕ :=
  (q.pending.bind (·.key.unique)).toList ++ q.target.toList.map (·.2.token)

end Request

/-! ### The inversion of a step -/

section

variable (st)

/-- The object is written under a new key. -/
def Fresh (w : Effect) (k : Key) : Prop :=
  k.unique = some st.next ∧ ∃ body, w = .put k body

variable (q)

/-- The key is named by the rows of the session the request has leased. -/
def Lists (k : Key) : Prop :=
  ∃ t, q.target = some t ∧ (k = .temp t.1 ∨
    ∃ s p, st.sessions t.1 = some s ∧ p ∈ s.parts ∧ p.storageKey = k)

/-- The session of the request, if any, ends with the statement or has ended before. -/
def Released (w : Effect) : Prop :=
  (∃ commit, w = .commitBlob commit ∧ commit.session = q.target.map Prod.fst) ∨
    (w = .none ∧ ∃ t, q.target = some t ∧ st.sessions t.1 = none)

/-- How an object comes to be deleted. -/
def Discards (a : Action) (w : Effect) (k : Key) : Prop :=
  k ∈ q.scratch ∨ Fresh st w k ∨ (w = .none ∧ ∃ u, q.pending = some u ∧ u.key = k) ∨
    (k ∈ q.sources ∧ Released st q w) ∨
    (a = .recover ∧ w = .none ∧ ∃ snap body, q = .recovering snap k body ∧
      ∀ s, st.sessions snap.session = some s → s.committedPart snap k = none)

variable (sha256)

/-- The phase and the query behind a write. -/
def Warranted (st : Store) (q : Request) (a : Action) : Effect → Prop
  | .none | .tick _ => True
  | .put key _ => key.unique = some st.next
  | .promote digest content => ∃ p, q = .promoting p ∧ p.digest = digest ∧
      st.objects p.source = some content
  | .delete key => key ∈ q.scratch ∨ ∃ session token keys, q = .cancelling session token keys ∧
      key ∈ keys
  | .createSession session body computed acknowledged => q = .posted session body ∧
      computed = firstDigest sha256 body ∧
      (acknowledged = true ∨ a = .insertSessionUnacknowledged true)
  | .appendPart snap key body computed acknowledged => q = .patched snap key body ∧
      computed = snap.computedDigest sha256 body ∧
      (acknowledged = true ∨ a = .commitPatchUnacknowledged true) ∧
      ∃ s, st.sessions snap.session = some s ∧ s.isAppendable snap
  | .acknowledge session body => ∃ snap key s p, q = .recovering snap key body ∧
      snap.session = session ∧ st.sessions session = some s ∧ s.committedPart snap key = some p
  | .claim session lease => lease.token = st.next ∧ q = .idle ∧ ∃ s, st.sessions session = some s ∧
      ((s.state = .open ∧ a = .claimCancel session) ∨
        (lease.isCancel = false ∧ s.isClaimable st.now ∧ ∃ param, a = .claimCompletion session param))
  | .renew session => ∃ lease, q.target = some (session, lease)
  | .reset session => ∃ lease s, q = .discarding (some (session, lease)) [] ∧
      st.sessions session = some s ∧ s.stateToken = some lease
  | .deleteSession session => ∃ token, q = .cancelling session token [] ∧
      st.owns (some (session, .cancel token))
  | .commitBlob commit => ∃ p content, q = .promoted p content ∧ commit = p.commit content ∧
      st.owns p.target

def Claims (c : Completion) (w : Effect) : Prop :=
  w = .claim c.session (.completion c.token) ∧
    Sha256Digest.parseDigestParam c.param = .ok c.digest ∧
    ∃ s, st.sessions c.session = some s ∧ c.computedDigest = s.computedDigest ∧
      c.bytesReceived = s.bytesReceived

/-- The client's parameter and digest come from the request. -/
def Asks (p : Promotion) : Prop :=
  (p.owner = none ∧ Sha256Digest.parseDigestParam p.param = .ok p.digest) ∨
    ∃ c, q.completion = some c ∧ p.param = c.param ∧ p.digest = c.digest

/-- The digest of the source has just been compared with the client's. -/
def Verified (p : Promotion) (w : Effect) : Prop :=
  ∃ body, w = .put p.source body ∧ sha256 body = p.digest ∧ body.length = p.sizeBytes

/-- The fast path takes the only part of a session whose recorded digest is the client's. -/
def Trusted (p : Promotion) : Prop :=
  ∃ c part, q.completion = some c ∧ p.target = c.target ∧ c.computedDigest = some p.digest ∧
    fetchUploadParts st c.session c.bytesReceived = [part] ∧ p.source = part.storageKey ∧
    p.sizeBytes = part.sizeBytes

/-- A cancellation that has deleted all objects goes on to reset its session. -/
def Reopens (a : Action) (w : Effect) (t : ℕ × Lease) : Prop :=
  ∃ token, q = .cancelling t.1 token [] ∧ t.2 = .cancel token ∧
    (st.owns (some t) = false ∨ w = .deleteSession t.1 ∨ a = .deleteSessionFailed false)

variable (a o)

structure Sound : Prop where
  warranted : Warranted sha256 st q a o.effect
  upload : ∀ u, o.next.upload = some u → q.upload = some u ∨
    (Fresh st o.effect u.key ∧ o.effect = .put u.key u.body ∧
      u.key.place = some (u.session, u.index))
  pending : ∀ u, o.next.pending = some u →
    (q.pending = some u ∧ o.effect.records = none) ∨ Fresh st o.effect u.key
  records : ∀ k, o.effect.records = some k →
    o.next = .finished ∨ a = .commitPatchUnacknowledged true
  snapshot : ∀ snap, o.next.snapshot = some snap → q.snapshot = some snap ∨
    (o.effect = .none ∧ ∃ s, st.sessions snap.session = some s ∧
      snap.bytesReceived = s.bytesReceived ∧ snap.partCount = s.parts.length)
  target : ∀ t, o.next.target = some t → q.target = some t ∨ o.effect = .claim t.1 t.2
  completion : ∀ c, o.next.completion = some c → q.completion = some c ∨ Claims st c o.effect
  cancels : ∀ t, o.next.cancels = some t → q.cancels = some t ∨ o.effect = .claim t.1 (.cancel t.2)
  restores : ∀ t, o.next.restores = some t → q.restores = some t ∨ t.2.isCancel = false ∨
    o.effect = .claim t.1 t.2 ∨ Reopens st q a o.effect t
  scratch : ∀ k ∈ o.next.scratch, Discards st q a o.effect k
  sources : ∀ k ∈ o.next.sources, Fresh st o.effect k ∨ (o.next.target = q.target ∧
    (k ∈ q.sources ∨ (o.effect = .none ∧ (Lists st q k ∨ k ∈ q.scratch))))
  promoting : ∀ p, o.next = .promoting p → q = .promoting p ∨
    (Asks q p ∧ ((Fresh st o.effect p.source ∧ Verified sha256 p o.effect) ∨
      (o.effect = .none ∧ Trusted st q p)))
  promoted : ∀ p content, o.next = .promoted p content →
    (∃ spent, q = .promoted { p with spent } content ∧ o.effect.commits = none) ∨
      (q = .promoting p ∧ o.effect = .promote p.digest content ∧ st.objects p.source = some content)

end

/-! ### Ways to go on -/

theorem not_recording {next : Request} (quiet : w.records = none) (k : Key)
    (records : w.records = some k) : next = .finished ∨ a = .commitPatchUnacknowledged true := by
  rw [quiet] at records
  cases records

theorem sound_finish (warranted : Warranted sha256 st q a w) :
    Sound sha256 st q a ⟨[], w, .finished⟩ :=
  ⟨warranted, nofun, nofun, fun _ _ => .inl rfl, nofun, nofun, nofun, nofun, nofun, nofun, nofun,
    nofun, nofun⟩

variable {keys : List Key} {c : Completion} {p : Promotion} {final : Option PartRecord}
  {target : Option (ℕ × Lease)} {landed : Bool} {next : Request}

section

variable (warranted : Warranted sha256 st q a w) (quiet : w.records = none)
include warranted quiet

theorem sound_wait (uncommitted : w.commits = none) : Sound sha256 st q a ⟨[], w, q⟩ where
  warranted := warranted
  upload _ := .inl
  pending _ same := .inl ⟨same, quiet⟩
  records := not_recording quiet
  snapshot _ := .inl
  target _ := .inl
  completion _ := .inl
  cancels _ := .inl
  restores _ := .inl
  scratch _ := .inl
  sources _ old := .inr ⟨rfl, .inl old⟩
  promoting _ := .inl
  promoted p _ same := .inl ⟨p.spent, same, uncommitted⟩

/-- The request gives up or ends, with objects to delete. -/
theorem sound_discard (mine : ∀ t, target = some t → q.target = some t)
    (restores : ∀ t, target = some t → q.restores = some t ∨ t.2.isCancel = false ∨
      Reopens st q a w t) (discards : ∀ k ∈ keys, Discards st q a w k) :
    Sound sha256 st q a ⟨[], w, .discarding target keys⟩ := by
  refine ⟨warranted, nofun, nofun, not_recording quiet, nofun,
    fun t same => .inl (mine t same), nofun, nofun, fun t same => ?_, discards, nofun, nofun, nofun⟩
  rcases restores t same with old | kind | reopens
  · exact .inl old
  · exact .inr (.inl kind)
  · exact .inr (.inr (.inr reopens))

theorem sound_fail_completion (mine : q.target = c.target)
    (discards : ∀ k ∈ keys, Discards st q a w k) :
    Sound sha256 st q a ⟨[], w, .discarding c.target keys⟩ := by
  refine sound_discard warranted quiet (fun t same => mine.trans same) (fun t same => ?_) discards
  cases same
  exact .inr (.inl rfl)

theorem sound_fail_promotion (mine : q.target = p.target)
    (discards : ∀ k ∈ keys, Discards st q a w k) :
    Sound sha256 st q a ⟨[], w, .discarding p.target keys⟩ := by
  refine sound_discard warranted quiet (fun t same => mine.trans same) (fun t same => ?_) discards
  obtain ⟨_, _, rfl⟩ := map_eq_some_iff.1 same
  exact .inr (.inl rfl)

/-- What a request carries outside a completion and a promotion. -/
structure Request.Bare (next : Request) : Prop where
  upload : next.upload = none
  pending : next.pending = none
  snapshot : next.snapshot = none
  cancels : next.cancels = none
  restores : next.restores = none

theorem sound_go_on (bare : next.Bare) (target : next.target = q.target)
    (completion : ∀ c, next.completion = some c → q.completion = some c)
    (scratch : ∀ k ∈ next.scratch, Discards st q a w k)
    (sources : ∀ k ∈ next.sources, k ∈ q.sources ∨ (w = .none ∧ (Lists st q k ∨ k ∈ q.scratch)))
    (promoting : ∀ p, next = .promoting p → q = .promoting p ∨
      (Asks q p ∧ ((Fresh st w p.source ∧ Verified sha256 p w) ∨ (w = .none ∧ Trusted st q p))))
    (promoted : ∀ p content, next = .promoted p content →
      (∃ spent, q = .promoted { p with spent } content ∧ w.commits = none) ∨
        (q = .promoting p ∧ w = .promote p.digest content ∧ st.objects p.source = some content)) :
    Sound sha256 st q a ⟨[], w, next⟩ where
  warranted := warranted
  upload _ same := by cases bare.upload.symm.trans same
  pending _ same := by cases bare.pending.symm.trans same
  records := not_recording quiet
  snapshot _ same := by cases bare.snapshot.symm.trans same
  target _ same := .inl (target.symm.trans same)
  completion c same := .inl (completion c same)
  cancels _ same := by cases bare.cancels.symm.trans same
  restores _ same := by cases bare.restores.symm.trans same
  scratch := scratch
  sources k mem := .inr ⟨target, sources k mem⟩
  promoting := promoting
  promoted := promoted

end

theorem warranted_landing (warranted : Warranted sha256 st q a w) :
    Warranted sha256 st q a (.landing landed w) := by
  cases landed with
  | false => trivial
  | true => exact warranted

theorem records_landing (quiet : w.records = none) : (Effect.landing landed w).records = none := by
  cases landed with
  | false => rfl
  | true => exact quiet

/-! ### First steps -/

theorem putMonolithic_sound (param : Text) (body : Bytes) :
    Sound sha256 st .idle a (putMonolithic sha256 st param body) := by
  unfold putMonolithic
  split
  · exact sound_finish trivial
  · next _ parsed =>
    split_ifs with same
    · refine ⟨rfl, nofun, nofun, nofun, nofun, nofun, nofun, nofun, nofun, ?_, ?_, ?_, nofun⟩
      · exact forall_mem_singleton.2 (.inr (.inl ⟨rfl, _, rfl⟩))
      · exact forall_mem_singleton.2 (.inl ⟨rfl, _, rfl⟩)
      · rintro _ ⟨⟩
        exact .inr ⟨.inl ⟨rfl, parsed⟩, .inl ⟨⟨rfl, _, rfl⟩, body, rfl, same.symm, rfl⟩⟩
    · exact sound_discard rfl rfl nofun nofun (forall_mem_singleton.2 (.inr (.inl ⟨rfl, _, rfl⟩)))

theorem fetchSession_sound (session : ℕ) : Sound sha256 st .idle a (fetchSession st session) := by
  unfold fetchSession
  split
  · next s found =>
    split_ifs
    · refine ⟨trivial, nofun, nofun, nofun, ?_, nofun, nofun, nofun, nofun, nofun, nofun, nofun,
        nofun⟩
      rintro _ ⟨⟩
      exact .inr ⟨rfl, s, found, rfl, rfl⟩
    · exact sound_finish trivial
  · exact sound_finish trivial

theorem claimCompletion_sound (session : ℕ) (param : Text) :
    Sound sha256 st .idle (.claimCompletion session param) (claimCompletion st session param) := by
  unfold claimCompletion
  split
  · next _ s parsed found =>
    split_ifs with claimable
    · refine ⟨⟨rfl, rfl, s, found, .inr ⟨rfl, claimable, param, rfl⟩⟩, nofun, nofun, nofun, nofun, ?_, ?_,
        nofun, nofun, nofun, nofun, nofun, nofun⟩
      · rintro _ ⟨⟩
        exact .inr rfl
      · rintro _ ⟨⟩
        exact .inr ⟨rfl, parsed, s, found, rfl, rfl⟩
    · exact sound_finish trivial
  · exact sound_finish trivial

theorem claimCancel_sound (session : ℕ) :
    Sound sha256 st .idle (.claimCancel session) (claimCancel st session) := by
  unfold claimCancel
  split
  · next s found =>
    split_ifs with isOpen
    · refine ⟨⟨rfl, rfl, s, found, .inl ⟨isOpen, rfl⟩⟩, nofun, nofun, nofun, nofun, ?_, nofun, ?_,
        ?_, nofun, nofun, nofun, nofun⟩
      · rintro _ ⟨⟩
        exact .inr rfl
      · rintro _ ⟨⟩
        exact .inr rfl
      · rintro _ ⟨⟩
        exact .inr (.inr (.inl rfl))
    · exact sound_finish trivial
  · exact sound_finish trivial

theorem postUpload_sound (body : Bytes) :
    Sound sha256 st .idle a ⟨[], .put (.temp st.next) body, .posted st.next body⟩ := by
  refine ⟨rfl, ?_, ?_, nofun, nofun, nofun, nofun, nofun, nofun, nofun, nofun, nofun, nofun⟩
  · rintro _ ⟨⟩
    exact .inr ⟨⟨rfl, _, rfl⟩, rfl, rfl⟩
  · rintro _ ⟨⟩
    exact .inr ⟨rfl, _, rfl⟩

theorem start_sound (h : start sha256 st a = some o) : Sound sha256 st .idle a o := by
  unfold start at h
  split at h <;> cases h
  · exact putMonolithic_sound _ _
  · exact postUpload_sound _
  · exact fetchSession_sound _
  · exact claimCompletion_sound _ _
  · exact claimCancel_sound _
  · exact sound_finish rfl

/-! ### POST and PATCH -/

variable {session : ℕ} {body : Bytes}

theorem insertSession_sound (h : insertSession sha256 session body a = some o) :
    Sound sha256 st (.posted session body) a o := by
  unfold insertSession at h
  split at h <;> cases h
  · exact sound_finish ⟨rfl, rfl, .inl rfl⟩
  · next landed =>
    cases landed with
    | false => exact sound_finish trivial
    | true => exact sound_finish ⟨rfl, rfl, .inr rfl⟩
  · refine sound_discard trivial rfl nofun nofun (forall_mem_singleton.2 ?_)
    exact .inr (.inr (.inl ⟨rfl, _, rfl, rfl⟩))

variable {snap : Snapshot}

theorem putPart_sound (h : putPart st snap a = some o) : Sound sha256 st (.streaming snap) a o := by
  unfold putPart at h
  split at h <;> cases h
  · refine ⟨rfl, ?_, ?_, nofun, fun _ => .inl, nofun, nofun, nofun, nofun, nofun, nofun, nofun,
      nofun⟩
    · rintro _ ⟨⟩
      exact .inr ⟨⟨rfl, _, rfl⟩, rfl, rfl⟩
    · rintro _ ⟨⟩
      exact .inr ⟨rfl, _, rfl⟩
  · exact sound_finish rfl
  · exact sound_finish trivial

theorem commitPatch_sound {key : Key} (h : commitPatch sha256 st snap key body a = some o) :
    Sound sha256 st (.patched snap key body) a o := by
  have conflict : Sound sha256 st (.patched snap key body) a
      ⟨[], .none, .discarding none [key]⟩ := by
    refine sound_discard trivial rfl nofun nofun (forall_mem_singleton.2 ?_)
    exact .inr (.inr (.inl ⟨rfl, _, rfl, rfl⟩))
  unfold commitPatch at h
  split at h <;> cases h
  · split_ifs with appendable
    · obtain ⟨s, found, allowed⟩ := (any_eq_true _ _).1 appendable
      exact sound_finish ⟨rfl, rfl, .inl rfl, s, found, allowed⟩
    · exact conflict
  · next landed =>
    split_ifs with appendable
    · obtain ⟨s, found, allowed⟩ := (any_eq_true _ _).1 appendable
      refine ⟨?_, fun _ => .inl, nofun, ?_, fun _ => .inl, nofun, nofun, nofun, nofun, nofun, nofun,
        nofun, nofun⟩
      · cases landed with
        | false => trivial
        | true => exact ⟨rfl, rfl, .inr rfl, s, found, allowed⟩
      · cases landed with
        | false => nofun
        | true => exact fun _ _ => .inr rfl
    · exact conflict
  · exact conflict

theorem recover_sound {key : Key} (h : recover st snap key body a = some o) :
    Sound sha256 st (.recovering snap key body) a o := by
  unfold recover at h
  split at h
  · split at h
    · next missing =>
      cases h
      refine sound_discard trivial rfl nofun nofun (forall_mem_singleton.2 ?_)
      refine .inr (.inr (.inr (.inr ⟨rfl, rfl, snap, body, rfl, fun s found => ?_⟩)))
      rw [found, bind_some, map_eq_none_iff] at missing
      exact missing
    · next found =>
      split_ifs at h <;> cases h
      · obtain ⟨s, row, part⟩ := bind_eq_some_iff.1 found
        obtain ⟨p, committed, _⟩ := map_eq_some_iff.1 part
        exact sound_finish ⟨snap, key, s, p, rfl, rfl, row, committed⟩
      · exact sound_finish trivial
  · cases h
    exact sound_finish trivial
  · cases h

/-! ### Completion -/

theorem putFinal_sound (h : putFinal st c a = some o) : Sound sha256 st (.completing c) a o := by
  unfold putFinal at h
  split at h <;> cases h
  · next body =>
    have discards : ∀ k ∈ [Key.part c.session finalPartIndex st.next],
        Discards st (.completing c) (.putFinal body)
          (.put (.part c.session finalPartIndex st.next) body) k :=
      forall_mem_singleton.2 (.inr (.inl ⟨rfl, body, rfl⟩))
    -- An empty body is put and deleted again; either way the new key is the request's own.
    split_ifs
    all_goals
      exact sound_go_on rfl rfl ⟨rfl, rfl, rfl, rfl, rfl⟩ rfl (fun _ => id) discards nofun nofun
        nofun
  · exact sound_go_on trivial rfl ⟨rfl, rfl, rfl, rfl, rfl⟩ rfl (fun _ => id) nofun nofun nofun
      nofun
  · exact sound_fail_completion rfl rfl rfl (forall_mem_singleton.2 (.inr (.inl ⟨rfl, _, rfl⟩)))
  · exact sound_fail_completion trivial rfl rfl nofun

theorem skipFinal_sound {key : Key} (h : skipFinal c key a = some o) :
    Sound sha256 st (.skipping c key) a o := by
  unfold skipFinal at h
  split at h
  · split_ifs at h
    cases h
    exact sound_go_on (warranted_landing (.inl (mem_singleton_self key)))
      (records_landing rfl) ⟨rfl, rfl, rfl, rfl, rfl⟩ rfl (fun _ => id) nofun nofun nofun nofun
  · cases h

variable {parts : List PartRecord} {part : PartRecord}

theorem fastPart_eq_some (h : c.fastPart final parts = some part) :
    parts = [part] ∧ final = none ∧ c.computedDigest = some c.digest := by
  unfold Completion.fastPart at h
  split at h
  · split_ifs at h with trusted
    cases h
    simpa using trusted
  · cases h

theorem lists_fetchUploadParts (mine : q.target = c.target)
    (mem : part ∈ fetchUploadParts st c.session c.bytesReceived) : Lists st q part.storageKey := by
  unfold fetchUploadParts at mem
  split at mem
  · cases mem_singleton.1 mem
    exact ⟨_, mine, .inl rfl⟩
  · cases found : st.sessions c.session with
    | none =>
      rw [found] at mem
      cases mem
    | some s =>
      rw [found] at mem
      obtain ⟨p, sorted, rfl⟩ := List.mem_map.1 mem
      exact ⟨_, mine, .inr ⟨s, p, found, (mem_insertionSort _).1 sorted, rfl⟩⟩

theorem lists_cleanupKeys {k : Key}
    (mem : k ∈ c.cleanupKeys (fetchUploadParts st c.session c.bytesReceived ++ final.toList)) :
    Lists st (.received c final) k ∨ k ∈ (Request.received c final).scratch := by
  simp only [Completion.cleanupKeys, mem_dedup, map_append, mem_cons, mem_append] at mem
  rcases mem with rfl | fetched | last
  · exact .inl ⟨_, rfl, .inl rfl⟩
  · obtain ⟨_, mem, rfl⟩ := List.mem_map.1 fetched
    exact .inl (lists_fetchUploadParts rfl mem)
  · exact .inr last

theorem fetchParts_sound
    (h : fetchParts st c final a = some o) : Sound sha256 st (.received c final) a o := by
  unfold fetchParts at h
  dsimp only at h
  split at h
  · split at h
    · next part fast =>
      cases h
      refine sound_go_on trivial rfl ⟨rfl, rfl, rfl, rfl, rfl⟩ rfl nofun nofun
        (fun k mem => .inr ⟨rfl, lists_cleanupKeys mem⟩) ?_ nofun
      rintro _ ⟨⟩
      obtain ⟨only, rfl, trusted⟩ := fastPart_eq_some fast
      rw [toList_none, append_nil] at only
      exact .inr ⟨.inr ⟨c, rfl, rfl, rfl⟩, .inr ⟨rfl, c, part, rfl, rfl, trusted, only, rfl, rfl⟩⟩
    · split_ifs at h <;> cases h
      · exact sound_fail_completion trivial rfl rfl nofun
      · exact sound_go_on trivial rfl ⟨rfl, rfl, rfl, rfl, rfl⟩ rfl (fun _ => id) (fun _ => .inl)
          (fun k mem => .inr ⟨rfl, lists_cleanupKeys mem⟩) nofun nofun
  · cases h
    exact sound_fail_completion trivial rfl rfl fun _ => .inl
  · cases h

theorem assemble_sound {todo : List PartRecord} {content : Bytes}
    (h : assemble sha256 st c final parts todo content a = some o) :
    Sound sha256 st (.assembling c final parts todo content) a o := by
  unfold assemble at h
  split at h
  · split at h <;> cases h
    · exact sound_go_on trivial rfl ⟨rfl, rfl, rfl, rfl, rfl⟩ rfl (fun _ => id) (fun _ => .inl)
        (fun _ => .inl) nofun nofun
    · exact sound_fail_completion trivial rfl rfl fun _ => .inl
  · split_ifs at h with same <;> cases h
    · refine sound_go_on rfl rfl ⟨rfl, rfl, rfl, rfl, rfl⟩ rfl nofun ?_ (fun _ => .inl) ?_ nofun
      · exact forall_mem_cons.2 ⟨.inr (.inl ⟨rfl, _, rfl⟩), fun _ => .inl⟩
      · rintro _ ⟨⟩
        exact .inr ⟨.inr ⟨c, rfl, rfl, rfl⟩, .inl ⟨⟨rfl, _, rfl⟩, content, rfl, same, rfl⟩⟩
    · exact sound_fail_completion rfl rfl rfl
        (forall_mem_cons.2 ⟨.inr (.inl ⟨rfl, _, rfl⟩), fun _ => .inl⟩)
  · cases h
    exact sound_fail_completion rfl rfl rfl fun _ => .inl
  · cases h
    exact sound_fail_completion trivial rfl rfl fun _ => .inl
  · cases h

/-! ### Promotion and commit -/

theorem copyBlob_sound (h : copyBlob st p a = some o) : Sound sha256 st (.promoting p) a o := by
  unfold copyBlob at h
  split at h
  · next _ found =>
    cases h
    refine sound_go_on ⟨p, rfl, rfl, found⟩ rfl ⟨rfl, rfl, rfl, rfl, rfl⟩ rfl nofun (fun _ => .inl)
      (fun _ => .inl) nofun ?_
    rintro _ _ ⟨⟩
    exact .inr ⟨rfl, rfl, found⟩
  · next found =>
    cases h
    exact sound_fail_promotion (warranted_landing ⟨p, rfl, rfl, found⟩) (records_landing rfl) rfl
      fun _ => .inl
  all_goals
    cases h
    try exact sound_fail_promotion trivial rfl rfl fun _ => .inl

theorem map_fst_target (p : Promotion) : p.target.map Prod.fst = p.owner.map Prod.fst := by
  rw [Promotion.target, Option.map_map]
  rfl

theorem commitBlob_sound {content : Bytes}
    (h : commitBlob st p content a = some o) : Sound sha256 st (.promoted p content) a o := by
  have failed : Sound sha256 st (.promoted p content) a
      ⟨[], .none, .discarding p.target p.scratch⟩ :=
    sound_fail_promotion trivial rfl rfl fun k mem => .inl (mem_append_right _ mem)
  have warranted (owned : st.owns p.target) :
      Warranted sha256 st (.promoted p content) a (.commitBlob (p.commit content)) :=
    ⟨p, content, rfl, rfl, owned⟩
  unfold commitBlob at h
  split at h
  · next _ landed k _ spent =>
    split_ifs at h with same
    cases h
    subst same
    refine sound_go_on (warranted_landing (.inl ?_)) (records_landing rfl)
      ⟨rfl, rfl, rfl, rfl, rfl⟩ rfl nofun ?_ (fun _ => .inl) nofun ?_
    · exact mem_append_left _ (spent ▸ mem_cons_self)
    · intro _ mem
      rcases mem_append.1 mem with old | old
      · exact .inl (mem_append_left _ (spent ▸ mem_cons_of_mem _ old))
      · exact .inl (mem_append_right _ old)
    · rintro _ _ ⟨⟩
      exact .inl ⟨p.spent, rfl, by cases landed <;> rfl⟩
  · cases h
    split_ifs with owned
    · refine sound_discard (warranted owned) rfl nofun nofun fun k mem => ?_
      exact .inr (.inr (.inr (.inl ⟨mem, .inl ⟨_, rfl, (map_fst_target p).symm⟩⟩)))
    · exact failed
  · cases h
    split_ifs with owned
    · unfold Promotion.afterError
      split
      · exact sound_discard (warranted_landing (warranted owned)) (records_landing rfl) nofun nofun
          fun k mem => .inl (mem_append_right _ mem)
      · exact sound_go_on (warranted_landing (warranted owned)) (records_landing rfl)
          ⟨rfl, rfl, rfl, rfl, rfl⟩ rfl nofun (fun _ => .inl) (fun _ => .inl) nofun nofun
    · exact failed
  · cases h
    exact failed
  · cases h

theorem confirm_sound (h : confirm st p a = some o) : Sound sha256 st (.confirming p) a o := by
  unfold confirm at h
  split at h
  · next session token owner =>
    split_ifs at h with alive <;> cases h
    · exact sound_fail_promotion trivial rfl rfl fun k mem => .inl (mem_append_right _ mem)
    · refine sound_discard trivial rfl nofun nofun fun k mem => ?_
      refine .inr (.inr (.inr (.inl ⟨mem, .inr ⟨rfl, (session, .completion token), ?_, ?_⟩⟩)))
      · simp only [Request.target, Promotion.target, owner, map_some]
      · simpa using alive
    · exact sound_finish trivial
  · cases h
    exact sound_finish trivial
  · cases h

/-! ### Cancellation and cleanup -/

theorem listParts_sound {token : ℕ} (h : listParts st session token a = some o) :
    Sound sha256 st (.leased session token) a o := by
  unfold listParts at h
  split at h <;> cases h
  · refine ⟨trivial, nofun, nofun, nofun, nofun, fun _ => .inl, nofun, fun _ => .inl, nofun, nofun,
      ?_, nofun, nofun⟩
    intro k mem
    simp only [Request.sources, cancelKeys, mem_dedup, mem_cons] at mem
    refine .inr ⟨rfl, .inr ⟨rfl, .inl ⟨_, rfl, ?_⟩⟩⟩
    rcases mem with rfl | listed
    · exact .inl rfl
    · cases found : st.sessions session with
      | none =>
        rw [found] at listed
        cases listed
      | some s =>
        rw [found] at listed
        obtain ⟨p, mem, rfl⟩ := List.mem_map.1 listed
        exact .inr ⟨s, p, rfl, mem, rfl⟩
  · exact sound_discard trivial rfl (fun _ => id) (fun _ => .inl) nofun

theorem cancelParts_sound {token : ℕ} (h : cancelParts st session token keys a = some o) :
    Sound sha256 st (.cancelling session token keys) a o := by
  unfold cancelParts at h
  split at h
  · split_ifs at h with mem
    cases h
    refine ⟨.inr ⟨session, token, keys, rfl, mem⟩, nofun, nofun, nofun, nofun, fun _ => .inl, nofun,
      fun _ => .inl, nofun, nofun, ?_, nofun, nofun⟩
    exact fun k left => .inr ⟨rfl, .inl (mem_of_mem_erase left)⟩
  · split_ifs at h with mem
    cases h
    exact sound_finish (warranted_landing (.inr ⟨session, token, keys, rfl, mem⟩))
  · cases h
    split_ifs with owned
    · exact sound_finish ⟨token, rfl, owned⟩
    · refine sound_discard trivial rfl (fun _ => id) (fun t same => ?_) nofun
      cases same
      exact .inr (.inr ⟨token, rfl, rfl, .inl (by simpa using owned)⟩)
  · next landed =>
    cases h
    refine sound_discard ?_ (records_landing rfl) (fun _ => id) (fun t same => ?_) nofun
    · cases owned : landed && st.owns (some (session, .cancel token)) with
      | false => trivial
      | true => exact ⟨token, rfl, (Bool.and_eq_true_iff.1 owned).2⟩
    · cases same
      refine .inr (.inr ⟨token, rfl, rfl, ?_⟩)
      cases landed with
      | false => exact .inr (.inr rfl)
      | true =>
        cases owned : st.owns (some (session, .cancel token)) with
        | false => exact .inl rfl
        | true => exact .inr (.inl rfl)
  · cases h

theorem discard_sound (h : discard st target keys a = some o) :
    Sound sha256 st (.discarding target keys) a o := by
  unfold discard at h
  split at h
  · split_ifs at h with mem
    cases h
    exact sound_discard (warranted_landing (.inl mem)) (records_landing rfl) (fun _ => id)
      (fun _ => .inl)
      fun k left => .inl (mem_of_mem_erase left)
  · next _ lease =>
    cases h
    refine sound_finish ?_
    unfold resetSession
    split_ifs with mine
    · obtain ⟨s, found, token⟩ := (any_eq_true _ _).1 mine
      exact ⟨lease, s, rfl, found, by simpa using token⟩
    · trivial
  · cases h

theorem heartbeat_sound (h : heartbeat st q = some o) : Sound sha256 st q a o := by
  unfold heartbeat at h
  split at h
  · next _ _ mine =>
    cases h
    split_ifs
    · exact sound_wait ⟨_, mine⟩ rfl rfl
    · exact sound_wait trivial rfl rfl
  · cases h

theorem code_sound (h : code sha256 st q a = some o) : Sound sha256 st q a o := by
  unfold code at h
  split at h
  · cases h
    exact sound_wait trivial rfl rfl
  · cases h
    exact sound_finish trivial
  · exact heartbeat_sound h
  · exact start_sound h
  · exact insertSession_sound h
  · exact putPart_sound h
  · exact commitPatch_sound h
  · exact recover_sound h
  · exact putFinal_sound h
  · exact skipFinal_sound h
  · exact fetchParts_sound h
  · exact assemble_sound h
  · exact copyBlob_sound h
  · exact commitBlob_sound h
  · exact confirm_sound h
  · exact listParts_sound h
  · exact cancelParts_sound h
  · exact discard_sound h
  · cases h

end ArtifactKeeper.OciUpload
