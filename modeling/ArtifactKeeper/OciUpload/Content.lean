import ArtifactKeeper.OciUpload.Parts

/-!
# Content addressing

Every upload that commits a blob row has copied to the blob key an object with the digest and the
size of the row: a monolithic POST and the concatenating path have compared the digest themselves,
and the fast path relies on the digest recorded with the only part of the session (`Checked`).
-/

namespace ArtifactKeeper.OciUpload

open StepSystem List Option Sha256Digest

variable (sha256 : Bytes → Sha256Digest) (st : Store) {q : Request} {a : Action} {o : Statement}
  {w : Effect} {ok : World Store Request Lock → ℕ × Action → Prop}

/-! ### What a completion relies on -/

/-- The session of the upload, if it has one, carries its lease. -/
def Bound (target : Option (ℕ × Lease)) : Prop :=
  ∀ t, target = some t → ∃ s, st.sessions t.1 = some s ∧ s.stateToken = some t.2

/-- The object has the digest and the size that are to be committed. -/
def Matches (p : Promotion) (x : Bytes) : Prop :=
  sha256 x = p.digest ∧ x.length = p.sizeBytes

/-- The digest the completion has read is that of its session. -/
def UpToDate (c : Completion) : Prop :=
  ∀ s, st.sessions c.session = some s → s.stateToken = some (.completion c.token) →
    s.computedDigest = c.computedDigest

/-- What an upload knows of the object it promotes. -/
structure Checked (q : Request) : Prop where
  completion : ∀ c, q.completion = some c → parseDigestParam c.param = .ok c.digest ∧ UpToDate st c
  promoting : ∀ p, q = .promoting p → parseDigestParam p.param = .ok p.digest ∧ Drawn st p.source ∧
    (Bound st p.target → ∀ x, st.objects p.source = some x → Matches sha256 p x)
  promoted : ∀ p content, q = .promoted p content →
    parseDigestParam p.param = .ok p.digest ∧ (p.digest, content) ∈ st.promoted ∧
    (Bound st p.target → Matches sha256 p content)

variable {sha256 st} {c : Completion} {target : Option (ℕ × Lease)} {p : Promotion}

theorem target_of_completion (h : q.completion = some c) :
    q.target = some (c.session, .completion c.token) := by
  cases q <;> cases h <;> rfl

theorem bound_of_owns (h : st.owns target) : Bound st target := by
  rintro t rfl
  obtain ⟨s, found, owned⟩ := (Option.any_eq_true _ _).1 h
  simp only [Session.isOwned, Bool.and_eq_true, decide_eq_true_eq] at owned
  exact ⟨s, found, owned.2⟩

theorem bound_of_apply (tables : Tables sha256 st) (warranted : Warranted sha256 st q a w)
    (drawn : ∀ t, target = some t → t.2.token < st.next) (h : Bound (w.apply st) target) :
    Bound st target := by
  intro t same
  obtain ⟨_, found, leased⟩ := h t same
  obtain ⟨s, old, token, _⟩ := leased_of_apply tables warranted (drawn t same) found leased
  exact ⟨s, old, token⟩

theorem upToDate_apply (tables : Tables sha256 st) (warranted : Warranted sha256 st q a w)
    (drawn : c.token < st.next) (h : UpToDate st c) : UpToDate (w.apply st) c := by
  intro _ found leased
  have lease : (Lease.completion c.token).token < st.next := drawn
  obtain ⟨s, old, token, kept⟩ := leased_of_apply tables warranted lease found leased
  rw [kept.digest]
  exact h s old token

theorem upToDate_claims (claims : Claims st c w) : UpToDate (w.apply st) c := by
  obtain ⟨rfl, _, s, found, digest, _⟩ := claims
  intro _ found' _
  simp only [Effect.apply, Store.updateSession, Store.setSession, if_pos, found,
    map_some, Option.some.injEq] at found'
  rw [← found', digest]

theorem object_of_apply (warranted : Warranted sha256 st q a w) {k : Key} {x : Bytes}
    (drawn : Drawn st k) (h : (w.apply st).objects k = some x) : st.objects k = some x := by
  rcases apply_object h with old | rfl | ⟨_, rfl, rfl⟩
  · exact old
  · exact absurd warranted drawn.ne_fresh
  · obtain ⟨n, unique, _⟩ := drawn
    cases unique

theorem mem_promoted_apply {entry : Sha256Digest × Bytes} (h : entry ∈ st.promoted) :
    entry ∈ (w.apply st).promoted := by
  cases w with
  | promote => exact mem_cons_of_mem _ h
  | _ => exact h

theorem Checked.parsed (h : Checked sha256 st q) (asks : Asks q p) :
    parseDigestParam p.param = .ok p.digest := by
  rcases asks with ⟨_, parsed⟩ | ⟨c, completion, param, digest⟩
  · exact parsed
  · rw [param, digest]
    exact (h.completion c completion).1

/-- A write of any request leaves these facts alone. -/
theorem checked_apply {q' : Request} (tables : Tables sha256 st)
    (warranted : Warranted sha256 st q a w) (drawn : ∀ t ∈ q'.tickets, t < st.next)
    (h : Checked sha256 st q') : Checked sha256 (w.apply st) q' := by
  have leases (t : ℕ × Lease) (target : q'.target = some t) : t.2.token < st.next :=
    drawn _ (ticket_of_target target)
  refine ⟨fun c completion => ?_, fun p phase => ?_, fun p content phase => ?_⟩
  · obtain ⟨parsed, current⟩ := h.completion c completion
    have token : c.token < st.next := leases _ (target_of_completion completion)
    exact ⟨parsed, upToDate_apply tables warranted token current⟩
  · obtain ⟨parsed, source, good⟩ := h.promoting p phase
    refine ⟨parsed, source.apply, fun bound x found => ?_⟩
    refine good (bound_of_apply tables warranted (fun t same => leases t ?_) bound) x
      (object_of_apply warranted source found)
    rw [phase]
    exact same
  · obtain ⟨parsed, written, good⟩ := h.promoted p content phase
    refine ⟨parsed, mem_promoted_apply written, fun bound => ?_⟩
    refine good (bound_of_apply tables warranted (fun t same => leases t ?_) bound)
    rw [phase]
    exact same

/-! ### The fast path -/

theorem fetchUploadParts_single {id : ℕ} {s : Session} {p : PartRow} (bytesReceived : ℕ)
    (found : st.sessions id = some s) (only : s.parts = [p]) :
    fetchUploadParts st id bytesReceived = [p.record] := by
  simp [fetchUploadParts, found, Session.partRecords, only]

/-- The part the fast path takes is the body with the recorded digest. -/
theorem trusted_matches (tables : Tables sha256 st)
    (current : ∀ c, q.completion = some c → UpToDate st c) (trusted : Trusted st q p)
    (bound : Bound st p.target) {x : Bytes} (found : st.objects p.source = some x) :
    Matches sha256 p x := by
  obtain ⟨c, _, completion, target, recorded, fetched, source, size⟩ := trusted
  obtain ⟨s, session, token⟩ := bound _ target
  have wf := tables _ s session
  obtain ⟨row, only, digest⟩ := wf.digest p.digest ((current c completion s session token).trans
    recorded)
  rw [fetchUploadParts_single _ session only, singleton_inj] at fetched
  subst fetched
  have mem : row ∈ s.parts := only ▸ mem_singleton_self row
  rw [source] at found
  have body : x = row.body := wf.objects row mem x found
  exact ⟨body ▸ digest.symm, by rw [size, body]; exact (wf.sizes row mem).symm⟩

theorem trusted_drawn (ledger : Ledger st) (traced : Traced st q) (trusted : Trusted st q p) :
    Drawn st p.source := by
  obtain ⟨c, part, completion, _, _, fetched, source, _⟩ := trusted
  have mem : part ∈ fetchUploadParts st c.session c.bytesReceived :=
    fetched ▸ mem_singleton_self part
  rw [source]
  exact ledger.drawn _ (lists_recorded ledger traced
    (lists_fetchUploadParts (target_of_completion completion) mem))

/-! ### Commits -/

variable (sha256 st)

structure Addressed (c : Commit) : Prop where
  digest : sha256 c.content = c.digest
  size : c.content.length = c.sizeBytes
  param : parseDigestParam c.param = .ok c.digest
  written : (c.digest, c.content) ∈ st.promoted

/-- All commits keep their promise, and the sessions they belong to are gone. -/
structure Committed : Prop where
  rows : ∀ b ∈ st.blobs, ∃ c ∈ st.commits, c.digest = b.digest ∧ c.sizeBytes = b.sizeBytes
  addressed : ∀ c ∈ st.commits, Addressed sha256 st c
  ended : ∀ c ∈ st.commits, ∀ id, c.session = some id →
    .temp id ∈ st.recorded ∧ st.sessions id = none
  once : (st.commits.filterMap Commit.session).Nodup

variable {sha256 st}

theorem Addressed.apply {c : Commit} (h : Addressed sha256 st c) :
    Addressed sha256 (w.apply st) c :=
  ⟨h.digest, h.size, h.param, mem_promoted_apply h.written⟩

theorem apply_commits (st : Store) (w : Effect) :
    ((w.apply st).commits = st.commits ∧ (w.apply st).blobs = st.blobs) ∨
      ∃ c, w = .commitBlob c ∧ (w.apply st).commits = c :: st.commits := by
  cases w with
  | commitBlob commit => exact .inr ⟨commit, rfl, rfl⟩
  | _ => exact .inl ⟨rfl, rfl⟩

theorem mem_commitBlob {c : Commit} {b : BlobRow} (h : b ∈ (st.commitBlob c).blobs) :
    b ∈ st.blobs ∨ b = ⟨c.digest, c.sizeBytes⟩ := by
  simp only [Store.commitBlob] at h
  split_ifs at h
  · exact .inl h
  · exact (mem_cons.1 h).symm

theorem committed_apply (traced : Traced st q) (checked : Checked sha256 st q)
    (warranted : Warranted sha256 st q a w) (h : Committed sha256 st) :
    Committed sha256 (w.apply st) := by
  have ended : ∀ c ∈ st.commits, ∀ id, c.session = some id →
      .temp id ∈ (w.apply st).recorded ∧ (w.apply st).sessions id = none := by
    intro c mem id session
    obtain ⟨recorded, gone⟩ := h.ended c mem id session
    exact ⟨mem_recorded.2 (.inr recorded), gone_apply traced warranted recorded gone⟩
  rcases apply_commits st w with ⟨same, rows⟩ | ⟨c, rfl, commits⟩
  · refine ⟨?_, ?_, ?_, ?_⟩ <;> rw [same]
    · rw [rows]
      exact h.rows
    · exact fun c mem => (h.addressed c mem).apply
    · exact ended
    · exact h.once
  · obtain ⟨p, content, rfl, rfl, owned⟩ := warranted
    obtain ⟨parsed, written, good⟩ := checked.promoted p content rfl
    have bound := bound_of_owns owned
    have mine (id : ℕ) (session : (p.commit content).session = some id) :
        ∃ lease, p.target = some (id, lease) := by
      obtain ⟨owner, known, rfl⟩ := map_eq_some_iff.1 session
      exact ⟨.completion owner.2, by rw [Promotion.target, known]; rfl⟩
    refine ⟨?_, ?_, ?_, ?_⟩ <;> rw [commits]
    · intro b mem
      rcases mem_commitBlob mem with old | rfl
      · obtain ⟨c, mem, row⟩ := h.rows b old
        exact ⟨c, mem_cons_of_mem _ mem, row⟩
      · exact ⟨p.commit content, mem_cons_self .., rfl, rfl⟩
    · intro c mem
      rcases mem_cons.1 mem with rfl | old
      · exact ⟨(good bound).1, (good bound).2, parsed, written⟩
      · exact (h.addressed c old).apply
    · intro c mem id session
      rcases mem_cons.1 mem with rfl | old
      · obtain ⟨_, target⟩ := mine id session
        refine ⟨mem_recorded.2 (.inr (traced.target _ target)), ?_⟩
        simp only [Effect.apply, Store.commitBlob, session, if_true]
      · exact ended c old id session
    · rw [filterMap_cons]
      split
      · exact h.once
      · next id session =>
        refine nodup_cons.2 ⟨fun again => ?_, h.once⟩
        obtain ⟨old, mem, same⟩ := mem_filterMap.1 again
        obtain ⟨_, target⟩ := mine id session
        obtain ⟨s, found, _⟩ := bound _ target
        cases (h.ended old mem id same).2.symm.trans found

/-! ### Every run -/

theorem checked_own : (service sha256).Own (fun w e => Known sha256 w ∧ ok w e)
    (Committed sha256) (Checked sha256) := by
  intro v e o holds ⟨known, _⟩ coded
  have sound := code_sound coded
  have tables := known.parts.store
  have checked := holds.procs e.1
  have after := checked_apply tables sound.warranted (known.below e.1) checked
  refine ⟨committed_apply (known.keys.procs e.1) checked sound.warranted holds.store,
    fun c completion => ?_, fun p phase => ?_, fun p content phase => ?_⟩
  · rcases sound.completion c completion with old | claims
    · exact after.completion c old
    · exact ⟨claims.2.1, upToDate_claims claims⟩
  · rcases sound.promoting p phase with old | ⟨asks, ⟨fresh, body, effect, good⟩ | ⟨effect, trusted⟩⟩
    · exact after.promoting p old
    · refine ⟨checked.parsed asks, fresh.drawn, fun _ x found => ?_⟩
      rw [effect] at found
      cases agrees_put p.source body x found
      exact good
    · have source := trusted_drawn known.keys.store (known.keys.procs e.1) trusted
      refine ⟨checked.parsed asks, source.apply, fun bound x found => ?_⟩
      rw [effect] at bound found
      exact trusted_matches tables (fun c completion => (checked.completion c completion).2) trusted
        bound found
  · rcases sound.promoted p content phase with ⟨spent, old, _⟩ | ⟨old, effect, found⟩
    · exact after.promoted { p with spent } content old
    · obtain ⟨parsed, _, good⟩ := checked.promoting p old
      refine ⟨parsed, ?_, fun bound => good ?_ content found⟩
      · rw [effect]
        exact mem_cons_self ..
      · refine bound_of_apply tables sound.warranted (fun t target => ?_) bound
        refine known.below e.1 _ (ticket_of_target ?_)
        rw [old]
        exact target

theorem checked_others : (service sha256).Others (fun w e => Known sha256 w ∧ ok w e)
    (Committed sha256) (Checked sha256) := by
  intro v e o j holds ⟨known, _⟩ coded _ _
  exact checked_apply known.parts.store (code_sound coded).warranted (known.below j) (holds.procs j)

theorem checked {w} (h : Reach (service sha256).step Quiescent ok w) :
    (service sha256).Holds (Committed sha256) (Checked sha256) w := by
  refine Protocol.invariant checked_own checked_others (fun w start => ?_) (h.strengthen fun _ => known)
  refine .of_idle start.quiet rfl ?_ ⟨nofun, nofun, nofun⟩
  constructor <;> simp [start.commits, start.blobs]

theorem fastPart_iff (tables : Tables sha256 st) {s : Session} {content : Bytes}
    (found : st.sessions c.session = some s) (recorded : s.computedDigest.isSome)
    (current : c.computedDigest = s.computedDigest)
    (read : storageConcat st.objects (fetchUploadParts st c.session c.bytesReceived) =
      some content) :
    (c.fastPart none (fetchUploadParts st c.session c.bytesReceived)).isSome ↔
      sha256 content = c.digest := by
  obtain ⟨digest, recorded⟩ := isSome_iff_exists.1 recorded
  have wf := tables _ s found
  obtain ⟨p, only, rfl⟩ := wf.digest digest recorded
  have fetched := fetchUploadParts_single c.bytesReceived found only
  have body : content = p.body := by
    have parts : fetchUploadParts st c.session c.bytesReceived = s.parts.map PartRow.record := by
      rw [fetched, only, map_singleton]
    rw [parts] at read
    rw [flatten_of_storageConcat wf.sizes wf.objects read, only]
    simp
  rw [fetched, body]
  simp [Completion.fastPart, current, recorded]

/-- An entry of the log `promoted` is an object that was written under the blob key of its digest. -/
theorem promoted_written {v v' e} (taken : (service sha256).step v e = some v')
    {entry : Sha256Digest × Bytes} (new : entry ∈ v'.store.promoted) :
    entry ∈ v.store.promoted ∨ v'.store.objects (.blob entry.1) = some entry.2 := by
  obtain ⟨o, -, _, _, rfl⟩ := Protocol.step_eq_some taken
  change entry ∈ (o.effect.apply v.store).promoted at new
  change _ ∨ (o.effect.apply v.store).objects (.blob entry.1) = some entry.2
  cases effect : o.effect with
  | promote =>
    rw [effect] at new
    rcases List.mem_cons.1 new with rfl | old
    · exact .inr (Function.update_self ..)
    · exact .inl old
  | _ =>
    rw [effect] at new
    exact .inl new

/-- A digest in place of `sha256` for runs on concrete bodies. -/
def sampleDigest (_ : Bytes) : Sha256Digest := ⟨List.replicate 64 'a', by decide, by simp; decide⟩

def sampleParam : Text := algorithm ++ List.replicate 64 'A'

def emptyWorld : World Store Request Lock :=
  ⟨⟨fun _ => none, fun _ => none, [], [], [], [], 0, 0⟩, .idle .idle⟩

theorem quiescent_empty : Quiescent emptyWorld :=
  ⟨rfl, fun _ => rfl, rfl, rfl, rfl⟩

end ArtifactKeeper.OciUpload
