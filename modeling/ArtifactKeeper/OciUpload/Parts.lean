import ArtifactKeeper.OciUpload.Steps

/-!
# Unique keys

No two requests draw one number (`draws`), a stored body stays unrecorded until the request that has
stored it records it (`traced`), and no other request holds its key (`clear`).  These facts hold in
every run.
-/

namespace ArtifactKeeper.OciUpload

open StepSystem List Option Protocol Request PartRow

variable {sha256 : Bytes → Sha256Digest} {st : Store} {q : Request} {a : Action} {o : Statement}
  {w : Effect} {ok : World Store Request Lock → ℕ × Action → Prop}

/-- No request is in flight and the tables are empty; there may be objects. -/
structure Quiescent (w : World Store Request Lock) : Prop where
  quiet : w.pool = .idle .idle
  sessions : ∀ id, w.store.sessions id = none
  blobs : w.store.blobs = []
  recorded : w.store.recorded = []
  commits : w.store.commits = []

/-! ### Numbers -/

def Drawn (st : Store) (k : Key) : Prop := ∃ n, k.unique = some n ∧ n < st.next

variable {k : Key}

theorem Drawn.apply (h : Drawn st k) : Drawn (w.apply st) k :=
  let ⟨n, unique, below⟩ := h
  ⟨n, unique, Nat.lt_of_lt_of_le below apply_next⟩

theorem Drawn.isSome (h : Drawn st k) : k.unique.isSome := by
  obtain ⟨n, unique, _⟩ := h
  rw [unique]
  rfl

theorem Fresh.drawn (h : Fresh st w k) : Drawn (w.apply st) k := by
  obtain ⟨unique, _, rfl⟩ := h
  exact ⟨st.next, unique, Nat.lt_succ_self _⟩

theorem Drawn.ne_fresh (h : Drawn st k) : k.unique ≠ some st.next := by
  obtain ⟨n, unique, below⟩ := h
  rw [unique]
  exact fun same => Nat.ne_of_lt below (some.inj same)

theorem draws : (service sha256).Draws Store.next tickets where
  grows _ _ _ _ _ := apply_next
  drawn st q a o coded t mem := by
    have sound := code_sound coded
    rcases mem_append.1 mem with stored | leased
    · obtain ⟨u, pending, unique⟩ := bind_eq_some_iff.1 (mem_toList.1 stored)
      rcases sound.pending u pending with ⟨old, _⟩ | ⟨fresh, _, effect⟩
      · refine .inl (mem_append_left _ ?_)
        rw [old]
        exact mem_toList.2 unique
      · cases fresh.symm.trans unique
        rw [effect]
        exact .inr ⟨rfl, Nat.lt_succ_self _⟩
    · obtain ⟨t, target, rfl⟩ := mem_map.1 leased
      rcases sound.target t (mem_toList.1 target) with old | claim
      · refine .inl (mem_append_right _ ?_)
        rw [old]
        exact mem_singleton_self _
      · have warranted := sound.warranted
        rw [claim] at warranted ⊢
        exact .inr ⟨warranted.1, warranted.1 ▸ Nat.lt_succ_self _⟩

theorem quiescent_below (w) (start : Quiescent w) : Below Store.next tickets w := by
  intro i
  rw [start.quiet]
  nofun

theorem below {w} (h : Reach (service sha256).step Quiescent ok w) : Below Store.next tickets w :=
  draws.below quiescent_below h

theorem apart {w} (h : Reach (service sha256).step Quiescent ok w) :
    Pairs (Disjoint tickets) w := by
  refine draws.apart quiescent_below (fun w start i j _ => ?_) h
  rw [start.quiet]
  nofun

/-! ### Recorded keys -/

namespace Request

def held (q : Request) : List Key := (q.upload.map Upload.key).toList ++ q.scratch ++ q.sources

theorem upload_of_pending {u : Upload} (h : q.pending = some u) : q.upload = some u := by
  cases q <;> first | exact h | cases h

theorem held_of_upload {u : Upload} (h : q.upload = some u) : u.key ∈ q.held := by
  simp [held, h]

theorem held_of_scratch (h : k ∈ q.scratch) : k ∈ q.held := by
  simp [held, h]

theorem held_of_sources (h : k ∈ q.sources) : k ∈ q.held := by
  simp [held, h]

end Request

/-- Every session and part row names recorded keys, and every recorded key has been drawn. -/
structure Ledger (st : Store) : Prop where
  drawn : ∀ k ∈ st.recorded, Drawn st k
  sessions : ∀ id s, st.sessions id = some s → .temp id ∈ st.recorded
  parts : ∀ id s, st.sessions id = some s → ∀ p ∈ s.parts, p.storageKey ∈ st.recorded

/-- What a request knows of the keys it holds. -/
structure Traced (st : Store) (q : Request) : Prop where
  upload : ∀ u, q.upload = some u → u.key.place = some (u.session, u.index)
  pending : ∀ u, q.pending = some u → u.key ∉ st.recorded
  snapshot : ∀ snap, q.snapshot = some snap → .temp snap.session ∈ st.recorded
  target : ∀ t, q.target = some t → .temp t.1 ∈ st.recorded
  held : ∀ k ∈ q.held, Drawn st k

theorem lists_recorded (ledger : Ledger st) (traced : Traced st q) (h : Lists st q k) :
    k ∈ st.recorded := by
  obtain ⟨t, target, rfl | ⟨s, p, found, mem, rfl⟩⟩ := h
  · exact traced.target t target
  · exact ledger.parts t.1 s found p mem

/-- A step gives a request no key but those it holds, new ones and recorded ones. -/
theorem held_next (ledger : Ledger st) (traced : Traced st q) (sound : Sound sha256 st q a o)
    (h : k ∈ o.next.held) : k ∈ q.held ∨ Fresh st o.effect k ∨ k ∈ st.recorded := by
  simp only [held, mem_append, mem_toList, map_eq_some_iff] at h
  rcases h with (⟨u, upload, rfl⟩ | scratch) | sources
  · rcases sound.upload u upload with old | ⟨fresh, _⟩
    · exact .inl (held_of_upload old)
    · exact .inr (.inl fresh)
  · rcases sound.scratch k scratch with
      old | fresh | ⟨_, u, pending, rfl⟩ | ⟨old, _⟩ | ⟨_, _, _, _, rfl, _⟩
    · exact .inl (held_of_scratch old)
    · exact .inr (.inl fresh)
    · exact .inl (held_of_upload (upload_of_pending pending))
    · exact .inl (held_of_sources old)
    · exact .inl (mem_cons_self ..)
  · rcases sound.sources k sources with fresh | ⟨_, old | ⟨_, lists | old⟩⟩
    · exact .inr (.inl fresh)
    · exact .inl (held_of_sources old)
    · exact .inr (.inr (lists_recorded ledger traced lists))
    · exact .inl (held_of_scratch old)

theorem records_pending (warranted : Warranted sha256 st q a w)
    (records : w.records = some k) : ∃ u, q.pending = some u ∧ u.key = k := by
  cases w with
  | createSession =>
    obtain ⟨rfl, _⟩ := warranted
    cases records
    exact ⟨_, rfl, rfl⟩
  | appendPart =>
    obtain ⟨rfl, _⟩ := warranted
    cases records
    exact ⟨_, rfl, rfl⟩
  | _ => cases records

theorem mem_recorded : k ∈ (w.apply st).recorded ↔ w.records = some k ∨ k ∈ st.recorded := by
  rw [apply_recorded, mem_append, mem_toList]

theorem ledger_apply (ledger : Ledger st) (traced : Traced st q)
    (warranted : Warranted sha256 st q a w) : Ledger (w.apply st) := by
  refine ⟨fun k mem => ?_, fun id s' found => ?_, fun id s' found p mem => ?_⟩
  · rcases mem_recorded.1 mem with new | old
    · obtain ⟨u, pending, rfl⟩ := records_pending warranted new
      exact (traced.held _ (held_of_upload (upload_of_pending pending))).apply
    · exact (ledger.drawn k old).apply
  · rcases apply_session found with ⟨s, old, _⟩ | ⟨_, _, _, rfl, _⟩
    · exact mem_recorded.2 (.inr (ledger.sessions id s old))
    · exact mem_recorded.2 (.inl rfl)
  · rcases apply_session found with ⟨s, old, kept | appended⟩ | created
    · rw [kept.parts] at mem
      exact mem_recorded.2 (.inr (ledger.parts id s old p mem))
    · obtain ⟨_, _, _, _, _, rfl, rfl, rfl⟩ := appended
      simp only [Session.append, mem_append, mem_singleton] at mem
      rcases mem with (mem | legacy) | rfl
      · exact mem_recorded.2 (.inr (ledger.parts _ s old p mem))
      · unfold legacyPart at legacy
        split_ifs at legacy
        · cases mem_singleton.1 legacy
          exact mem_recorded.2 (.inr (ledger.sessions _ s old))
        · cases legacy
      · exact mem_recorded.2 (.inl rfl)
    · obtain ⟨_, _, _, rfl, rfl⟩ := created
      simp only [newSession] at mem
      split_ifs at mem
      · cases mem_singleton.1 mem
        exact mem_recorded.2 (.inl rfl)
      · cases mem

theorem traced_own : (service sha256).Own ok Ledger Traced := by
  intro v e o holds _ coded
  have sound := code_sound coded
  have ledger := holds.store
  have traced := holds.procs e.1
  refine ⟨ledger_apply ledger traced sound.warranted, fun u upload => ?_, fun u pending => ?_,
    fun snap snapshot => ?_, fun t target => ?_, fun k held => ?_⟩
  · rcases sound.upload u upload with old | ⟨_, _, place⟩
    · exact traced.upload u old
    · exact place
  · intro mem
    rcases sound.pending u pending with ⟨old, quiet⟩ | fresh
    · rcases mem_recorded.1 mem with new | recorded
      · rw [quiet] at new
        cases new
      · exact traced.pending u old recorded
    · rcases mem_recorded.1 mem with new | recorded
      · obtain ⟨_, _, effect⟩ := fresh
        rw [effect] at new
        cases new
      · exact (ledger.drawn _ recorded).ne_fresh fresh.1
  · refine mem_recorded.2 (.inr ?_)
    rcases sound.snapshot snap snapshot with old | ⟨_, s, found, _⟩
    · exact traced.snapshot snap old
    · exact ledger.sessions _ s found
  · refine mem_recorded.2 (.inr ?_)
    rcases sound.target t target with old | claim
    · exact traced.target t old
    · have warranted := sound.warranted
      rw [claim] at warranted
      obtain ⟨_, _, s, found, _⟩ := warranted
      exact ledger.sessions _ s found
  · rcases held_next ledger traced sound held with old | fresh | recorded
    · exact (traced.held k old).apply
    · exact fresh.drawn
    · exact (ledger.drawn k recorded).apply

theorem ticket_of_pending {u : Upload} (pending : q.pending = some u) {n : ℕ}
    (unique : u.key.unique = some n) : n ∈ q.tickets := by
  simp [tickets, pending, unique]

theorem traced_others : (service sha256).Others
    (fun w e => Pairs (Disjoint tickets) w ∧ ok w e) Ledger Traced := by
  intro v e o j holds ⟨apart, _⟩ coded other _
  have sound := code_sound coded
  have traced := holds.procs j
  refine ⟨traced.upload, fun u pending mem => ?_,
    fun snap snapshot => mem_recorded.2 (.inr (traced.snapshot snap snapshot)),
    fun t target => mem_recorded.2 (.inr (traced.target t target)),
    fun k held => (traced.held k held).apply⟩
  rcases mem_recorded.1 mem with new | recorded
  · obtain ⟨_, pending', same⟩ := records_pending sound.warranted new
    obtain ⟨n, unique, _⟩ :=
      traced.held _ (held_of_upload (upload_of_pending pending))
    exact apart j e.1 other n (ticket_of_pending pending unique)
      (ticket_of_pending pending' (same ▸ unique))
  · exact traced.pending u pending recorded

theorem traced {w} (h : Reach (service sha256).step Quiescent ok w) :
    (service sha256).Holds Ledger Traced w := by
  refine invariant traced_own traced_others (fun w start => ?_) (h.strengthen fun _ => apart)
  refine .of_idle start.quiet rfl ?_ ⟨nofun, nofun, nofun, nofun, nofun⟩
  exact ⟨by simp [start.recorded], by simp [start.sessions], by simp [start.sessions]⟩

/-! ### Other requests' keys -/

def Clear (_ : Store) (q q' : Request) : Prop := ∀ u, q.pending = some u → u.key ∉ q'.held

theorem clear_meets : (service sha256).Meets
    (fun w e => (service sha256).Holds Ledger Traced w ∧ ok w e) Clear := by
  intro v e o j clear ⟨holds, _⟩ coded other
  have sound := code_sound coded
  refine ⟨fun u pending held => ?_, fun u pending held => ?_⟩
  · rcases sound.pending u pending with ⟨old, _⟩ | fresh
    · exact clear e.1 j (Ne.symm other) u old held
    · exact ((holds.procs j).held _ held).ne_fresh fresh.1
  · rcases held_next holds.store (holds.procs e.1) sound held with old | fresh | recorded
    · exact clear j e.1 other u pending old
    · have drawn := (holds.procs j).held _
        (held_of_upload (upload_of_pending pending))
      exact drawn.ne_fresh fresh.1
    · exact (holds.procs j).pending u pending recorded

theorem clear_apart : (service sha256).Apart
    (fun w e => (service sha256).Holds Ledger Traced w ∧ ok w e) Clear :=
  fun _ _ _ i j clear _ _ _ _ ne => clear i j ne

theorem clear {w} (h : Reach (service sha256).step Quiescent ok w) : Pairs Clear w := by
  refine pairwise clear_meets clear_apart (fun w start i j _ => ?_) (h.strengthen fun _ => traced)
  rw [start.quiet]
  nofun

/-! ### The parts of a session -/

open Bool

variable (sha256 st)

def Agrees (k : Key) (body : Bytes) : Prop := ∀ x, st.objects k = some x → x = body

/-- What holds of a session and its parts. -/
structure WellFormed (id : ℕ) (s : Session) : Prop where
  indices : s.parts.map partIndex = range s.parts.length
  total : (s.parts.map sizeBytes).sum = s.bytesReceived
  sizes : ∀ p ∈ s.parts, p.sizeBytes = p.body.length
  keys : ∀ p ∈ s.parts, p.storageKey.place = some (id, p.partIndex)
  digest : ∀ d, s.computedDigest = some d → ∃ p, s.parts = [p] ∧ d = sha256 p.body
  lease : s.state = .open → s.stateToken = none
  objects : ∀ p ∈ s.parts, Agrees st p.storageKey p.body

/-- All sessions are well formed. -/
def Tables : Prop := ∀ id s, st.sessions id = some s → WellFormed sha256 st id s

/-- The session has grown at most since the PATCH has read it. -/
structure Current (snap : Snapshot) : Prop where
  empty : snap.partCount = 0 → snap.bytesReceived = 0
  count : ∀ s, st.sessions snap.session = some s → snap.partCount ≤ s.parts.length

/-- What a POST or a PATCH knows of its body and its session. -/
structure Faithful (q : Request) : Prop where
  upload : ∀ u, q.upload = some u → Agrees st u.key u.body
  snapshot : ∀ snap, q.snapshot = some snap → Current st snap

/-! ### Objects and snapshots -/

variable {sha256 st} {body : Bytes}

theorem agrees_apply (warranted : Warranted sha256 st q a w) (drawn : Drawn st k)
    (h : Agrees st k body) : Agrees (w.apply st) k body := by
  intro x found
  rcases apply_object found with old | rfl | ⟨_, rfl, rfl⟩
  · exact h x old
  · exact absurd warranted drawn.ne_fresh
  · obtain ⟨n, unique, _⟩ := drawn
    cases unique

theorem agrees_put (k : Key) (body : Bytes) : Agrees (Effect.apply (.put k body) st) k body := by
  intro x found
  simpa [Effect.apply, Store.setObject, eq_comm] using found

variable {id : ℕ} {snap : Snapshot} {s' : Session}

theorem created_unrecorded (traced : Traced st q) (warranted : Warranted sha256 st q a w)
    (created : Created st w id s') : .temp id ∉ st.recorded := by
  obtain ⟨_, _, _, rfl, _⟩ := created
  obtain ⟨rfl, _⟩ := warranted
  exact traced.pending _ rfl

theorem current_apply (traced : Traced st q) (warranted : Warranted sha256 st q a w)
    (recorded : .temp snap.session ∈ st.recorded) (h : Current st snap) :
    Current (w.apply st) snap := by
  refine ⟨h.empty, fun s' found => ?_⟩
  rcases apply_session found with ⟨s, old, kept | appended⟩ | created
  · rw [kept.parts]
    exact h.count s old
  · obtain ⟨_, _, _, _, _, _, _, rfl⟩ := appended
    simp only [Session.append, length_append]
    exact (h.count s old).trans (by omega)
  · exact absurd recorded (created_unrecorded traced warranted created)

/-! ### Appending a part -/

theorem partIndex_eq (h : Current st snap) : snap.partIndex = snap.partCount := by
  unfold Snapshot.partIndex
  have := h.empty
  split_ifs <;> omega

variable {s : Session}

theorem partCount_eq (current : Current st snap) (found : st.sessions snap.session = some s)
    (wf : WellFormed sha256 st snap.session s) (appendable : s.isAppendable snap) :
    s.state = .open ∧ s.bytesReceived = snap.bytesReceived ∧ s.parts.length = snap.partCount := by
  simp only [Session.isAppendable, and_eq_true, decide_eq_true_eq, not_eq_true',
    List.any_eq_false] at appendable
  obtain ⟨⟨isOpen, bytes⟩, unused⟩ := appendable
  have absent : snap.partCount ∉ range s.parts.length := by
    rw [← wf.indices, ← partIndex_eq current]
    intro mem
    obtain ⟨p, mem, same⟩ := mem_map.1 mem
    exact unused p mem same
  rw [mem_range] at absent
  have := current.count s found
  exact ⟨isOpen, bytes, by omega⟩

theorem legacyPart_eq_nil (current : Current st snap) (s : Session) :
    legacyPart st s snap = [] := by
  have := current.empty
  refine if_neg ?_
  omega

theorem wellFormed_append {key : Key} (acknowledged : Bool)
    (found : st.sessions snap.session = some s) (wf : WellFormed sha256 st snap.session s)
    (current : Current st snap) (appendable : s.isAppendable snap)
    (place : key.place = some (snap.session, snap.partIndex)) (agrees : Agrees st key body) :
    WellFormed sha256 st snap.session
      (s.append st snap key body (snap.computedDigest sha256 body) acknowledged) := by
  obtain ⟨isOpen, bytes, count⟩ := partCount_eq current found wf appendable
  have parts : (s.append st snap key body (snap.computedDigest sha256 body) acknowledged).parts =
      s.parts ++ [⟨snap.partIndex, key, body.length, body⟩] := by
    simp [Session.append, legacyPart_eq_nil current]
  refine ⟨?_, ?_, ?_, ?_, ?_, fun _ => wf.lease isOpen, ?_⟩ <;> rw [parts]
  · simp [wf.indices, partIndex_eq current, count, range_succ]
  · simp [wf.total, bytes, Session.append]
  · simpa [or_imp, forall_and] using wf.sizes
  · simpa [or_imp, forall_and, place] using wf.keys
  · intro d computed
    simp only [Session.append, Snapshot.computedDigest] at computed
    split_ifs at computed with first
    cases computed
    have empty : s.parts = [] := by
      rw [partIndex_eq current] at first
      exact length_eq_zero_iff.1 (by omega)
    rw [empty]
    exact ⟨_, rfl, rfl⟩
  · simpa [or_imp, forall_and, agrees] using wf.objects

theorem wellFormed_newSession (sha256 : Bytes → Sha256Digest) (acknowledged : Bool)
    (agrees : Agrees st (.temp id) body) :
    WellFormed sha256 st id (newSession st id body (firstDigest sha256 body) acknowledged) := by
  by_cases filled : 0 < body.length
  · constructor <;> simp only [newSession, firstDigest, if_pos filled]
    · rfl
    · simp
    · simp
    · simp [Key.place]
    · rintro d ⟨⟩
      exact ⟨_, rfl, rfl⟩
    · simp
    · simpa using agrees
  · have empty : body.length = 0 := by omega
    constructor <;> simp [newSession, firstDigest, empty]

/-! ### Every run -/

theorem WellFormed.congr {st' : Store} (wf : WellFormed sha256 st id s)
    (parts : s'.parts = s.parts) (bytes : s'.bytesReceived = s.bytesReceived)
    (digest : s'.computedDigest = s.computedDigest)
    (lease : s'.state = .open → s'.stateToken = none)
    (objects : ∀ p ∈ s.parts, Agrees st' p.storageKey p.body) : WellFormed sha256 st' id s' where
  indices := by rw [parts]; exact wf.indices
  total := by rw [parts, bytes]; exact wf.total
  sizes := by rw [parts]; exact wf.sizes
  keys := by rw [parts]; exact wf.keys
  digest := by rw [parts, digest]; exact wf.digest
  lease := lease
  objects := by rw [parts]; exact objects

theorem tables_apply (ledger : Ledger st) (traced : Traced st q) (tables : Tables sha256 st)
    (faithful : Faithful st q) (warranted : Warranted sha256 st q a w) :
    Tables sha256 (w.apply st) := by
  intro id _ found
  rcases apply_session found with ⟨s, old, kept | appended⟩ | created
  · have wf := tables id s old
    refine wf.congr kept.parts kept.bytes kept.digest (fun isOpen => ?_) fun p mem => ?_
    · rcases kept.lease with ⟨state, token⟩ | ⟨_, _, token⟩ | ⟨lease, _, state, _⟩
      · rw [token]
        exact wf.lease (state.symm.trans isOpen)
      · exact token
      · rw [state] at isOpen
        cases isOpen
    · exact agrees_apply warranted (ledger.drawn _ (ledger.parts id s old p mem)) (wf.objects p mem)
  · obtain ⟨snap, _, _, _, acknowledged, rfl, rfl, rfl⟩ := appended
    obtain ⟨rfl, rfl, _, _, same, appendable⟩ := warranted
    cases old.symm.trans same
    have wf := wellFormed_append acknowledged old (tables _ s old)
      (faithful.snapshot snap rfl) appendable (traced.upload _ rfl) (faithful.upload _ rfl)
    exact wf.congr rfl rfl rfl wf.lease wf.objects
  · obtain ⟨_, _, acknowledged, rfl, rfl⟩ := created
    obtain ⟨rfl, rfl, _⟩ := warranted
    have wf := wellFormed_newSession sha256 acknowledged (faithful.upload _ rfl)
    exact wf.congr rfl rfl rfl wf.lease wf.objects

theorem faithful_own : (service sha256).Own
    (fun w e => (service sha256).Holds Ledger Traced w ∧ ok w e) (Tables sha256) Faithful := by
  intro v e o holds ⟨known, _⟩ coded
  have sound := code_sound coded
  have traced := known.procs e.1
  have faithful := holds.procs e.1
  refine ⟨tables_apply known.store traced holds.store faithful sound.warranted,
    fun u upload => ?_, fun snap snapshot => ?_⟩
  · rcases sound.upload u upload with old | ⟨_, effect, _⟩
    · exact agrees_apply sound.warranted (traced.held _ (held_of_upload old))
        (faithful.upload u old)
    · rw [effect]
      exact agrees_put u.key u.body
  · rcases sound.snapshot snap snapshot with old | ⟨effect, s, found, bytes, count⟩
    · exact current_apply traced sound.warranted (traced.snapshot snap old)
        (faithful.snapshot snap old)
    · rw [effect]
      have wf := holds.store _ s found
      refine ⟨fun none => ?_, fun s' same => ?_⟩
      · rw [bytes, ← wf.total, length_eq_zero_iff.1 (count.symm.trans none)]
        rfl
      · cases found.symm.trans same
        exact Nat.le_of_eq count

theorem faithful_others : (service sha256).Others
    (fun w e => (service sha256).Holds Ledger Traced w ∧ ok w e) (Tables sha256) Faithful := by
  intro v e o j holds ⟨known, _⟩ coded _ _
  have sound := code_sound coded
  have traced := known.procs j
  have faithful := holds.procs j
  refine ⟨fun u upload => ?_, fun snap snapshot => ?_⟩
  · exact agrees_apply sound.warranted (traced.held _ (held_of_upload upload))
      (faithful.upload u upload)
  · exact current_apply (known.procs e.1) sound.warranted (traced.snapshot snap snapshot)
      (faithful.snapshot snap snapshot)

theorem faithful {w} (h : Reach (service sha256).step Quiescent ok w) :
    (service sha256).Holds (Tables sha256) Faithful w := by
  refine invariant faithful_own faithful_others (fun w start => ?_) (h.strengthen fun _ => traced)
  refine .of_idle start.quiet rfl (fun id s found => ?_) ⟨nofun, nofun⟩
  rw [start.sessions] at found
  cases found

structure Known (sha256 : Bytes → Sha256Digest) (w : World Store Request Lock) : Prop where
  below : Below Store.next tickets w
  apart : Pairs (Disjoint tickets) w
  keys : (service sha256).Holds Ledger Traced w
  clear : Pairs Clear w
  parts : (service sha256).Holds (Tables sha256) Faithful w

theorem known {w} (h : Reach (service sha256).step Quiescent ok w) : Known sha256 w :=
  ⟨below h, apart h, traced h, clear h, faithful h⟩

/-! ### Leases -/

theorem leased_of_apply (tables : Tables sha256 st) (warranted : Warranted sha256 st q a w)
    {lease : Lease} (drawn : lease.token < st.next) (found : (w.apply st).sessions id = some s')
    (leased : s'.stateToken = some lease) :
    ∃ s, st.sessions id = some s ∧ s.stateToken = some lease ∧ Kept w id s s' := by
  rcases apply_session found with ⟨s, old, kept | appended⟩ | created
  · rcases kept.lease with ⟨_, token⟩ | ⟨_, _, token⟩ | ⟨_, effect, _, token⟩
    · exact ⟨s, old, token.symm.trans leased, kept⟩
    · cases token.symm.trans leased
    · cases token.symm.trans leased
      rw [effect] at warranted
      exact absurd warranted.1 (Nat.ne_of_lt drawn)
  · obtain ⟨_, _, _, _, _, rfl, rfl, rfl⟩ := appended
    obtain ⟨_, _, _, _, same, appendable⟩ := warranted
    cases old.symm.trans same
    simp only [Session.isAppendable, and_eq_true, decide_eq_true_eq] at appendable
    cases ((tables _ s old).lease appendable.1.1).symm.trans leased
  · obtain ⟨_, _, _, _, rfl⟩ := created
    cases leased

theorem gone_apply (traced : Traced st q) (warranted : Warranted sha256 st q a w)
    (recorded : .temp id ∈ st.recorded) (gone : st.sessions id = none) :
    (w.apply st).sessions id = none := by
  cases found : (w.apply st).sessions id with
  | none => rfl
  | some _ =>
    rcases apply_session found with ⟨s, old, _⟩ | created
    · cases gone.symm.trans old
    · exact absurd recorded (created_unrecorded traced warranted created)

theorem ticket_of_target {t : ℕ × Lease} (target : q.target = some t) : t.2.token ∈ q.tickets := by
  simp [tickets, target]

/-! ### The concatenation of the parts -/

theorem partRecords_eq (wf : WellFormed sha256 st id s) : s.partRecords = s.parts.map record := by
  unfold Session.partRecords
  rw [Pairwise.insertionSort_eq]
  refine pairwise_map.1 ?_
  rw [wf.indices]
  exact pairwise_le_range

variable {objects : Key → Option Bytes} {parts : List PartRow}

theorem flatten_of_storageConcat {content : Bytes}
    (sizes : ∀ p ∈ parts, p.sizeBytes = p.body.length)
    (agrees : ∀ p ∈ parts, ∀ x, objects p.storageKey = some x → x = p.body)
    (h : storageConcat objects (parts.map record) = some content) :
    content = (parts.map PartRow.body).flatten := by
  induction parts generalizing content with
  | nil => cases h; rfl
  | cons p parts ih =>
    have rest {tail : Bytes} (read : storageConcat objects (parts.map record) = some tail) :
        tail = (parts.map body).flatten :=
      ih (fun p mem => sizes p (.tail _ mem)) (fun p mem => agrees p (.tail _ mem)) read
    have size := sizes p (.head _)
    simp only [map_cons, storageConcat] at h
    split_ifs at h with empty
    · have nothing : p.body = [] := length_eq_zero_iff.1 (size.symm.trans empty)
      rw [rest h, map_cons, flatten_cons, nothing, nil_append]
    · split at h
      · next body found =>
        split_ifs at h
        obtain ⟨_, read, rfl⟩ := map_eq_some_iff.1 h
        rw [rest read, agrees p (.head _) body found]
        rfl
      · cases h

theorem storageConcat_of_stored (sizes : ∀ p ∈ parts, p.sizeBytes = p.body.length)
    (stored : ∀ p ∈ parts, objects p.storageKey = some p.body) :
    storageConcat objects (parts.map PartRow.record) = some (parts.map PartRow.body).flatten := by
  induction parts with
  | nil => rfl
  | cons p _ ih =>
    have rest := ih (fun p mem => sizes p (.tail _ mem)) fun p mem => stored p (.tail _ mem)
    have size := sizes p (.head _)
    simp only [map_cons, storageConcat, record, stored p (.head _), size] at rest ⊢
    split_ifs with empty
    · rw [length_eq_zero_iff.1 empty]
      exact rest
    · exact (congrArg _ rest).trans rfl

end ArtifactKeeper.OciUpload
