import ArtifactKeeper.DeviceSessions.Requests

/-!
# Approval and redemption

Every row goes back to one created session.  It is approved or consumed exactly if one approve call
for it has succeeded, whose user and scopes it carries, and each session is redeemed at most once.
-/

namespace ArtifactKeeper.DeviceSessions

open StepSystem Rows List Bool Protocol

variable (digest : Text → Text) (st : Store)

/-! ### Sessions -/

def Created.describes (c : Created) (s : DeviceSession) : Prop :=
  c.id = s.id ∧ digest c.deviceCode = s.deviceCodeHash ∧ c.clientId = s.clientId ∧
    c.expiresAt = s.expiresAt

/-- The decision that a row carries. -/
def Decided (approvals : List Approval) (s : DeviceSession) : Prop :=
  match s.status with
  | .pending | .denied => ∀ a ∈ approvals, a.id ≠ s.id
  | .approved | .consumed => ∃ a ∈ approvals, a.id = s.id ∧
      s.decidedByUserId = some a.userId ∧ s.grantedScopes = some a.scopes

structure Genuine (r : Redemption) : Prop where
  session : ∃ c ∈ st.created, c.id = r.session.id ∧ digest c.deviceCode = digest r.deviceCode ∧
    c.clientId = r.clientId ∧ r.consumed < c.expiresAt
  approval : ∃ a ∈ st.approvals, a.id = r.session.id ∧
    r.session.decidedByUserId = some a.userId ∧ r.session.grantedScopes = some a.scopes
  final : ∀ s ∈ st.rows, s.id = r.session.id → s.status = .consumed

structure Inv : Prop where
  ids : (st.rows.map DeviceSession.id).Nodup
  createdIds : (st.created.map Created.id).Nodup
  drawn : ∀ c ∈ st.created, c.id < st.nextId
  described : ∀ s ∈ st.rows, ∃ c ∈ st.created, c.describes digest s
  approvedOnce : (st.approvals.map Approval.id).Nodup
  approved : ∀ a ∈ st.approvals, a.id < st.nextId
  decided : ∀ s ∈ st.rows, Decided st.approvals s
  intervals : ∀ s ∈ st.rows, s.intervalSecs ≤ maxIntervalSecs
  redeemedOnce : (st.redemptions.map fun r => r.session.id).Nodup
  genuine : ∀ r ∈ st.redemptions, Genuine digest st r

variable {digest st} {new old s : DeviceSession} {q : Request} {effect : Effect}

theorem Inv.below (h : Inv digest st) (mem : s ∈ st.rows) : s.id < st.nextId := by
  obtain ⟨c, created, id, -⟩ := h.described s mem
  exact id ▸ h.drawn c created

theorem Inv.eq_of_id (h : Inv digest st) {s' : DeviceSession} (mem : s ∈ st.rows)
    (mem' : s' ∈ st.rows) (same : s.id = s'.id) : s = s' :=
  inj_on_of_nodup_map h.ids mem mem' same

variable {now : ℤ}

theorem Evolves.describes (h : Evolves now old new) (c : Created) :
    c.describes digest new ↔ c.describes digest old := by
  simp only [Created.describes, h.id, h.deviceCodeHash, h.clientId, h.expiresAt]

theorem Evolves.decided (h : Evolves now old new) {approvals : List Approval}
    (before : Decided approvals old) (kept : old.status = .pending → new.status ≠ .approved) :
    Decided approvals new := by
  have step := h.status
  have fields := h.decision
  unfold Decided at before ⊢
  rw [h.id]
  generalize old.status = was at step before fields kept
  generalize new.status = is at step kept ⊢
  cases step with
  | refl =>
    cases was with
    | pending | denied => exact before
    | approved | consumed => simpa only [fields nofun] using before
  | approve => exact absurd rfl (kept rfl)
  | deny => exact before
  | consume => simpa only [fields nofun] using before

theorem Evolves.final (h : Evolves now old new)
    (final : old.status = .denied ∨ old.status = .consumed) : new.status = old.status := by
  have step := h.status
  generalize old.status = was at step final
  generalize new.status = is at step
  cases step <;> simp_all

section

variable (h : Inv digest st)
include h

section

variable {st' : Store}
  (logs : st'.created = st.created ∧ st'.redemptions = st.redemptions ∧ st'.nextId = st.nextId)
  (ids : (st'.rows.map DeviceSession.id).Sublist (st.rows.map DeviceSession.id))
include logs ids

theorem Inv.evolve (rows : ∀ new ∈ st'.rows, ∃ old ∈ st.rows, Evolves st.now old new)
    (more : ∀ a ∈ st.approvals, a ∈ st'.approvals)
    (approvedOnce : (st'.approvals.map Approval.id).Nodup)
    (approved : ∀ a ∈ st'.approvals, a.id < st.nextId)
    (decided : ∀ new ∈ st'.rows, Decided st'.approvals new) : Inv digest st' := by
  obtain ⟨created, redemptions, nextId⟩ := logs
  refine
    { ids := h.ids.sublist ids
      createdIds := created ▸ h.createdIds
      drawn := by rw [created, nextId]; exact h.drawn
      described := fun new mem => ?_
      approvedOnce := approvedOnce
      approved := nextId ▸ approved
      decided := decided
      intervals := fun new mem => ?_
      redeemedOnce := redemptions ▸ h.redeemedOnce
      genuine := fun r known => ?_ }
  · obtain ⟨old, inside, evolves⟩ := rows new mem
    obtain ⟨c, known, describes⟩ := h.described old inside
    exact ⟨c, created ▸ known, (evolves.describes c).2 describes⟩
  · obtain ⟨old, inside, evolves⟩ := rows new mem
    exact (evolves.interval (h.intervals old inside)).2
  · obtain ⟨session, ⟨a, given, fields⟩, final⟩ := h.genuine r (redemptions ▸ known)
    refine ⟨created ▸ session, ⟨a, more a given, fields⟩, fun new mem same => ?_⟩
    obtain ⟨old, inside, evolves⟩ := rows new mem
    have consumed := final old inside (evolves.id ▸ same)
    rw [evolves.final (.inr consumed), consumed]

/-! ### Each kind of statement -/

theorem Inv.unapproving (approvals : st'.approvals = st.approvals)
    (rows : ∀ new ∈ st'.rows, ∃ old ∈ st.rows, Evolves st.now old new ∧
      (old.status = .pending → new.status ≠ .approved)) : Inv digest st' := by
  refine h.evolve logs ids (fun new mem => ?_) (fun a mem => approvals ▸ mem)
    (approvals ▸ h.approvedOnce) (approvals ▸ h.approved) fun new mem => ?_
  · obtain ⟨old, inside, evolves, -⟩ := rows new mem
    exact ⟨old, inside, evolves⟩
  · obtain ⟨old, inside, evolves, kept⟩ := rows new mem
    exact approvals ▸ evolves.decided (h.decided old inside) kept

end

theorem Inv.update {p : DeviceSession → Bool} {f : DeviceSession → DeviceSession}
    {polls : List Polled} (evolves : ∀ s, p s = true → Evolves st.now s (f s))
    (kept : ∀ s, s.status = .pending → (f s).status ≠ .approved) :
    Inv digest { st with rows := updateWhere p f st.rows, polls } := by
  refine h.unapproving ⟨rfl, rfl, rfl⟩ ?_ rfl fun new mem => ?_
  · rw [map_updateWhere fun s holds => (evolves s holds).id]
  · rcases mem_updateWhere mem with ⟨old, -⟩ | ⟨old, inside, holds, rfl⟩
    · exact ⟨new, old, .refl _ _, fun pending => by rw [pending]; nofun⟩
    · exact ⟨old, inside, evolves old holds, kept old⟩

theorem Inv.insert {deviceCode : Text} (id : s.id = st.nextId)
    (hash : s.deviceCodeHash = digest deviceCode) (status : s.status = .pending)
    (interval : s.intervalSecs ≤ maxIntervalSecs) :
    Inv digest ((Effect.insert s deviceCode).apply st) := by
  have new (i : ℕ) (old : i < st.nextId) : i ≠ s.id := by omega
  refine
    { ids := nodup_cons.2 ⟨fun found => ?_, h.ids⟩
      createdIds := nodup_cons.2 ⟨fun found => ?_, h.createdIds⟩
      drawn := ?_
      described := ?_
      approvedOnce := h.approvedOnce
      approved := fun a mem => (h.approved a mem).trans (Nat.lt_succ_self _)
      decided := ?_
      intervals := ?_
      redeemedOnce := h.redeemedOnce
      genuine := fun r known => ?_ }
  · obtain ⟨_, mem, same⟩ := mem_map.1 found
    exact new _ (h.below mem) same
  · obtain ⟨c, mem, same⟩ := mem_map.1 found
    exact new _ (h.drawn c mem) same
  · rintro c (_ | ⟨_, old⟩)
    · exact id ▸ Nat.lt_succ_self _
    · exact (h.drawn c old).trans (Nat.lt_succ_self _)
  · rintro other (_ | ⟨_, old⟩)
    · exact ⟨_, .head _, rfl, hash.symm, rfl, rfl⟩
    · obtain ⟨c, known, describes⟩ := h.described other old
      exact ⟨c, .tail _ known, describes⟩
  · rintro other (_ | ⟨_, old⟩)
    · simp only [Decided, status]
      exact fun a mem => new _ (h.approved a mem)
    · exact h.decided other old
  · rintro other (_ | ⟨_, old⟩)
    · exact interval
    · exact h.intervals other old
  · obtain ⟨⟨c, known, fields⟩, approval, final⟩ := h.genuine r known
    refine ⟨⟨c, .tail _ known, fields⟩, approval, ?_⟩
    rintro other (_ | ⟨_, old⟩) same
    · exact absurd (fields.1.trans same.symm) (new _ (h.drawn c known))
    · exact final other old same

theorem Inv.approve {a : Approval} (mem : s ∈ st.rows) (id : s.id = a.id)
    (isOpen : s.isOpen st.now = true) (iat : ℤ) :
    Inv digest ((Effect.approve a iat).apply st) := by
  have unapproved : ∀ a' ∈ st.approvals, a'.id ≠ s.id := by
    have pending := h.decided s mem
    rwa [Decided, status_of_isOpen isOpen] at pending
  have evolves : ∀ s, (decide (s.id = a.id) && s.isOpen st.now) = true →
      Evolves st.now s (s.approve a.userId a.scopes iat st.now) := by
    intro s holds
    simp only [and_eq_true] at holds
    exact evolves_approve holds.2 _ _ _
  refine h.evolve ⟨rfl, rfl, rfl⟩ ?_ (fun new => mem_of_updateWhere evolves) (fun a' => .tail _)
    (nodup_cons.2 ⟨?_, h.approvedOnce⟩) ?_ fun new inside => ?_
  · change ((updateWhere _ _ st.rows).map DeviceSession.id).Sublist _
    rw [map_updateWhere fun s holds => (evolves s holds).id]
  · intro found
    obtain ⟨a', given, same⟩ := mem_map.1 found
    exact unapproved a' given (same.trans id.symm)
  · rintro a' (_ | ⟨_, old⟩)
    · exact id ▸ h.below mem
    · exact h.approved a' old
  · rcases mem_updateWhere inside with ⟨old, other⟩ | ⟨old, _, holds, rfl⟩
    · -- The row is not the approved one, which is the only one with its identifier.
      have apart : a.id ≠ new.id := by
        intro same
        rw [h.eq_of_id old mem (same.symm.trans id.symm)] at other
        simp [id, isOpen] at other
      have decision := h.decided new old
      unfold Decided at decision ⊢
      cases is : new.status with
      | pending | denied =>
        rw [is] at decision
        exact forall_mem_cons.2 ⟨apart, decision⟩
      | approved | consumed =>
        rw [is] at decision
        obtain ⟨a', given, fields⟩ := decision
        exact ⟨a', .tail _ given, fields⟩
    · simp only [and_eq_true, decide_eq_true_eq] at holds
      exact ⟨a, .head _, holds.1.symm, rfl, rfl⟩

theorem Inv.redeem {p : Poll} (mem : s ∈ st.rows)
    (holds : s.redeemable (digest p.deviceCode) p.clientId st.now = true) (c : Polled) :
    Inv digest ((Effect.consume (digest p.deviceCode) p.clientId
      ⟨p.deviceCode, p.clientId, c, s.consume st.now, st.now⟩).apply st) := by
  obtain ⟨hash, client, approved, unexpired⟩ := redeemable_iff.1 holds
  have updated : Inv digest { st with
      rows := updateWhere (·.redeemable (digest p.deviceCode) p.clientId st.now) (·.consume st.now)
        st.rows } :=
    h.update (fun s holds => evolves_consume holds) fun _ _ => nofun
  refine
    { ids := updated.ids
      createdIds := updated.createdIds
      drawn := updated.drawn
      described := updated.described
      approvedOnce := updated.approvedOnce
      approved := updated.approved
      decided := updated.decided
      intervals := updated.intervals
      redeemedOnce := nodup_cons.2 ⟨fun found => ?_, h.redeemedOnce⟩
      genuine := ?_ }
  · obtain ⟨r, known, same⟩ := mem_map.1 found
    have consumed := (h.genuine r known).final s mem same.symm
    rw [approved] at consumed
    cases consumed
  · rintro r (_ | ⟨_, old⟩)
    · obtain ⟨c, known, id, digests, clients, expiry⟩ := h.described s mem
      have decision := h.decided s mem
      rw [Decided, approved] at decision
      refine ⟨⟨c, known, id, digests.trans hash, clients.trans client, expiry ▸ unexpired⟩,
        decision, fun new inside same => ?_⟩
      rcases mem_updateWhere inside with ⟨kept, other⟩ | ⟨_, -, -, rfl⟩
      · rw [h.eq_of_id kept mem same, holds] at other
        cases other
      · rfl
    · exact ⟨(updated.genuine r old).session, (updated.genuine r old).approval,
        (updated.genuine r old).final⟩

end

variable {q' : Request}

theorem Does.inv (does : Does digest st q effect q') (h : Inv digest st) :
    Inv digest (effect.apply st) := by
  cases does with
  | tick => exact ⟨h.1, h.2, h.3, h.4, h.5, h.6, h.7, h.8, h.9,
      fun r known => ⟨(h.genuine r known).1, (h.genuine r known).2, (h.genuine r known).3⟩⟩
  | pass | count | retry => exact h
  | insert id hash _ status interval => exact h.insert id hash status interval
  | approve mem id isOpen iat => exact h.approve mem id isOpen iat
  | deny =>
    refine h.update (fun s holds => ?_) fun _ _ => nofun
    simp only [and_eq_true] at holds
    exact evolves_deny holds.2 _
  | pending | claim =>
    exact h.update (fun s _ => evolves_claim _ s) fun s pending => by
      simp [DeviceSession.claim, pending]
  | redeem c mem holds => exact h.redeem mem holds c
  | slowDown =>
    exact h.update (fun s _ => evolves_slowDown _ s) fun s pending => by
      simp [DeviceSession.slowDown, pending]
  | cleanup =>
    refine h.unapproving ⟨rfl, rfl, rfl⟩ (filter_sublist.map _) rfl fun s mem => ?_
    exact ⟨s, mem_of_mem_filter mem, .refl _ _, fun pending => by rw [pending]; nofun⟩

/-- An empty table at any time. -/
def boot (now : ℤ) : World Store Request Unit := ⟨⟨[], now, 0, [], [], [], []⟩, .idle .idle⟩

def Initial (w : World Store Request Unit) : Prop := ∃ now, w = boot now

variable {w w' : World Store Request Unit}

theorem inv (reached : Reach (service digest).step Initial Any w) : Inv digest w.store := by
  induction reached with
  | start initial =>
    obtain ⟨_, rfl⟩ := initial
    constructor <;> simp [boot]
  | next _ _ taken ih =>
    obtain ⟨o, coded, -, -, rfl⟩ := step_eq_some taken
    exact (code_does coded).inv ih

/-! ### What a session never loses -/

/-- A later row of the session keeps a final status and has an interval that is no shorter. -/
structure Settled (s : DeviceSession) (st : Store) : Prop where
  drawn : s.id < st.nextId
  rows : ∀ s' ∈ st.rows, s'.id = s.id →
    (s.status = .denied ∨ s.status = .consumed → s'.status = s.status) ∧
      s.intervalSecs ≤ s'.intervalSecs

theorem Does.settled (does : Does digest st q effect q') (h : Inv digest st)
    (settled : Settled s st) : Settled s (effect.apply st) := by
  refine ⟨?_, fun new mem same => ?_⟩
  · cases does with
    | insert => exact settled.drawn.trans (Nat.lt_succ_self _)
    | _ => exact settled.drawn
  · rcases mem_rows_apply mem with ⟨old, inside, evolves⟩ | ⟨_, rfl⟩
    · obtain ⟨final, interval⟩ := settled.rows old inside (evolves.id ▸ same)
      refine ⟨fun ended => ?_, interval.trans (evolves.interval (h.intervals old inside)).1⟩
      have kept := final ended
      rw [evolves.final (kept ▸ ended), kept]
    · cases does with
      | insert id => exact absurd (same.symm.trans id) (Nat.ne_of_lt settled.drawn)

theorem settled (reached : Reach (service digest).step Initial Any w)
    (mem : s ∈ w.store.rows) (later : Reach (service digest).step (· = w) Any w') :
    Settled s w'.store := by
  induction later with
  | start initial =>
    subst initial
    refine ⟨(inv reached).below mem, fun s' mem' same => ?_⟩
    rw [(inv reached).eq_of_id mem' mem same]
    exact ⟨fun _ => rfl, le_rfl⟩
  | next before _ taken ih =>
    obtain ⟨o, coded, -, -, rfl⟩ := step_eq_some taken
    exact (code_does coded).settled (inv (reached.trans before)) ih

/-! ### The limit -/

theorem liveCount_anti {later : ℤ} (le : now ≤ later) (rows : List DeviceSession) :
    liveCount later rows ≤ liveCount now rows := by
  refine countP_mono_left fun expiresAt _ live => ?_
  simp only [decide_eq_true_eq] at live ⊢
  exact lt_of_le_of_lt le live

theorem liveCount_apply (now : ℤ) (other : effect.inserts = false) :
    liveCount now (effect.apply st).rows ≤ liveCount now st.rows :=
  (sublist_column (fun _ _ _ h => h.expiresAt) other).countP_le

def WithinCap (st : Store) : Prop := liveCount st.now st.rows ≤ maxLiveSessions

/-- A creator that has counted still sees room at the time of its count. -/
def Counted (st : Store) : Request → Prop
  | .counted _ _ at_ _ => at_ ≤ st.now ∧ liveCount at_ st.rows < maxLiveSessions
  | _ => True

theorem counted_of_isPlain (plain : q.isPlain = true) : Counted st q := by
  cases q with
  | counted => cases plain
  | _ => trivial

theorem now_le_apply (effect : Effect) (st : Store) : st.now ≤ (effect.apply st).now := by
  cases effect with
  | tick => simp [Effect.apply]
  | _ => exact le_rfl

theorem withinCap_apply (h : WithinCap st) (other : effect.inserts = false) :
    WithinCap (effect.apply st) :=
  (liveCount_anti (now_le_apply effect st) _).trans ((liveCount_apply st.now other).trans h)

theorem withinCap_insert {deviceCode : Text} {at_ : ℤ} (past : at_ ≤ st.now)
    (room : liveCount at_ st.rows < maxLiveSessions) :
    WithinCap ((Effect.insert s deviceCode).apply st) := by
  have live := liveCount_anti past st.rows
  have one : liveCount st.now (s :: st.rows) ≤ liveCount st.now st.rows + 1 := by
    simp only [liveCount, map_cons, countP_cons]
    split_ifs <;> omega
  exact one.trans (by omega)

theorem Does.withinCap (does : Does digest st q effect q') (h : WithinCap st)
    (mine : Counted st q) : WithinCap (effect.apply st) ∧ Counted (effect.apply st) q' := by
  cases does with
  | tick _ elapsed =>
    refine ⟨withinCap_apply h rfl, ?_⟩
    cases q with
    | counted => exact ⟨mine.1.trans (now_le_apply (.tick elapsed) st), mine.2⟩
    | _ => trivial
  | pass plain => exact ⟨h, counted_of_isPlain plain⟩
  | count past below => exact ⟨h, past, below⟩
  | retry => exact ⟨h, mine⟩
  | insert => exact ⟨withinCap_insert mine.1 mine.2, trivial⟩
  | approve | deny | pending | claim | redeem | slowDown | cleanup =>
    exact ⟨withinCap_apply h rfl, True.intro⟩

theorem Does.holds_of_inserts (does : Does digest st q effect q')
    (inserts : effect.inserts = true) : () ∈ q.holds := by
  cases does with
  | insert => exact .head _
  | _ => cases inserts

theorem capacity (reached : Reach (service digest).step Initial Any w) : WithinCap w.store := by
  have own : (service digest).Own Any WithinCap Counted :=
    fun w e o h _ coded => (code_does coded).withinCap h.store (h.procs e.1)
  have others : (service digest).Others Any WithinCap Counted := by
    intro w e o j h _ coded _ unlocked
    have theirs := h.procs j
    cases at_j : w.pool.proc j with
    | counted n _ at_ =>
      rw [at_j] at theirs unlocked
      have other : o.effect.inserts = false := by
        by_contra inserts
        have owner := (code_does coded).holds_of_inserts (by simpa using inserts)
        exact (unlocked () (.head _)).2.2 owner
      exact ⟨theirs.1.trans (now_le_apply _ _), lt_of_le_of_lt (liveCount_apply at_ other) theirs.2⟩
    | _ => exact True.intro
  have base : ∀ w, Initial w → (service digest).Holds WithinCap Counted w := by
    rintro _ ⟨_, rfl⟩
    exact ⟨Nat.zero_le _, fun _ => True.intro, Pool.coherent_idle _ rfl⟩
  exact (invariant own others base reached).store

/-! ### Poll times -/

/-- The row was polled at the time or later. -/
def PolledSince (at_ : ℤ) (s : DeviceSession) : Prop := ∃ t, s.lastPolledAt = some t ∧ at_ ≤ t

theorem Evolves.polledSince {at_ : ℤ} (h : Evolves now old new)
    (past : ∀ t, old.lastPolledAt = some t → t ≤ now) (polled : PolledSince at_ old) :
    PolledSince at_ new := by
  obtain ⟨t, found, le⟩ := polled
  rcases h.polled with same | set
  · exact ⟨t, same.trans found, le⟩
  · exact ⟨now, set, le.trans (past t found)⟩

variable {hash clientId : Text}

theorem PolledSince.spaced {at_ : ℤ} (h : PolledSince at_ s)
    (holds : s.claimable hash clientId now = true) : at_ + secs (s.intervalSecs - 1) ≤ now := by
  obtain ⟨t, found, _⟩ := h
  have window := (claimable_iff.1 holds).2.2.2.2 t found
  omega

/-! ### Claims -/

variable (digest st)

/-- The claim was made on a session of the code. -/
def Polled.IsKnown (p : Polled) : Prop :=
  ∃ c ∈ st.created, c.id = p.id ∧ digest c.deviceCode = digest p.deviceCode

structure Spaced : Prop where
  past : ∀ s ∈ st.rows, ∀ t, s.lastPolledAt = some t → t ≤ st.now
  known : ∀ p ∈ st.polls, p.IsKnown digest st
  seen : ∀ p ∈ st.polls, ∀ s ∈ st.rows, s.id = p.id → PolledSince p.claimed s
  apart : st.polls.Pairwise fun later earlier => later.id = earlier.id →
    earlier.claimed + secs (later.interval - 1) ≤ later.claimed
  redeemed : ∀ r ∈ st.redemptions, r.claim ∈ st.polls ∧ r.claim.deviceCode = r.deviceCode

/-- A poll that goes on to redeem has claimed its window. -/
def Claimed : Request → Prop
  | .claimed p c => c ∈ st.polls ∧ c.deviceCode = p.deviceCode
  | _ => True

variable {digest st}

section

variable (does : Does digest st q effect q')
include does

theorem Does.mem_rows {id : ℕ} (drawn : id < st.nextId) (mem : new ∈ (effect.apply st).rows)
    (same : new.id = id) : ∃ old ∈ st.rows, old.id = id ∧ Evolves st.now old new := by
  rcases mem_rows_apply mem with ⟨old, inside, evolves⟩ | ⟨_, rfl⟩
  · exact ⟨old, inside, evolves.id ▸ same, evolves⟩
  · cases does with
    | insert fresh => exact absurd (same.symm.trans fresh) (Nat.ne_of_lt drawn)

theorem Does.past (h : Spaced digest st) :
    ∀ s ∈ (effect.apply st).rows, ∀ t, s.lastPolledAt = some t → t ≤ (effect.apply st).now := by
  intro _ mem t found
  refine le_trans ?_ (now_le_apply effect st)
  rcases mem_rows_apply mem with ⟨old, inside, evolves⟩ | ⟨_, rfl⟩
  · rcases evolves.polled with same | set
    · exact h.past old inside t (same ▸ found)
    · rw [set, Option.some.injEq] at found
      exact found.ge
  · cases does with
    | insert _ _ _ _ _ unpolled =>
      rw [unpolled] at found
      cases found

/-- No statement sets a poll time back. -/
theorem Does.seen (inv : Inv digest st) (h : Spaced digest st) {p : Polled} (mem : p ∈ st.polls) :
    ∀ s ∈ (effect.apply st).rows, s.id = p.id → PolledSince p.claimed s := by
  intro _ inside same
  obtain ⟨c, created, id, -⟩ := h.known p mem
  obtain ⟨old, before, at_id, evolves⟩ := does.mem_rows (id ▸ inv.drawn c created) inside same
  exact evolves.polledSince (h.past old before) (h.seen p mem old before at_id)

end

theorem Inv.polledSince_of_claim (h : Inv digest st) (mem : s ∈ st.rows)
    (holds : s.claimable hash clientId st.now = true)
    (inside : new ∈ updateWhere (·.claimable hash clientId st.now) (·.claim st.now) st.rows)
    (same : new.id = s.id) : PolledSince st.now new := by
  rcases mem_updateWhere inside with ⟨kept, other⟩ | ⟨_, -, -, rfl⟩
  · rw [h.eq_of_id kept mem same, holds] at other
    cases other
  · exact ⟨st.now, rfl, le_rfl⟩

/-! ### One step -/

/-- A statement that neither claims nor redeems. -/
theorem Spaced.quiet (does : Does digest st q effect q')
    (inv : Inv digest st) (h : Spaced digest st) (polls : (effect.apply st).polls = st.polls)
    (redemptions : (effect.apply st).redemptions = st.redemptions)
    (created : ∀ c ∈ st.created, c ∈ (effect.apply st).created) :
    Spaced digest (effect.apply st) := by
  refine ⟨does.past h, fun p mem => ?_, fun p mem => ?_, polls ▸ h.apart, ?_⟩
  · obtain ⟨c, known, names⟩ := h.known p (polls ▸ mem)
    exact ⟨c, created c known, names⟩
  · exact does.seen inv h (polls ▸ mem)
  · rw [polls, redemptions]
    exact h.redeemed

theorem Spaced.claim {p : Poll} (mem : s ∈ st.rows)
    (holds : s.claimable (digest p.deviceCode) p.clientId st.now = true)
    (does : Does digest st q (.claim (digest p.deviceCode) p.clientId
      ⟨s.id, p.deviceCode, st.now, s.intervalSecs⟩) q') (inv : Inv digest st)
    (h : Spaced digest st) : Spaced digest ((Effect.claim (digest p.deviceCode) p.clientId
      ⟨s.id, p.deviceCode, st.now, s.intervalSecs⟩).apply st) := by
  refine ⟨does.past h, forall_mem_cons.2 ⟨?_, h.known⟩,
    forall_mem_cons.2 ⟨fun new inside => inv.polledSince_of_claim mem holds inside,
      fun p given => does.seen inv h given⟩,
    pairwise_cons.2 ⟨fun p given same => ?_, h.apart⟩, fun r given => ?_⟩
  · obtain ⟨c, created, id, digests, -⟩ := inv.described s mem
    exact ⟨c, created, id, digests.trans (claimable_iff.1 holds).1⟩
  · exact (h.seen p given s mem same).spaced holds
  · exact ⟨.tail _ (h.redeemed r given).1, (h.redeemed r given).2⟩

section

variable (does : Does digest st q effect q')
include does

theorem Does.spaced (inv : Inv digest st) (h : Spaced digest st) (mine : Claimed st q) :
    Spaced digest (effect.apply st) := by
  have step := does
  cases does with
  | pending mem holds | claim mem holds => exact h.claim mem holds step inv
  | redeem =>
    exact ⟨step.past h, h.known, fun p given => step.seen inv h given, h.apart,
      forall_mem_cons.2 ⟨mine, h.redeemed⟩⟩
  | insert => exact h.quiet step inv rfl rfl fun c => .tail _
  | _ => exact h.quiet step inv rfl rfl fun c => id

/-- The log of claims grows. -/
theorem Does.polls {p : Polled} (mem : p ∈ st.polls) : p ∈ (effect.apply st).polls := by
  cases does with
  | pending | claim => exact .tail _ mem
  | _ => exact mem

theorem Claimed.step {r : Request} (h : Claimed st r) : Claimed (effect.apply st) r := by
  cases r with
  | claimed => exact ⟨does.polls h.1, h.2⟩
  | _ => exact True.intro

theorem Does.claimed (mine : Claimed st q) : Claimed (effect.apply st) q' := by
  have step := does
  cases does with
  | tick => exact mine.step step
  | pass plain =>
    cases q' with
    | claimed => cases plain
    | _ => exact True.intro
  | claim => exact ⟨.head _, rfl⟩
  | _ => exact True.intro

end

/-! ### All runs -/

theorem spaced (reached : Reach (service digest).step Initial Any w) : Spaced digest w.store := by
  have known := reached.strengthen fun _ before => inv before
  have own : (service digest).Own (fun v e => Inv digest v.store ∧ Any v e) (Spaced digest)
      Claimed := fun v e o h allowed coded =>
    ⟨(code_does coded).spaced allowed.1 h.store (h.procs e.1),
      (code_does coded).claimed (h.procs e.1)⟩
  have others : (service digest).Others (fun v e => Inv digest v.store ∧ Any v e) (Spaced digest)
      Claimed := fun v e o j h _ coded _ _ => (h.procs j).step (code_does coded)
  have base : ∀ v, Initial v → (service digest).Holds (Spaced digest) Claimed v := by
    rintro _ ⟨_, rfl⟩
    refine ⟨?_, fun _ => True.intro, Pool.coherent_idle _ rfl⟩
    constructor <;> simp [boot]
  exact (invariant own others base known).store

/-- No device code was drawn twice. -/
def CodesDistinct (st : Store) : Prop := (st.created.map Created.deviceCode).Nodup

theorem CodesDistinct.eq (distinct : CodesDistinct st) (injective : Function.Injective digest)
    {c c' : Created} (mem : c ∈ st.created) (mem' : c' ∈ st.created)
    (same : digest c.deviceCode = digest c'.deviceCode) : c = c' :=
  inj_on_of_nodup_map distinct mem mem' (injective same)

/-- Two claims are an interval, less one second, apart. -/
def Apart (later earlier : Polled) : Prop :=
  earlier.claimed + secs (later.interval - 1) ≤ later.claimed

/-- What the service promises of its sessions. -/
structure Sound (st : Store) : Prop where
  approvedOnce : (st.approvals.map Approval.id).Nodup
  redeemedOnce : (st.redemptions.map fun r => r.session.id).Nodup
  codeRedeemedOnce : CodesDistinct st → (st.redemptions.map Redemption.deviceCode).Nodup
  /-- A redemption comes before the expiry, from the client that created the session, and returns
  the user and the scopes of its approval. -/
  redemption : ∀ r ∈ st.redemptions, ∃ c ∈ st.created, c.id = r.session.id ∧
    c.deviceCode = r.deviceCode ∧ c.clientId = r.clientId ∧ r.consumed < c.expiresAt ∧
    ∃ a ∈ st.approvals, a.id = r.session.id ∧
      r.session.decidedByUserId = some a.userId ∧ r.session.grantedScopes = some a.scopes
  claimed : ∀ r ∈ st.redemptions, r.claim ∈ st.polls ∧ r.claim.deviceCode = r.deviceCode
  spaced : st.polls.Pairwise fun later earlier => later.id = earlier.id → Apart later earlier
  codeSpaced : CodesDistinct st → st.polls.Pairwise fun later earlier =>
    later.deviceCode = earlier.deviceCode → Apart later earlier
  limited : liveCount st.now st.rows ≤ maxLiveSessions

theorem sound (injective : Function.Injective digest)
    (reached : Reach (service digest).step Initial Any w) : Sound w.store := by
  have h := inv reached
  have polls := spaced reached
  refine ⟨h.approvedOnce, h.redeemedOnce, fun distinct => ?_, fun r known => ?_, polls.redeemed,
    polls.apart, fun distinct => ?_, capacity reached⟩
  · refine List.Nodup.map_on (fun r known r' known' same => ?_) (List.Nodup.of_map _ h.redeemedOnce)
    obtain ⟨c, created, id, code, -⟩ := (h.genuine r known).session
    obtain ⟨_, created', id', code', -⟩ := (h.genuine r' known').session
    have one := distinct.eq injective created created' (code.trans (same ▸ code'.symm))
    exact inj_on_of_nodup_map h.redeemedOnce known known' (id.symm.trans (one ▸ id'))
  · obtain ⟨⟨c, created, id, code, client, expiry⟩, approval, -⟩ := h.genuine r known
    exact ⟨c, created, id, injective code, client, expiry, approval⟩
  · refine polls.apart.imp_of_mem fun {later earlier} mem mem' spacing same => ?_
    obtain ⟨c, created, id, code⟩ := polls.known later mem
    obtain ⟨_, created', id', code'⟩ := polls.known earlier mem'
    have one := distinct.eq injective created created' (code.trans (same ▸ code'.symm))
    exact spacing (id.symm.trans (one ▸ id'))

/-- In every reachable state the service keeps its promises, and in every state reached later a
session that was denied or consumed has the same status and no session has a shorter interval. -/
theorem device_authorization_sound (injective : Function.Injective digest)
    (reached : Reach (service digest).step Initial Any w)
    (later : Reach (service digest).step (· = w) Any w') :
    Sound w'.store ∧ ∀ s ∈ w.store.rows, ∀ s' ∈ w'.store.rows, s'.id = s.id →
      (s.status = .denied ∨ s.status = .consumed → s'.status = s.status) ∧
        s.intervalSecs ≤ s'.intervalSecs :=
  ⟨sound injective (reached.trans later), fun _ mem => (settled reached mem later).rows⟩

/-- A device that is answered with pending, approved by user 3 and redeemed four seconds later. -/
def oneDevice : List (ℕ × Action) :=
  let device : NewSession := ⟨"cli", ["read"], 600, 5, by decide⟩
  let poll : Poll := ⟨"device", "cli"⟩
  [(0, .createSession device), (0, .lock), (0, .count 0),
    (0, .insert "device" "BCDFGHJK" 0), (1, .poll poll),
    (2, .approve 0 3 ["read"] 0), (2, .tick 4000000), (3, .poll poll), (3, .consume)]

theorem device_authorization_redeemed :
    ∃ w, Reach (service id).step Initial Any w ∧ w.store.polls.length = 2 ∧
      w.store.redemptions.length = 1 ∧ Sound w.store := by
  obtain ⟨w, reached, polls, redemptions⟩ :=
    Reach.exists_of_free (service id).step Initial (boot 0) ⟨0, rfl⟩ oneDevice
      (fun w => w.store.polls.length = 2 ∧ w.store.redemptions.length = 1) (by decide)
  exact ⟨w, reached, polls, redemptions,
    (device_authorization_sound Function.injective_id reached (.start rfl)).1⟩

end ArtifactKeeper.DeviceSessions
