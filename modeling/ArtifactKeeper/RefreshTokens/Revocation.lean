import ArtifactKeeper.RefreshTokens.Requests

/-!
# Revoked families

Once a revocation of a family has returned, no later call succeeds, if no rotation commits while a
revocation of its family is under way (`Undisturbed`): the snapshot of the revocation does not
contain the successor's row, and in `revoked_family_refreshed` that successor is rotated later.
-/

namespace ArtifactKeeper.RefreshTokens

open Machine StepSystem List
open Request (tickets)

variable (st : Store) (w : World Store Request ℕ) (e : ℕ × Action)

/-- The family has a row. -/
def Used (f : ℕ) : Prop := ∃ jti row, st.rows jti = some row ∧ row.familyId = f

/-- All rows of the family are revoked. -/
def Dead (f : ℕ) : Prop :=
  ∀ jti row, st.rows jti = some row → row.familyId = f → row.revokedAt.isSome

/-- Every token that can be presented has its row, and revoked families are dead. -/
structure Recorded : Prop where
  bounded : ∀ jti row, st.rows jti = some row → jti < st.next ∧ row.familyId < st.next
  owned : ∀ jti row jti' row', st.rows jti = some row → st.rows jti' = some row' →
    row.familyId = row'.familyId → row.userId = row'.userId
  legacy : st.legacy = []
  issued : ∀ i ∈ st.issued, Has st i.token
  revoked : ∀ f ∈ st.revoked, Used st f ∧ Dead st f
  punctual : ∀ i ∈ st.issued, i.late = false

def Tracks : Request → Prop
  | .calling c stage => stage ≠ .missing ∧ Has st c.token ∧ (c.late → c.token.familyId ∈ st.revoked)
  | .rotating c _ rotation => c.late = false ∧
      (∃ row, st.rows c.token.jti = some row ∧ Fits c.token row ∧ row.revokedAt = none) ∧
      ∀ t, rotation.successor = some t → (t.familyId = c.token.familyId ∧
        t.claims.sub = c.token.claims.sub) ∧ st.rows t.jti = none
  | .recording t _ late => late = false ∧ st.rows t.jti = none ∧ t.familyId = t.jti ∧
      ¬Used st t.familyId
  | .replayed f => Used st f
  | .revoking families todo done => (∀ f ∈ families, Used st f) ∧
      ∀ jti row, st.rows jti = some row → row.familyId ∈ families →
        row.revokedAt.isSome ∨ jti ∈ todo ∨ jti ∈ done
  | .legacy _ _ => False
  | .idle | .cleaning _ | .finished => True

/-- The runs without the janitor. -/
def Unpruned (_ : World Store Request ℕ) (e : ℕ × Action) : Prop := ∀ jti, e.2 ≠ .prune jti

/-- A rotation commits only while no revocation of its family is under way. -/
def Undisturbed : Prop :=
  ∀ acknowledged c at_ rotation, e.2 = .commit acknowledged →
    w.pool.proc e.1 = .rotating c at_ rotation → ∀ j families todo done,
      w.pool.proc j = .revoking families todo done → c.token.familyId ∉ families

/-! ### Effects -/

variable {cfg : Config} {st} {q : Request} {a : Action} {o : Statement} {w : Effect}

theorem Used.apply {f : ℕ} (used : Used st f) (unpruned : ∀ jti, w ≠ .prune jti) :
    Used (w.apply st) f := by
  obtain ⟨jti, _, found, rfl⟩ := used
  obtain ⟨row', after, evolves⟩ := apply_row found (unpruned jti)
  exact ⟨jti, row', after, evolves.familyId⟩

variable {t : Token}

theorem Has.used (has : Has st t) : Used st t.familyId := by
  obtain ⟨row, found, fits⟩ := has
  exact ⟨t.jti, row, found, fits.familyId⟩

theorem revoked_apply {f : ℕ} (mem : f ∈ st.revoked) : f ∈ (w.apply st).revoked := by
  cases w with
  | revoke => exact mem_append_right _ mem
  | _ => exact mem

/-- No step disturbs what a request knows, unless it inserts a row that concerns the request or
revokes one that the request has locked. -/
theorem Tracks.apply (tracks : Tracks st q) (unpruned : ∀ jti, w ≠ .prune jti)
    (fresh : ∀ t t', w.inserted = some t → q.minted = some t' → t.jti ≠ t'.jti)
    (elsewhere : ∀ t t' parent late, w.inserted = some t → q = .recording t' parent late →
      t.familyId ≠ t'.familyId)
    (outside : ∀ t families todo done, w.inserted = some t → q = .revoking families todo done →
      t.familyId ∉ families)
    (unlocked : ∀ jtis returned, w = .revoke jtis returned → ∀ jti ∈ q.holds, jti ∉ jtis) :
    Tracks (w.apply st) q := by
  cases q with
  | calling =>
    obtain ⟨present, has, late⟩ := tracks
    exact ⟨present, has.apply (unpruned _), fun l => revoked_apply (late l)⟩
  | rotating =>
    obtain ⟨late, ⟨_, found, fits, unrevoked⟩, successor⟩ := tracks
    obtain ⟨row', after, evolves⟩ := apply_row found (unpruned _)
    refine ⟨late, ⟨row', after, fits.evolve evolves, ?_⟩, fun t minted =>
      ⟨(successor t minted).1, free_apply (successor t minted).2 fun t' inserted =>
        fresh t' t inserted minted⟩⟩
    rcases evolves.revoked with same | ⟨_, jtis, returned, effect, mem⟩
    · exact same.trans unrevoked
    · exact absurd mem (unlocked jtis returned effect _ (.head _))
  | recording t parent late =>
    obtain ⟨punctual, free, own, unused⟩ := tracks
    refine ⟨punctual, free_apply free fun t' inserted => fresh t' t inserted rfl, own,
      fun ⟨jti, row, found, family⟩ => ?_⟩
    rcases row_of_apply found with ⟨row₀, before, evolves⟩ | ⟨t', inserted, _, rfl⟩
    · exact unused ⟨jti, row₀, before, evolves.familyId ▸ family⟩
    · exact elsewhere t' t parent late inserted rfl family
  | replayed => exact Used.apply tracks unpruned
  | revoking families todo done =>
    obtain ⟨used, listed⟩ := tracks
    refine ⟨fun f mem => (used f mem).apply unpruned, fun jti row found mem => ?_⟩
    rcases row_of_apply found with ⟨row₀, before, evolves⟩ | ⟨t', inserted, _, rfl⟩
    · rcases listed jti row₀ before (evolves.familyId ▸ mem) with revoked | left
      · exact .inl (evolves.stays_revoked revoked)
      · exact .inr left
    · exact absurd mem (outside t' families todo done inserted rfl)
  | _ => exact tracks

theorem Tracks.congr {st' : Store} (tracks : Tracks st q) (rows : st'.rows = st.rows)
    (revoked : st'.revoked = st.revoked) : Tracks st' q := by
  have same : Tracks st' q = Tracks st q := by
    cases q <;> simp only [Tracks, Has, Used, rows, revoked]
  rw [same]
  exact tracks

/-! ### Own steps -/

theorem Recorded.next_free (recorded : Recorded st) : st.rows st.next = none := by
  cases found : st.rows st.next with
  | none => rfl
  | some _ => exact absurd (recorded.bounded _ _ found).1 (Nat.lt_irrefl _)

theorem Recorded.next_unused (recorded : Recorded st) : ¬Used st st.next := by
  rintro ⟨_, _, found, family⟩
  exact absurd (family ▸ (recorded.bounded _ _ found).2) (Nat.lt_irrefl _)

theorem Recorded.has (recorded : Recorded st) (known : st.Presentable t.claims) : Has st t := by
  rcases known with old | ⟨i, mem, same⟩
  · rw [recorded.legacy] at old
    cases old
  · have has := recorded.issued i mem
    obtain ⟨jti, family⟩ := Token.same_session same
    obtain ⟨row, found, fits⟩ := has
    exact ⟨row, jti ▸ found, fits.familyId.trans family, same ▸ fits.userId, same ▸ fits.expiresAt⟩

theorem mem_select {p : Row → Bool} {jti : ℕ} :
    jti ∈ st.select p ↔ jti < st.next ∧ ∃ row, st.rows jti = some row ∧ p row = true := by
  simp [Store.select, Option.any_eq_true]

theorem tracks_revoke (recorded : Recorded st) {scope : Scope}
    (known : ∀ id, scope = .family id → Used st id) : Tracks st (revoke st scope).next := by
  have covered (f : ℕ) (mem : f ∈ scope.families st) : Used st f ∧
      ∀ jti row, st.rows jti = some row → row.familyId = f → scope.covers row = true := by
    cases scope with
    | family =>
      obtain rfl := mem_singleton.1 mem
      exact ⟨known f rfl, fun _ _ _ family => by simp [Scope.covers, family]⟩
    | user =>
      obtain ⟨jti, selected, mapped⟩ := mem_filterMap.1 mem
      obtain ⟨row, found, rfl⟩ := Option.map_eq_some_iff.1 mapped
      obtain ⟨-, row', found', covers⟩ := mem_select.1 selected
      cases found.symm.trans found'
      refine ⟨⟨jti, row, found, rfl⟩, fun jti' row' found' family => ?_⟩
      have user := recorded.owned _ _ _ _ found' found family
      simpa [Scope.covers, user] using covers
  refine ⟨fun f mem => (covered f mem).1, fun jti row found mem => ?_⟩
  cases revoked : row.revokedAt with
  | some _ => exact .inl rfl
  | none =>
    refine .inr (.inl (mem_select.2 ⟨(recorded.bounded _ _ found).1, row, found, ?_⟩))
    simp [(covered _ mem).2 jti row found rfl, revoked]

variable {next : Request}

section

variable (does : Does cfg st q a w next)
include does

theorem Does.tracks (recorded : Recorded st) (unpruned : ∀ jti, w ≠ .prune jti)
    (tracks : Tracks st q) : Tracks (w.apply st) next := by
  cases does with
  | stop | commit | record | finishRevoke | clean | prune => trivial
  | tick | tickClock | setActive => exact tracks.congr rfl rfl
  | login =>
    exact ⟨rfl, recorded.next_free, rfl, recorded.next_unused⟩
  | present _ _ known =>
    exact ⟨nofun, recorded.has known, fun late => of_decide_eq_true late⟩
  | presentLegacy _ _ known unnamed =>
    rcases known with old | ⟨i, _, same⟩
    · rw [recorded.legacy] at old
      cases old
    · rw [← same, i.token.named] at unnamed
      cases unnamed
  | begin | lose => exact ⟨nofun, tracks.2⟩
  | win c _ row found _ unrevoked =>
    obtain ⟨-, ⟨_, found', fits⟩, late⟩ := tracks
    cases found.symm.trans found'
    refine ⟨?_, ⟨row, found, fits, unrevoked⟩, nofun⟩
    cases h : c.late with
    | false => rfl
    | true =>
      have dead := (recorded.revoked _ (late h)).2 _ _ found fits.familyId
      rw [unrevoked] at dead
      cases dead
  | mint =>
    obtain ⟨late, locked, -⟩ := tracks
    refine ⟨late, locked, fun t minted => ?_⟩
    cases minted
    exact ⟨⟨rfl, rfl⟩, recorded.next_free⟩
  | insert | link => exact tracks
  | missing c gone =>
    obtain ⟨-, ⟨_, found, -⟩, -⟩ := tracks
    rw [gone] at found
    cases found
  | replay c row found => exact ⟨_, row, found, rfl⟩
  | remint => exact absurd rfl tracks.1
  | mintLegacy => exact tracks.elim
  | revoke _ known =>
    refine tracks_revoke recorded fun id same => ?_
    have known := known id same
    simp only [Store.isKnown, recorded.legacy, any_nil, Bool.or_false, any_eq_true,
      decide_eq_true_eq] at known
    obtain ⟨i, mem, rfl⟩ := known
    exact (recorded.issued i mem).used
  | revokeReplay =>
    refine tracks_revoke recorded fun id same => ?_
    cases same
    exact tracks
  | lockNext =>
    refine ⟨tracks.1, fun j row found mem => ?_⟩
    rcases tracks.2 j row found mem with revoked | left | locked
    · exact .inl revoked
    · rcases mem_cons.1 left with rfl | left
      · exact .inr (.inr (.head _))
      · exact .inr (.inl left)
    · exact .inr (.inr (.tail _ locked))
  | skipNext _ _ _ _ settled =>
    refine ⟨tracks.1, fun j row found mem => ?_⟩
    rcases tracks.2 j row found mem with revoked | left | locked
    · exact .inl revoked
    · rcases mem_cons.1 left with rfl | left
      · exact .inl (settled row found)
      · exact .inr (.inl left)
    · exact .inr (.inr locked)

/-! ### The table -/

variable (tracks : Tracks st q)
include tracks

theorem inserts_live (inserted : w.inserted = some t) :
    ¬Used st t.familyId ∧ t.familyId = t.jti ∨
      ∃ jti row, st.rows jti = some row ∧ row.familyId = t.familyId ∧ row.userId = t.claims.sub ∧
        row.revokedAt = none := by
  rcases (does.inserts inserted).2 with ⟨c, _, _, rfl, -⟩ | ⟨_, _, rfl⟩
  · obtain ⟨-, ⟨row, found, fits, unrevoked⟩, successor⟩ := tracks
    obtain ⟨⟨family, user⟩, -⟩ := successor t rfl
    exact .inr ⟨_, row, found, fits.familyId.trans family.symm, fits.userId.trans user.symm,
      unrevoked⟩
  · obtain ⟨-, -, own, unused⟩ := tracks
    exact .inl ⟨unused, own⟩

theorem inserts_free (inserted : w.inserted = some t) : st.rows t.jti = none := by
  rcases (does.inserts inserted).2 with ⟨c, _, _, rfl, -⟩ | ⟨_, _, rfl⟩
  · exact (tracks.2.2 t rfl).2
  · exact tracks.2.1

theorem issued_apply {i : Issue} (mem : i ∈ (w.apply st).issued) :
    i ∈ st.issued ∨ w.inserted = some i.token ∧ i.late = false := by
  cases does with
  | commit c at_ successor acknowledged | record token parent late acknowledged =>
    rcases mem_append.1 mem with new | old
    · cases acknowledged with
      | false => cases new
      | true =>
        cases mem_singleton.1 new
        exact .inr ⟨rfl, tracks.1⟩
    · exact .inl old
  | _ => exact .inl mem

theorem returned_dead {f : ℕ} (mem : f ∈ (w.apply st).revoked) :
    f ∈ st.revoked ∨ Used (w.apply st) f ∧ Dead (w.apply st) f := by
  cases does with
  | finishRevoke _ _ acknowledged =>
    rcases mem_append.1 mem with new | old
    · cases acknowledged with
      | false => cases new
      | true =>
        obtain ⟨used, listed⟩ := tracks
        refine .inr ⟨(used f new).apply nofun, fun jti row found family => ?_⟩
        rcases row_of_apply found with ⟨row₀, before, evolves⟩ | ⟨_, inserted, _⟩
        · rcases listed jti row₀ before (evolves.familyId ▸ family ▸ new) with
            revoked | left | locked
          · exact evolves.stays_revoked revoked
          · cases left
          · simp only [Effect.apply, revokeRows, if_pos locked, before, Option.map_some,
              Option.some.injEq] at found
            rw [← found]
            rfl
        · cases inserted
    · exact .inl old
  | _ => exact .inl mem

theorem origin {jti : ℕ} {row : Row} (found : (w.apply st).rows jti = some row) :
    (∃ jti₀ row₀, st.rows jti₀ = some row₀ ∧ row₀.familyId = row.familyId ∧
      row₀.userId = row.userId) ∨
      ∃ t, w.inserted = some t ∧ row = t.row ∧ ¬Used st row.familyId := by
  rcases row_of_apply found with ⟨row₀, before, evolves⟩ | ⟨t, inserted, -, rfl⟩
  · exact .inl ⟨jti, row₀, before, evolves.familyId.symm, evolves.userId.symm⟩
  · rcases inserts_live does tracks inserted with ⟨unused, -⟩ | ⟨_, row₀, before, family, user, -⟩
    · exact .inr ⟨t, inserted, rfl, unused⟩
    · exact .inl ⟨_, row₀, before, family, user⟩

/-- The table stays in order. -/
theorem Does.recorded (recorded : Recorded st) (unpruned : ∀ jti, w ≠ .prune jti)
    (below : Protocol.Under tickets st.next q) :
    Recorded (w.apply st) where
  bounded jti row found := by
    have grows := apply_next w st
    rcases row_of_apply found with ⟨row₀, before, evolves⟩ | ⟨t, inserted, rfl, rfl⟩
    · obtain ⟨_, _⟩ := recorded.bounded jti row₀ before
      rw [evolves.familyId]
      omega
    · have drawn : t.jti < st.next := below _ (by simp [tickets, (does.inserts inserted).1])
      refine ⟨by omega, ?_⟩
      rcases inserts_live does tracks inserted with ⟨-, own⟩ | ⟨_, row, found, family, -⟩
      · have same : t.row.familyId = t.jti := own
        omega
      · have same : row.familyId = t.row.familyId := family
        have bound := (recorded.bounded _ _ found).2
        omega
  owned jti row jti' row' found found' family := by
    rcases origin does tracks found with
      ⟨_, row₀, before, family₀, user⟩ | ⟨t, inserted, rfl, unused⟩
    · rcases origin does tracks found' with ⟨_, _, before', family₁, user'⟩ | ⟨_, _, rfl, unused⟩
      · rw [← user, ← user']
        exact recorded.owned _ _ _ _ before before' (family₀.trans (family.trans family₁.symm))
      · exact absurd ⟨_, row₀, before, family₀.trans family⟩ unused
    · rcases origin does tracks found' with ⟨_, row₁, before', family₁, -⟩ | ⟨_, inserted', rfl, -⟩
      · exact absurd ⟨_, row₁, before', family₁.trans family.symm⟩ unused
      · cases inserted.symm.trans inserted'
        rfl
  legacy := by
    rw [← recorded.legacy]
    cases w <;> rfl
  issued i mem := by
    rcases issued_apply does tracks mem with old | ⟨inserted, -⟩
    · exact (recorded.issued i old).apply (unpruned _)
    · exact has_inserted inserted (inserts_free does tracks inserted)
  revoked f mem := by
    rcases returned_dead does tracks mem with old | new
    · obtain ⟨used, dead⟩ := recorded.revoked f old
      refine ⟨used.apply unpruned, fun jti row found family => ?_⟩
      rcases row_of_apply found with ⟨row₀, before, evolves⟩ | ⟨t, inserted, rfl, rfl⟩
      · exact evolves.stays_revoked (dead jti row₀ before (evolves.familyId ▸ family))
      · rcases inserts_live does tracks inserted with
          ⟨unused, -⟩ | ⟨_, row, found, same, -, unrevoked⟩
        · exact absurd (show Used st t.row.familyId from family.symm ▸ used) unused
        · have revoked := dead _ _ found (same.trans family)
          rw [unrevoked] at revoked
          cases revoked
    · exact new
  punctual i mem := by
    rcases issued_apply does tracks mem with old | ⟨-, punctual⟩
    · exact recorded.punctual i old
    · exact punctual

end

/-! ### Runs -/

theorem unpruned_effect (does : Does cfg st q a w next)
    (unpruned : ∀ jti, a ≠ .prune jti) (jti : ℕ) : w ≠ .prune jti := by
  rintro rfl
  cases does with
  | prune _ jti => exact unpruned jti rfl

variable (w : World Store Request ℕ) (e : ℕ × Action)

/-- No request is under way, every token has its row and no family has been revoked. -/
structure RecordedStart : Prop where
  idle : Idle w
  recorded : Recorded w.store
  unrevoked : w.store.revoked = []

structure Known : Prop where
  below : Protocol.Below Store.next tickets w
  apart : Protocol.Pairs (Protocol.Disjoint tickets) w
  unpruned : Unpruned w e
  undisturbed : Undisturbed w e

theorem recorded_own : (service cfg).Own Known Recorded Tracks := by
  intro w e o before known coded
  have does := code_does coded
  have unpruned := unpruned_effect does known.unpruned
  exact ⟨does.recorded (before.procs e.1) before.store unpruned (known.below e.1),
    does.tracks before.store unpruned (before.procs e.1)⟩

theorem recorded_others : (service cfg).Others Known Recorded Tracks := by
  intro w e o j before known coded other locks
  have does := code_does coded
  have mover := before.procs e.1
  have theirs := before.procs j
  refine theirs.apply (unpruned_effect does known.unpruned) ?_ ?_ ?_ ?_
  · exact fun t t' => does.inserted_apart known.apart other
  · intro t _ _ _ inserted phase same
    rw [phase] at theirs
    rcases inserts_live does mover inserted with ⟨-, own⟩ | ⟨_, row, found, family, -⟩
    · refine does.inserted_apart known.apart other inserted (by rw [phase]; rfl) ?_
      exact own.symm.trans (same.trans theirs.2.2.1)
    · exact theirs.2.2.2 ⟨_, row, found, family.trans same⟩
  · intro t families todo done inserted phase mem
    rw [phase] at theirs
    rcases (does.inserts inserted).2 with ⟨c, at_, acknowledged, rotating, action⟩ | ⟨_, _, login⟩
    · rw [rotating] at mover
      obtain ⟨⟨family, -⟩, -⟩ := mover.2.2 t rfl
      exact known.undisturbed acknowledged c at_ _ action rotating j families todo done phase
        (family ▸ mem)
    · rw [login] at mover
      exact mover.2.2.2 (theirs.1 _ mem)
  · intro _ _ effect jti held
    rw [effect] at does
    rw [← does.revokes]
    exact (locks jti held).2.2

/-- After a revocation of a family has returned, no call succeeds with a token of the family. -/
theorem revoked_families_refuse {w}
    (h : Reach (service cfg).step RecordedStart (fun w e => Unpruned w e ∧ Undisturbed w e) w) :
    ∀ i ∈ w.store.issued, i.late = false := by
  have known := h.strengthen fun v reached =>
    And.intro (below (fun _ start => start.idle) reached)
      (apart (fun _ start => start.idle) reached)
  have run : Reach (service cfg).step RecordedStart Known w :=
    known.mono (fun _ start => start) fun _ _ ⟨⟨below, apart⟩, unpruned, undisturbed⟩ =>
      ⟨below, apart, unpruned, undisturbed⟩
  refine (Protocol.invariant recorded_own recorded_others (fun w start => ?_) run).store.punctual
  exact .of_idle start.idle rfl start.recorded trivial

def unused : World Store Request ℕ :=
  ⟨⟨fun _ => none, fun _ => true, 0, fun _ => 0, 0, [], [], []⟩, .idle .idle⟩

def daily : Config := ⟨1⟩

/-- The token with identifier `jti` of family 0 that is minted at time 0. -/
def dailyClaims (jti : ℕ) : Claims := ⟨0, .refresh, some jti, some 0, 86400, none, none⟩

theorem unused_recorded : RecordedStart unused where
  idle := rfl
  recorded :=
    { bounded := fun _ _ found => by cases found
      owned := fun _ _ _ _ found => by cases found
      legacy := rfl
      issued := fun _ mem => absurd mem not_mem_nil
      revoked := fun _ mem => absurd mem not_mem_nil
      punctual := fun _ mem => absurd mem not_mem_nil }
  unrevoked := rfl

def unprunedCheck (_ : World Store Request ℕ) (e : ℕ × Action) : Bool :=
  match e.2 with
  | .prune _ => false
  | _ => true

theorem unpruned_of_check (w e) (checked : unprunedCheck w e = true) : Unpruned w e := by
  intro _ pruned
  simp [unprunedCheck, pruned] at checked

/-- Whether a revocation is under way. -/
def Request.isRevoking : Request → Bool
  | .revoking _ _ _ => true
  | _ => false

/-- What `Undisturbed` asks while at most `n` requests are under way. -/
def undisturbedCheck (n : ℕ) (w : World Store Request ℕ) (e : ℕ × Action) : Bool :=
  match e.2 with
  | .prune _ => false
  | .commit _ => (List.range n).all fun j => !(w.pool.proc j).isRevoking
  | _ => true

theorem undisturbed_of_check {n : ℕ} (w e)
    (resting : Protocol.Resting n .idle w) (checked : undisturbedCheck n w e = true) :
    Unpruned w e ∧ Undisturbed w e := by
  constructor
  · intro _ pruned
    simp [undisturbedCheck, pruned] at checked
  · intro _ c _ _ action _ j _ _ _ phase
    simp only [undisturbedCheck, action, all_eq_true, mem_range] at checked
    by_cases low : j < n
    · have other := checked j low
      rw [phase] at other
      cases other
    · rw [resting j (Nat.not_lt.1 low)] at phase
      cases phase

/-- A token is rotated, its family is revoked, and the successor is refused. -/
theorem revoked_families_refuse_successor : ∃ w,
    Reach (service daily).step RecordedStart (fun w e => Unpruned w e ∧ Undisturbed w e) w ∧
      w.store.revoked = [0] ∧ w.store.issued.length = 2 ∧ ∀ i ∈ w.store.issued, i.late = false := by
  obtain ⟨w, reached, revoked, length⟩ : ∃ w,
      Reach (service daily).step RecordedStart (fun w e => Unpruned w e ∧ Undisturbed w e) w ∧
        w.store.revoked = [0] ∧ w.store.issued.length = 2 :=
    Protocol.exists_of_run_below (n := 4) (q := .idle) undisturbed_of_check (.start unused_recorded)
      (fun _ _ => rfl)
      [(0, .login 0 ⟨0, none, none⟩), (0, .record true), (1, .refresh 0 (dailyClaims 0)),
        (1, .begin), (1, .consume), (1, .mint), (1, .insert), (1, .link), (1, .commit true),
        (2, .revoke (.family 0)), (2, .revokeNext), (2, .revokeNext), (2, .finishRevoke true),
        (3, .refresh 0 (dailyClaims 1)), (3, .begin), (3, .consume), (3, .classify)] _ (by decide)
  exact ⟨w, reached, revoked, length, revoked_families_refuse reached⟩

/-- A logout takes its snapshot while a rotation has inserted its successor and not committed it,
waits for the row of the parent, and returns without having revoked the successor. -/
theorem revoked_family_refreshed : ∃ w, Reach (service daily).step RecordedStart Unpruned w ∧
    ∃ i ∈ w.store.issued, i.late = true :=
  Reach.exists_of_start _ _ unpruned_of_check _ unused_recorded
    [(0, .login 0 ⟨0, none, none⟩), (0, .record true), (1, .refresh 0 (dailyClaims 0)),
      (1, .begin), (1, .consume), (1, .mint), (1, .insert), (1, .link),
      (2, .revoke (.family 0)), (1, .commit true), (2, .revokeNext), (2, .finishRevoke true),
      (3, .refresh 0 (dailyClaims 1)), (3, .begin), (3, .consume), (3, .mint), (3, .insert),
      (3, .link), (3, .commit true)] _ (by decide)

end ArtifactKeeper.RefreshTokens
