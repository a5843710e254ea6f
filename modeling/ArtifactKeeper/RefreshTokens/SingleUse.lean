import ArtifactKeeper.RefreshTokens.Revocation

/-!
# Single use

Every returned token is rotated at most once, and the tokens of a family form one chain with one
grant.  The row of a token is consumed by its rotation, so it must be there while the token can be
presented; `Spared` says that of the janitor.
-/

namespace ArtifactKeeper.RefreshTokens

open Nat hiding ne_of_lt
open Machine StepSystem List Option Protocol Reach
open Request (tickets)

variable (st : Store) (w : World Store Request ℕ) (e : ℕ × Action)

/-- No replica accepts the token any more. -/
def Expired (t : Token) : Prop := ∀ r, t.claims.exp < st.clock r / seconds 1

/-- A call has returned the token. -/
def Issued (t : Token) : Prop := ∃ i ∈ st.issued, i.token.claims = t.claims

/-- Newest first, each token is rotated from the next one, down to the token of the login, and all
have one grant. -/
inductive Chain (root : Issue) : List Issue → Prop
  | first : Chain root [root]
  | next {newer older : Issue} {rest : List Issue} (chain : Chain root (older :: rest))
      (parent : newer.parent = some older.token.jti)
      (grant : newer.token.claims.grant = older.token.claims.grant) :
      Chain root (newer :: older :: rest)

/-- The tokens of a family, newest first. -/
def Store.family (f : ℕ) : List Issue := st.issued.filter fun i => i.token.familyId = f

/-- A row is pruned only when its token is accepted nowhere and no call with it is under way. -/
def Spared : Prop :=
  ∀ jti row, e.2 = .prune jti → w.store.rows jti = some row →
    (∀ r, row.expiresAt < w.store.clock r / seconds 1) ∧
      ∀ j c stage, w.pool.proc j = .calling c stage → c.token.jti ≠ jti

/-! ### Invariants -/

structure Traced : Prop where
  bounded : ∀ jti row, st.rows jti = some row → jti < st.next
  drawn : ∀ i ∈ st.issued, i.token.jti < st.next ∧ i.token.familyId < st.next
  legacy : ∀ c ∈ st.legacy, (∀ jti, c.jti = some jti → jti < st.next ∧ st.rows jti = none) ∧
    ∀ f, c.familyId = some f → f < st.next
  apart : ∀ i ∈ st.issued, ∀ c ∈ st.legacy, c.jti ≠ some i.token.jti
  opened : ∀ i ∈ st.issued, i.parent = none → ∀ c ∈ st.legacy, c.familyId ≠ some i.token.familyId
  parents : ∀ i ∈ st.issued, ∀ jti, i.parent = some jti →
    (∃ p ∈ st.issued, p.token.jti = jti) ∨ ∃ c ∈ st.legacy, c.jti = some jti
  kept : ∀ i ∈ st.issued, Has st i.token ∨ Expired st i.token
  spent : ∀ i ∈ st.issued, ∀ p ∈ st.issued, i.parent = some p.token.jti →
    ∀ row, st.rows p.token.jti = some row → row.consumedAt.isSome

/-- The identifier of a minted token is new. -/
structure Fresh (t : Token) : Prop where
  free : st.rows t.jti = none
  issued : ∀ i ∈ st.issued, i.token.jti ≠ t.jti
  legacy : ∀ c ∈ st.legacy, c.jti ≠ some t.jti

structure NewFamily (t : Token) : Prop where
  own : t.familyId = t.jti
  issued : ∀ i ∈ st.issued, i.token.familyId ≠ t.familyId
  legacy : ∀ c ∈ st.legacy, c.familyId ≠ some t.familyId

/-- What a request knows of the token it was called with and of the one it has minted. -/
def Careful : Request → Prop
  | .calling c stage => st.Presentable c.token.claims ∧
      (Issued st c.token → Has st c.token ∧ stage ≠ .missing)
  | .rotating c _ rotation => Issued st c.token ∧
      (∃ row, st.rows c.token.jti = some row ∧ row.consumedAt = none) ∧
      ∀ t, rotation.successor = some t → Fresh st t ∧ t.familyId = c.token.familyId ∧
        t.claims.grant = c.token.claims.grant
  | .recording t parent _ => Fresh st t ∧ (match parent with
      | none => NewFamily st t
      | some jti => ∃ c ∈ st.legacy, c.jti = some jti ∧ c.familyId = some t.familyId)
  | _ => True

/-! ### Effects -/

variable {cfg : Config} {st} {q : Request} {a : Action} {o : Statement} {w : Effect}

theorem apply_clock (r : ℕ) : st.clock r ≤ (w.apply st).clock r := by
  cases w with
  | tick => simp only [Effect.apply]; omega
  | tickClock =>
    simp only [Effect.apply, Function.update_apply]
    split_ifs with same
    · rw [same]
      omega
    · exact Int.le_refl _
  | _ => exact Int.le_refl _

variable {t : Token} {next : Request}

theorem Expired.apply (expired : Expired st t) : Expired (w.apply st) t := by
  intro r
  have later : st.clock r / seconds 1 ≤ (w.apply st).clock r / seconds 1 :=
    Int.ediv_le_ediv (by decide) (apply_clock r)
  exact Int.lt_of_lt_of_le (expired r) later

theorem apply_legacy (w : Effect) (st : Store) : (w.apply st).legacy = st.legacy := by
  cases w <;> rfl

/-- The token that a call returns with the effect. -/
def Effect.logged : Effect → Option Issue
  | .rotate _ _ _ issue | .record _ issue => issue
  | _ => Option.none

theorem apply_issued : (w.apply st).issued = w.logged.toList ++ st.issued := by
  cases w <;> rfl

variable {i : Issue}

theorem mem_issued : i ∈ (w.apply st).issued ↔ w.logged = some i ∨ i ∈ st.issued := by
  rw [apply_issued, mem_append, mem_toList]

theorem Does.logs (does : Does cfg st q a w next) (logged : w.logged = some i) :
    w.inserted = some i.token ∧
      ((∃ c at_, q = .rotating c at_ (.linked i.token) ∧ i.parent = some c.token.jti ∧
        ∃ issue, w = .rotate c.token.jti at_ i.token issue) ∨
        q = .recording i.token i.parent i.late) := by
  cases does with
  | commit c at_ _ acknowledged =>
    cases acknowledged with
    | false => cases logged
    | true =>
      cases logged
      exact ⟨rfl, .inl ⟨c, at_, rfl, rfl, _, rfl⟩⟩
  | record _ _ _ acknowledged =>
    cases acknowledged with
    | false => cases logged
    | true =>
      cases logged
      exact ⟨rfl, .inr rfl⟩
  | _ => cases logged

theorem Issued.apply (issued : Issued st t) : Issued (w.apply st) t := by
  obtain ⟨i, mem, same⟩ := issued
  exact ⟨i, mem_issued.2 (.inr mem), same⟩

/-- What a step of another request leaves fresh. -/
theorem Fresh.apply (fresh : Fresh st t) (other : ∀ t', w.inserted = some t' → t'.jti ≠ t.jti)
    (logs : ∀ i, w.logged = some i → w.inserted = some i.token) : Fresh (w.apply st) t where
  free := free_apply fresh.free other
  issued i mem := by
    rcases mem_issued.1 mem with new | old
    · exact other _ (logs i new)
    · exact fresh.issued i old
  legacy := by
    rw [apply_legacy]
    exact fresh.legacy

theorem NewFamily.apply (new : NewFamily st t)
    (other : ∀ i, w.logged = some i → i.token.familyId ≠ t.familyId) :
    NewFamily (w.apply st) t where
  own := new.own
  issued i mem := by
    rcases mem_issued.1 mem with logged | old
    · exact other i logged
    · exact new.issued i old
  legacy := by
    rw [apply_legacy]
    exact new.legacy

/-! ### Own steps -/

theorem Token.claimed (t : Token) :
    t.claims.jti = some t.jti ∧ t.claims.familyId = some t.familyId := by
  obtain ⟨_, named, mapped⟩ := bind_eq_some_iff.1 t.named
  obtain ⟨f, family, same⟩ := map_eq_some_iff.1 mapped
  cases same
  exact ⟨named, family⟩

theorem Traced.fresh_next (traced : Traced st) (replica f : ℕ) (grant : Grant) :
    Fresh (Effect.draw.apply st) (generateTokens cfg st replica f grant) where
  free := by
    cases found : st.rows st.next with
    | none => exact found
    | some _ => exact absurd (traced.bounded _ _ found) (lt_irrefl _)
  issued i mem := ne_of_lt (traced.drawn i mem).1
  legacy c mem same := absurd ((traced.legacy c mem).1 _ same).1 (lt_irrefl _)

theorem Traced.new_family (traced : Traced st) (replica : ℕ) (grant : Grant) :
    NewFamily (Effect.draw.apply st) (generateTokens cfg st replica st.next grant) where
  own := rfl
  issued i mem := ne_of_lt (traced.drawn i mem).2
  legacy c mem same := absurd ((traced.legacy c mem).2 _ same) (lt_irrefl _)

theorem Traced.has (traced : Traced st) {replica : ℕ} (issued : Issued st t)
    (accepted : decodeToken st replica t.claims) : Has st t := by
  obtain ⟨i, mem, same⟩ := issued
  obtain ⟨jti, family⟩ := Token.same_session same
  rcases traced.kept i mem with ⟨row, found, fits⟩ | expired
  · exact ⟨row, jti ▸ found, fits.familyId.trans family, same ▸ fits.userId, same ▸ fits.expiresAt⟩
  · have late := expired replica
    rw [same] at late
    exact absurd (of_decide_eq_true accepted) (Int.not_le.2 late)

variable {row : Row}

theorem Traced.issued_of_row (traced : Traced st) (known : st.Presentable t.claims)
    (found : st.rows t.jti = some row) : Issued st t := by
  rcases known with old | issued
  · rw [((traced.legacy _ old).1 _ t.claimed.1).2] at found
    cases found
  · exact issued

/-- What a request knows depends on the rows and the tokens only. -/
theorem Careful.congr {st' : Store} (careful : Careful st q) (rows : st'.rows = st.rows)
    (issued : st'.issued = st.issued) (legacy : st'.legacy = st.legacy) : Careful st' q := by
  cases q with
  | calling =>
    simp only [Careful, Store.Presentable, Issued, Has, rows, issued, legacy]
    exact careful
  | rotating =>
    obtain ⟨⟨i, mem, same⟩, locked, successor⟩ := careful
    refine ⟨⟨i, issued ▸ mem, same⟩, rows ▸ locked, fun t minted => ?_⟩
    obtain ⟨fresh, same⟩ := successor t minted
    exact ⟨⟨rows ▸ fresh.free, issued ▸ fresh.issued, legacy ▸ fresh.legacy⟩, same⟩
  | recording t parent =>
    obtain ⟨fresh, family⟩ := careful
    refine ⟨⟨rows ▸ fresh.free, issued ▸ fresh.issued, legacy ▸ fresh.legacy⟩, ?_⟩
    cases parent with
    | none => exact ⟨family.own, issued ▸ family.issued, legacy ▸ family.legacy⟩
    | some _ => exact legacy ▸ family
  | _ => trivial

theorem Does.careful (does : Does cfg st q a w next) (traced : Traced st)
    (careful : Careful st q) : Careful (w.apply st) next := by
  cases does with
  | tick | tickClock | setActive => exact careful.congr rfl rfl rfl
  | login | mintLegacy =>
    exact ⟨traced.fresh_next _ _ _, traced.new_family _ _⟩
  | present _ _ known accepted =>
    exact ⟨known, fun issued => ⟨traced.has issued accepted, nofun⟩⟩
  | begin | lose => exact ⟨careful.1, fun issued => ⟨(careful.2 issued).1, nofun⟩⟩
  | win c _ row found unconsumed =>
    exact ⟨traced.issued_of_row careful.1 found, ⟨row, found, unconsumed⟩, nofun⟩
  | mint =>
    obtain ⟨issued, locked, -⟩ := careful
    refine ⟨issued, locked, fun t minted => ?_⟩
    cases minted
    exact ⟨traced.fresh_next _ _ _, rfl, rfl⟩
  | insert | link => exact careful
  | missing c gone =>
    refine ⟨careful.1, fun issued => ?_⟩
    obtain ⟨_, found, -⟩ := (careful.2 issued).1
    rw [gone] at found
    cases found
  | remint c =>
    refine ⟨traced.fresh_next _ _ _, ?_⟩
    rcases careful.1 with old | issued
    · exact ⟨c.token.claims, old, c.token.claimed⟩
    · exact absurd rfl (careful.2 issued).2
  | _ => trivial

/-! ### The log -/

theorem fresh_of_inserts (does : Does cfg st q a w next)
    (careful : Careful st q) (inserted : w.inserted = some t) : Fresh st t := by
  rcases (does.inserts inserted).2 with ⟨c, _, _, rfl, -⟩ | ⟨_, _, rfl⟩
  · exact (careful.2.2 t rfl).1
  · exact careful.1

/-- Where a returned token comes from. -/
inductive Origin (st : Store) (w : Effect) (i : Issue) : Prop
  | rotated (p : Issue) (mem : p ∈ st.issued) (parent : i.parent = some p.token.jti)
      (family : i.token.familyId = p.token.familyId)
      (grant : i.token.claims.grant = p.token.claims.grant) (row : Row)
      (found : st.rows p.token.jti = some row) (unconsumed : row.consumedAt = none)
      (consumes : ∀ row', (w.apply st).rows p.token.jti = some row' → row'.consumedAt.isSome)
  | opened (parent : i.parent = none) (family : NewFamily st i.token)
  | legacy (c : Claims) (mem : c ∈ st.legacy) (parent : i.parent = c.jti) (named : c.jti.isSome)
      (family : c.familyId = some i.token.familyId)

variable {at_ : ℤ} {issue : Option Issue} {row' : Row}

theorem rotate_consumes {parent : ℕ} (found : st.rows parent = some row)
    (after : ((Effect.rotate parent at_ t issue).apply st).rows parent = some row') :
    row'.consumedAt.isSome := by
  simp only [Effect.apply, insertRow, consumeRow, if_true, found, map_some, some_or,
    ite_self, some.injEq] at after
  rw [← after]
  rfl

theorem origin_of_logs (does : Does cfg st q a w next) (careful : Careful st q)
    (logged : w.logged = some i) : Origin st w i := by
  rcases (does.logs logged).2 with ⟨c, _, rfl, parent, _, rfl⟩ | rfl
  · obtain ⟨⟨p, mem, same⟩, ⟨row, found, unconsumed⟩, successor⟩ := careful
    obtain ⟨-, family, grant⟩ := successor i.token rfl
    obtain ⟨jti, own⟩ := Token.same_session same
    refine .rotated p mem (jti ▸ parent) (family.trans own.symm) (by rw [grant, same]) row
      (jti ▸ found) unconsumed fun row' after => ?_
    rw [jti] at after
    exact rotate_consumes found after
  · obtain ⟨-, family⟩ := careful
    cases parent : i.parent with
    | none =>
      rw [parent] at family
      exact .opened parent family
    | some _ =>
      rw [parent] at family
      obtain ⟨c, mem, named, same⟩ := family
      exact .legacy c mem (parent.trans named.symm) (by rw [named]; rfl) same

/-- A token that is returned is the one inserted, which is new. -/
structure Logs (st : Store) (w : Effect) : Prop where
  inserted : ∀ i, w.logged = some i → w.inserted = some i.token
  fresh : ∀ i, w.logged = some i → Fresh st i.token
  origin : ∀ i, w.logged = some i → Origin st w i

theorem Does.logged (does : Does cfg st q a w next) (careful : Careful st q) : Logs st w where
  inserted _ logged := (does.logs logged).1
  fresh _ logged := fresh_of_inserts does careful (does.logs logged).1
  origin _ logged := origin_of_logs does careful logged

variable {jti : ℕ}

theorem stays_consumed (h : Evolves w jti row row') (before : row.consumedAt.isSome) :
    row'.consumedAt.isSome := by
  rcases h.consumed with same | ⟨after, _⟩
  · rw [same]
    exact before
  · exact after

theorem parent_of_apply (traced : Traced st) (logs : Logs st w)
    (mem : i ∈ (w.apply st).issued) (parent : i.parent = some jti) :
    (∃ p ∈ st.issued, p.token.jti = jti) ∨ ∃ c ∈ st.legacy, c.jti = some jti := by
  rcases mem_issued.1 mem with logged | before
  · cases logs.origin i logged with
    | rotated p mem rotated =>
      rw [parent, some.injEq] at rotated
      exact .inl ⟨p, mem, rotated.symm⟩
    | opened opened => rw [parent] at opened; cases opened
    | legacy c mem named => exact .inr ⟨c, mem, named.symm.trans parent⟩
  · exact traced.parents i before jti parent

theorem Does.traced (does : Does cfg st q a w next) (traced : Traced st)
    (below : Under tickets st.next q) (careful : Careful st q)
    (spared : ∀ jti row, w = .prune jti → st.rows jti = some row →
      ∀ r, row.expiresAt < st.clock r / seconds 1) : Traced (w.apply st) := by
  have grows := apply_next w st
  have drawn (t : Token) (inserted : w.inserted = some t) : t.jti < st.next :=
    below _ (by simp [tickets, (does.inserts inserted).1])
  have logs := does.logged careful
  constructor
  case bounded =>
    intro _ _ found
    rcases row_of_apply found with ⟨_, before, _⟩ | ⟨t, inserted, rfl, _⟩
    · exact lt_of_lt_of_le (traced.bounded _ _ before) grows
    · exact lt_of_lt_of_le (drawn t inserted) grows
  case drawn =>
    intro i mem
    rcases mem_issued.1 mem with logged | old
    · have id := drawn _ (logs.inserted i logged)
      refine ⟨lt_of_lt_of_le id grows, lt_of_lt_of_le ?_ grows⟩
      cases logs.origin i logged with
      | rotated p mem _ family => exact family ▸ (traced.drawn p mem).2
      | opened _ family => exact family.own ▸ id
      | legacy c mem _ _ family => exact (traced.legacy c mem).2 _ family
    · obtain ⟨id, family⟩ := traced.drawn i old
      exact ⟨lt_of_lt_of_le id grows, lt_of_lt_of_le family grows⟩
  case legacy =>
    intro c mem
    rw [apply_legacy] at mem
    obtain ⟨ids, families⟩ := traced.legacy c mem
    refine ⟨fun jti named => ⟨lt_of_lt_of_le (ids jti named).1 grows, ?_⟩, fun f named =>
      lt_of_lt_of_le (families f named) grows⟩
    cases found : (w.apply st).rows jti with
    | none => rfl
    | some _ =>
      rcases row_of_apply found with ⟨_, before, _⟩ | ⟨t, inserted, rfl, _⟩
      · rw [(ids jti named).2] at before
        cases before
      · exact absurd named ((fresh_of_inserts does careful inserted).legacy c mem)
  case apart =>
    intro i mem c old
    rw [apply_legacy] at old
    rcases mem_issued.1 mem with logged | before
    · exact (logs.fresh i logged).legacy c old
    · exact traced.apart i before c old
  case opened =>
    intro i mem parent c old
    rw [apply_legacy] at old
    rcases mem_issued.1 mem with logged | before
    · cases logs.origin i logged with
      | rotated _ _ rotated => rw [parent] at rotated; cases rotated
      | opened _ family => exact family.legacy c old
      | legacy _ _ named isSome => rw [← named, parent] at isSome; cases isSome
    · exact traced.opened i before parent c old
  case parents =>
    intro i mem _ parent
    rw [apply_legacy]
    rcases parent_of_apply traced logs mem parent with ⟨p, before, same⟩ | old
    · exact .inl ⟨p, mem_issued.2 (.inr before), same⟩
    · exact .inr old
  case kept =>
    intro i mem
    rcases mem_issued.1 mem with logged | before
    · exact .inl (has_inserted (logs.inserted i logged) (logs.fresh i logged).free)
    · rcases traced.kept i before with has | expired
      · by_cases pruned : w = .prune i.token.jti
        · obtain ⟨row, found, fits⟩ := has
          refine .inr (Expired.apply fun r => ?_)
          exact fits.expiresAt ▸ spared _ row pruned found r
        · exact .inl (has.apply pruned)
      · exact .inr expired.apply
  case spent =>
    intro i mem p mem' parent row found
    rcases mem_issued.1 mem' with new | before
    · -- nothing has been rotated from a token that is only returned now
      rcases parent_of_apply traced logs mem parent with ⟨p', old, same⟩ | ⟨c, old, same⟩
      · exact absurd same ((logs.fresh p new).issued p' old)
      · exact absurd same ((logs.fresh p new).legacy c old)
    · rcases row_of_apply found with ⟨row₀, earlier, evolves⟩ | ⟨t, inserted, same, _⟩
      · rcases mem_issued.1 mem with logged | old
        · cases logs.origin i logged with
          | rotated _ _ rotated _ _ _ _ _ consumes =>
            rw [parent, some.injEq] at rotated
            exact consumes row (rotated ▸ found)
          | opened opened => rw [parent] at opened; cases opened
          | legacy c mem named =>
            exact absurd (named.symm.trans parent) (traced.apart p before c mem)
        · exact stays_consumed evolves (traced.spent i old p before parent row₀ earlier)
      · exact absurd same.symm ((fresh_of_inserts does careful inserted).issued p before)

/-! ### Steps of others -/

theorem issued_of_apply (known : st.Presentable t.claims) (logs : Logs st w)
    (issued : Issued (w.apply st) t) : Issued st t := by
  rcases known with old | before
  · obtain ⟨i, mem, same⟩ := issued
    rcases mem_issued.1 mem with logged | before
    · exact absurd (same ▸ i.token.claimed.1) ((logs.fresh i logged).legacy _ old)
    · exact ⟨i, before, same⟩
  · exact before

theorem Careful.apply (careful : Careful st q) (logs : Logs st w)
    (tickets : ∀ t t', w.inserted = some t → q.minted = some t' → t.jti ≠ t'.jti)
    (families : ∀ i t parent late, w.logged = some i → q = .recording t parent late →
      NewFamily st t → i.token.familyId ≠ t.familyId)
    (spared : ∀ c stage, q = .calling c stage → w ≠ .prune c.token.jti)
    (locked : ∀ jti ∈ q.holds, w ≠ .prune jti ∧ ∀ at_ t issue, w ≠ .rotate jti at_ t issue) :
    Careful (w.apply st) q := by
  cases q with
  | calling c stage =>
    obtain ⟨known, has⟩ := careful
    refine ⟨?_, fun issued => ?_⟩
    · rcases known with old | issued
      · exact .inl ((apply_legacy w st).symm ▸ old)
      · exact .inr (Issued.apply issued)
    · obtain ⟨row, present⟩ := has (issued_of_apply known logs issued)
      exact ⟨row.apply (spared c stage rfl), present⟩
  | rotating c at_ =>
    obtain ⟨issued, ⟨_, found, unconsumed⟩, successor⟩ := careful
    obtain ⟨kept, unrotated⟩ := locked c.token.jti (.head _)
    obtain ⟨row', after, evolves⟩ := apply_row found kept
    refine ⟨issued.apply, ⟨row', after, ?_⟩, fun t minted => ?_⟩
    · rcases evolves.consumed with same | ⟨_, at_, t, issue, effect⟩
      · exact same.trans unconsumed
      · exact absurd effect (unrotated at_ t issue)
    · obtain ⟨mine, same⟩ := successor t minted
      exact ⟨mine.apply (fun t' inserted => tickets t' t inserted minted) logs.inserted, same⟩
  | recording t parent late =>
    obtain ⟨mine, family⟩ := careful
    refine ⟨mine.apply (fun t' inserted => tickets t' t inserted rfl) logs.inserted, ?_⟩
    cases parent with
    | none => exact family.apply fun i logged => families i t none late logged rfl family
    | some _ =>
      obtain ⟨c, old, same⟩ := family
      exact ⟨c, (apply_legacy w st).symm ▸ old, same⟩
  | _ => trivial

/-! ### Runs -/

/-- No request is under way, no token has been returned and the table is empty; there may be tokens
from before the table. -/
structure FreshStart (w : World Store Request ℕ) : Prop where
  idle : Idle w
  rows : ∀ jti, w.store.rows jti = none
  issued : w.store.issued = []
  legacy : ∀ c ∈ w.store.legacy, (∀ jti, c.jti = some jti → jti < w.store.next) ∧
    ∀ f, c.familyId = some f → f < w.store.next

structure Prepared (w : World Store Request ℕ) (e : ℕ × Action) : Prop where
  below : Below Store.next tickets w
  apart : Pairs (Disjoint tickets) w
  spared : Spared w e

section

variable (does : Does cfg st q a w next)
include does

theorem Does.prunes (pruned : w = .prune jti) : a = .prune jti ∧ ∃ row, st.rows jti = some row := by
  cases does with
  | prune _ _ row found => cases pruned; exact ⟨rfl, row, found⟩
  | _ => cases pruned

theorem Does.rotates (rotated : w = .rotate jti at_ t issue) : jti ∈ q.holds := by
  cases does with
  | commit => cases rotated; exact .head _
  | _ => cases rotated

theorem Does.drifts {r elapsed : ℕ} (drifted : w = .tickClock r elapsed) :
    a = .tickClock r elapsed := by
  cases does with
  | tickClock => cases drifted; rfl
  | _ => cases drifted

end

theorem traced_own : (service cfg).Own Prepared Traced Careful := by
  intro w e o before known coded
  have does := code_does coded
  refine ⟨does.traced before.store (known.below e.1) (before.procs e.1) ?_,
    does.careful before.store (before.procs e.1)⟩
  intro jti row pruned found
  exact (known.spared jti row (does.prunes pruned).1 found).1

theorem traced_others : (service cfg).Others Prepared Traced Careful := by
  intro w e o j before known coded other locks
  have does := code_does coded
  have logs := does.logged (before.procs e.1)
  refine (before.procs j).apply logs ?_ ?_ ?_ ?_
  · exact fun t t' => does.inserted_apart known.apart other
  · intro i t _ _ logged phase new same
    cases logs.origin i logged with
    | rotated p mem _ family => exact new.issued p mem (family.symm.trans same)
    | opened _ family =>
      refine does.inserted_apart known.apart other (logs.inserted i logged) (by rw [phase]; rfl) ?_
      exact family.own.symm.trans (same.trans new.own)
    | legacy c mem _ _ family => exact new.legacy c mem (same ▸ family)
  · intro c stage phase pruned
    obtain ⟨action, row, found⟩ := does.prunes pruned
    exact (known.spared _ row action found).2 j c stage phase rfl
  · intro jti held
    refine ⟨fun pruned => (locks jti held).1 (prune_touches coded pruned), ?_⟩
    exact fun at_ t issue rotated => (locks jti held).2.2 (does.rotates rotated)

theorem traced {w} (h : Reach (service cfg).step FreshStart Spared w) :
    (service cfg).Holds Traced Careful w := by
  have known := h.strengthen fun v reached =>
    And.intro (below (fun _ start => start.idle) reached)
      (apart (fun _ start => start.idle) reached)
  have run : Reach (service cfg).step FreshStart Prepared w :=
    known.mono (fun _ start => start) fun _ _ ⟨⟨below, apart⟩, spared⟩ => ⟨below, apart, spared⟩
  refine invariant traced_own traced_others (fun w start => ?_) run
  refine .of_idle start.idle rfl ?_ trivial
  obtain ⟨-, rows, issued, legacy⟩ := start
  constructor
  case bounded =>
    intro _ _ found
    rw [rows] at found
    cases found
  case legacy => exact fun c mem => ⟨fun jti named => ⟨(legacy c mem).1 jti named, rows jti⟩,
    (legacy c mem).2⟩
  all_goals
    rw [issued]
    exact fun i mem => absurd mem not_mem_nil

/-! ### Chains -/

theorem Chain.same_grant {root : Issue} {log : List Issue} (chain : Chain root log) :
    ∀ i ∈ log, i.token.claims.grant = root.token.claims.grant := by
  induction chain with
  | first =>
    intro i mem
    rw [mem_singleton.1 mem]
  | next _ _ grant ih =>
    intro i mem
    rcases mem_cons.1 mem with rfl | mem
    · exact grant.trans (ih _ (.head _))
    · exact ih i mem

theorem Chain.rotated {root newest : Issue} {rest : List Issue}
    (chain : Chain root (newest :: rest)) :
    ∀ i ∈ rest, ∃ n ∈ newest :: rest, n.parent = some i.token.jti := by
  generalize whole : newest :: rest = log at chain
  induction chain generalizing newest rest with
  | first =>
    cases whole
    exact fun i mem => nomatch mem
  | next _ parent _ ih =>
    cases whole
    intro i mem
    rcases mem_cons.1 mem with rfl | mem
    · exact ⟨_, .head _, parent⟩
    · obtain ⟨n, found, same⟩ := ih rfl i mem
      exact ⟨n, .tail _ found, same⟩

/-- Recorded tokens are rotated once, and the families opened by a login are chains. -/
structure Linear (st : Store) : Prop where
  once : ∀ i ∈ st.issued, ∀ i' ∈ st.issued, ∀ p ∈ st.issued, i.parent = some p.token.jti →
    i'.parent = some p.token.jti → i = i'
  chain : ∀ root ∈ st.issued, root.parent = none → Chain root (st.family root.token.familyId)

theorem newest_of_unconsumed {root p : Issue} (traced : Traced st) (mem : p ∈ st.issued)
    (found : st.rows p.token.jti = some row) (unconsumed : row.consumedAt = none)
    (chain : Chain root (st.family p.token.familyId)) :
    ∃ rest, st.family p.token.familyId = p :: rest := by
  have listed : p ∈ st.family p.token.familyId := by simp [Store.family, mem]
  cases members : st.family p.token.familyId with
  | nil => rw [members] at listed; cases listed
  | cons _ rest =>
    rw [members] at listed chain
    rcases mem_cons.1 listed with same | older
    · exact ⟨rest, by rw [same]⟩
    · obtain ⟨n, found', parent⟩ := chain.rotated p older
      have logged : n ∈ st.issued := by
        rw [← members] at found'
        exact mem_of_mem_filter found'
      have spent := traced.spent n logged p mem parent row found
      rw [unconsumed] at spent
      cases spent

/-- Nothing was rotated before from a token that is rotated now. -/
theorem Origin.first {i' p : Issue} (traced : Traced st) (origin : Origin st w i)
    (mem : p ∈ st.issued) (parent : i.parent = some p.token.jti) (before : i' ∈ st.issued) :
    i'.parent ≠ some p.token.jti := by
  intro parent'
  cases origin with
  | rotated p' _ rotated _ _ row found unconsumed =>
    have same : p'.token.jti = p.token.jti := some.inj (rotated.symm.trans parent)
    have spent := traced.spent i' before p mem parent' row (same ▸ found)
    rw [unconsumed] at spent
    cases spent
  | opened opened => rw [parent] at opened; cases opened
  | legacy c old named => exact traced.apart p mem c old (named.symm.trans parent)

theorem family_apply (f : ℕ) : (w.apply st).family f =
    (w.logged.toList.filter fun i => i.token.familyId = f) ++ st.family f := by
  rw [Store.family, apply_issued, filter_append]
  rfl

/-- A returned token extends its chain or starts a new one. -/
theorem Linear.apply (linear : Linear st) (traced : Traced st) (logs : Logs st w) :
    Linear (w.apply st) where
  once i mem i' mem' p memp parent parent' := by
    rcases mem_issued.1 memp with new | old
    · rcases parent_of_apply traced logs mem parent with ⟨p', before, same⟩ | ⟨c, before, same⟩
      · exact absurd same ((logs.fresh p new).issued p' before)
      · exact absurd same ((logs.fresh p new).legacy c before)
    · rcases mem_issued.1 mem with logged | before
      · rcases mem_issued.1 mem' with logged' | before'
        · exact some.inj (logged.symm.trans logged')
        · exact absurd parent' ((logs.origin i logged).first traced old parent before')
      · rcases mem_issued.1 mem' with logged' | before'
        · exact absurd parent ((logs.origin i' logged').first traced old parent' before)
        · exact linear.once i before i' before' p old parent parent'
  chain root mem opened := by
    rw [family_apply]
    cases logged : w.logged with
    | none =>
      rcases mem_issued.1 mem with new | before
      · rw [logged] at new
        cases new
      · exact linear.chain root before opened
    | some i =>
      rcases mem_issued.1 mem with new | before
      · obtain rfl : i = root := some.inj (logged.symm.trans new)
        have family : st.family i.token.familyId = [] := by
          cases logs.origin i logged with
          | rotated _ _ parent => rw [opened] at parent; cases parent
          | opened _ family =>
            refine filter_eq_nil_iff.2 fun j before => ?_
            simpa using family.issued j before
          | legacy _ _ named isSome => rw [← named, opened] at isSome; cases isSome
        simp only [toList, filter_cons, family]
        exact .first
      · by_cases same : i.token.familyId = root.token.familyId
        · simp only [toList, filter_cons, same]
          have chain := linear.chain root before opened
          cases logs.origin i logged with
          | rotated p memp parent family grant _ found unconsumed =>
            rw [← same, family] at chain
            obtain ⟨_, members⟩ := newest_of_unconsumed traced memp found unconsumed chain
            rw [← same, family, members]
            rw [members] at chain
            exact .next chain parent grant
          | opened _ family => exact absurd same.symm (family.issued root before)
          | legacy c old _ _ family =>
            exact absurd (same ▸ family) (traced.opened root before opened c old)
        · simp only [toList, filter_cons, same]
          exact linear.chain root before opened

theorem linear_start (w) (start : FreshStart w) : Linear w.store := by
  constructor
  all_goals
    rw [start.issued]
    exact fun i mem => absurd mem not_mem_nil

theorem linear_step (w e) (w')
    (linear : Linear w.store) (known : (service cfg).Holds Traced Careful w ∧ Spared w e)
    (taken : (service cfg).step w e = some w') : Linear w'.store := by
  obtain ⟨o, coded, -, -, rfl⟩ := step_eq_some taken
  exact linear.apply known.1.store ((code_does coded).logged (known.1.procs e.1))

/-- Every token that a call has returned is rotated successfully at most once; the returned tokens
of a family form one chain, whose tokens all carry the user, the scopes and the repositories of the
first. -/
theorem refresh_tokens_single_use {w} (h : Reach (service cfg).step FreshStart Spared w) :
    (∀ i ∈ w.store.issued, ∀ i' ∈ w.store.issued, ∀ p ∈ w.store.issued,
      i.parent = some p.token.jti → i'.parent = some p.token.jti → i = i') ∧
    ∀ root ∈ w.store.issued, root.parent = none → Chain root (w.store.family root.token.familyId) ∧
      ∀ i ∈ w.store.family root.token.familyId, i.token.claims.grant = root.token.claims.grant := by
  have known := h.strengthen fun v reached => traced reached
  have linear : Linear w.store := invariant linear_start linear_step known
  refine ⟨linear.once, fun root mem opened => ?_⟩
  have chain := linear.chain root mem opened
  exact ⟨chain, chain.same_grant⟩

theorem unused_fresh : FreshStart unused where
  idle := rfl
  rows _ := rfl
  issued := rfl
  legacy := nofun

theorem spared_of_check (w e) (checked : unprunedCheck w e = true) : Spared w e :=
  fun jti _ pruned _ => (unpruned_of_check _ _ checked jti pruned).elim

/-- A token is rotated, its successor too, and a replay of the first one is refused. -/
theorem refresh_tokens_single_use_rotated : ∃ w,
    Reach (service daily).step FreshStart Spared w ∧ w.store.issued.length = 3 ∧
    (∀ i ∈ w.store.issued, ∀ i' ∈ w.store.issued, ∀ p ∈ w.store.issued,
      i.parent = some p.token.jti → i'.parent = some p.token.jti → i = i') ∧
    ∀ root ∈ w.store.issued, root.parent = none → Chain root (w.store.family root.token.familyId) ∧
      ∀ i ∈ w.store.family root.token.familyId, i.token.claims.grant = root.token.claims.grant := by
  obtain ⟨w, reached, ends⟩ :=
    exists_of_start (service daily).step _ spared_of_check _ unused_fresh
      [(0, .login 0 ⟨0, none, none⟩), (0, .record true), (1, .refresh 0 (dailyClaims 0)),
        (2, .refresh 1 (dailyClaims 0)), (1, .begin), (1, .consume), (1, .mint), (1, .insert),
        (1, .link), (1, .commit true), (2, .begin), (2, .consume), (2, .classify),
        (3, .refresh 1 (dailyClaims 1)), (3, .begin), (3, .consume), (3, .mint), (3, .insert),
        (3, .link), (3, .commit true)] (fun w => w.store.issued.length = 3) (by decide)
  exact ⟨w, reached, ends, refresh_tokens_single_use reached⟩

/-! ### Superseded tokens -/

/-- Of the tokens of a login all but the newest are expired or consumed. -/
def OneLive (st : Store) : Prop :=
  ∀ root ∈ st.issued, root.parent = none → ∀ i ∈ (st.family root.token.familyId).tail,
    Expired st i.token ∨ ∃ row, st.rows i.token.jti = some row ∧ row.consumedAt.isSome

theorem login_has_one_live_token {w} (h : Reach (service cfg).step FreshStart Spared w) :
    OneLive w.store := by
  have known := h.strengthen fun v reached => traced reached
  have linear : Linear w.store := invariant linear_start linear_step known
  intro root mem opened i older
  have chain := linear.chain root mem opened
  have issued (j) : j ∈ w.store.family root.token.familyId → j ∈ w.store.issued :=
    mem_of_mem_filter
  cases members : w.store.family root.token.familyId with
  | nil => rw [members] at older; cases older
  | cons newest rest =>
    rw [members] at older chain issued
    obtain ⟨next, found, parent⟩ := chain.rotated i older
    have logged := issued i (.tail _ older)
    have traced := (traced h).store
    refine (traced.kept i logged).symm.imp_right fun ⟨row, has, _⟩ => ⟨row, has, ?_⟩
    exact traced.spent next (issued next found) i logged parent row has

theorem login_has_one_live_token_rotated : ∃ w, Reach (service daily).step FreshStart Spared w ∧
    (w.store.family 0).length = 2 ∧ OneLive w.store := by
  obtain ⟨w, reached, ends⟩ :=
    exists_of_start (service daily).step _ spared_of_check _ unused_fresh
      [(0, .login 0 ⟨0, none, none⟩), (0, .record true), (1, .refresh 0 (dailyClaims 0)),
        (1, .begin), (1, .consume), (1, .mint), (1, .insert), (1, .link), (1, .commit true)]
      (fun w => (w.store.family 0).length = 2) (by decide)
  exact ⟨w, reached, ends, login_has_one_live_token reached⟩

/-! ### A replay that meets the janitor -/

/-- The clocks of any two replicas differ by less than a day. -/
def Close (st : Store) : Prop := ∀ r r', st.clock r - st.clock r' < cleanupGrace

/-- The clock of replica 1 is less than a day ahead of the others. -/
def skewed : World Store Request ℕ :=
  { unused with
    store := { unused.store with clock := fun r => if r = 1 then seconds 86399 else 0 } }

theorem skewed_fresh : FreshStart skewed where
  idle := rfl
  rows _ := rfl
  issued := rfl
  legacy := nofun

theorem skewed_close : Close skewed.store := by
  intro r _
  simp only [skewed, cleanupGrace, seconds]
  split_ifs <;> omega

/-- Time passes for all replicas alike. -/
def steadyCheck (_ : World Store Request ℕ) (e : ℕ × Action) : Bool :=
  match e.2 with
  | .tickClock _ _ => false
  | _ => true

theorem close_step (w e) (w') (close : Close w.store) (steady : steadyCheck w e = true)
    (taken : (service cfg).step w e = some w') : Close w'.store := by
  obtain ⟨o, coded, -, -, rfl⟩ := step_eq_some taken
  have does := code_does coded
  intro r r'
  have before := close r r'
  obtain ⟨_, effect, _⟩ := o
  cases effect with
  | tick =>
    simp only [service, Effect.apply]
    omega
  | tickClock =>
    have action := does.drifts rfl
    simp only [steadyCheck, action] at steady
    cases steady
  | _ => exact before

theorem reach_close {w}
    (h : Reach (service cfg).step (· = skewed) (fun w e => steadyCheck w e = true) w) :
    Reach (service cfg).step FreshStart (fun w _ => Close w.store) w := by
  have known := h.strengthen fun v reached =>
    invariant (fun _ start => start ▸ skewed_close) close_step reached
  exact known.mono (fun _ start => start ▸ skewed_fresh) fun _ _ allowed => allowed.1

/-- A consumed token is replayed in its last second; before the replay reads the row its update has
not matched, the janitor of replica 1 prunes it, and the replay mints a second successor. -/
theorem rotated_twice : ∃ w, Reach (service daily).step FreshStart (fun w _ => Close w.store) w ∧
    ∃ i ∈ w.store.issued, ∃ i' ∈ w.store.issued, ∃ p ∈ w.store.issued,
      i.parent = some p.token.jti ∧ i'.parent = some p.token.jti ∧ i.token.jti ≠ i'.token.jti := by
  obtain ⟨w, reached, ends⟩ :=
    exists_of_start (service daily).step (· = skewed) (fun w e => @id (steadyCheck w e = true))
      skewed rfl
      [(0, .login 0 ⟨0, none, none⟩), (0, .record true), (1, .refresh 0 (dailyClaims 0)),
        (1, .begin), (1, .consume), (1, .mint), (1, .insert), (1, .link), (1, .commit true),
        (1, .tick 86400000000), (2, .refresh 0 (dailyClaims 0)), (2, .begin), (2, .consume),
        (1, .tick 2000000), (3, .clean 1), (3, .prune 0), (2, .classify), (2, .mint),
        (2, .record true)]
      (fun w => ∃ i ∈ w.store.issued, ∃ i' ∈ w.store.issued, ∃ p ∈ w.store.issued,
        i.parent = some p.token.jti ∧ i'.parent = some p.token.jti ∧ i.token.jti ≠ i'.token.jti) (by decide)
  exact ⟨w, reach_close reached, ends⟩

end ArtifactKeeper.RefreshTokens
