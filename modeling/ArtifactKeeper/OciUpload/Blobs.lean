import ArtifactKeeper.OciUpload.Content

/-!
# Objects under blob keys

As long as no completion claims a session that another request still has claimed (`steady`), every
object under a blob key has the digest of the key.
-/

namespace ArtifactKeeper.OciUpload

open StepSystem

variable {sha256 : Bytes → Sha256Digest} {st : Store} {q : Request} {a : Action} {o : Statement}
  {w : Effect}

/-- A completion claims open sessions only. -/
def steady (w : World Store Request Lock) (e : ℕ × Action) : Bool :=
  match e.2 with
  | .claimCompletion session _ =>
    (w.store.sessions session).all fun s => !s.isClaimable w.store.now || s.state = .open
  | _ => true

def Steady (w : World Store Request Lock) (e : ℕ × Action) : Prop := steady w e = true

/-- Every object under a blob key has the digest of the key. -/
def BlobsAddressed (sha256 : Bytes → Sha256Digest) (st : Store) : Prop :=
  ∀ digest x, st.objects (.blob digest) = some x → sha256 x = digest

/-! ### Requests on their way to the commit -/

/-- The lease of a completion that has not tried to commit. -/
def Request.working : Request → Option (ℕ × Lease)
  | .completing c | .skipping c _ | .received c _ | .assembling c _ _ _ _ => c.target
  | .promoting p | .promoted p _ => p.target
  | _ => none

/-- The lease is in force. -/
def Working (st : Store) (q : Request) : Prop := Bound st q.working

theorem working_of_completion {c : Completion} (h : q.completion = some c) :
    q.working = q.target := by
  cases q <;> cases h <;> rfl

theorem target_of_working {t : ℕ × Lease} (h : q.working = some t) : q.target = some t := by
  cases q <;> first | exact h | cases h

theorem commits_phase (warranted : Warranted sha256 st q a w) (phase : ∀ p content,
    q ≠ .promoted p content) : w.commits = none := by
  cases w with
  | commitBlob =>
    obtain ⟨p, content, same, _⟩ := warranted
    exact absurd same (phase p content)
  | _ => rfl

theorem working_next (sound : Sound sha256 st q a o) {t : ℕ × Lease} (h : o.next.working = some t) :
    (q.working = some t ∧ o.effect.commits = none) ∨ o.effect = .claim t.1 t.2 := by
  rcases sound.target t (target_of_working h) with target | claim
  · have ofCompletion {c : Completion} (completion : q.completion = some c) :
        q.working = some t ∧ o.effect.commits = none := by
      refine ⟨(working_of_completion completion).trans target, commits_phase sound.warranted ?_⟩
      rintro p _ rfl
      cases completion
    have ofNext {c : Completion} (next : o.next.completion = some c) :
        (q.working = some t ∧ o.effect.commits = none) ∨ o.effect = .claim t.1 t.2 := by
      rcases sound.completion c next with completion | ⟨effect, _⟩
      · exact .inl (ofCompletion completion)
      · cases (target_of_completion next).symm.trans (target_of_working h)
        exact .inr effect
    cases next : o.next with
    | completing | skipping | received | assembling =>
      exact ofNext (by rw [next]; rfl)
    | promoting p =>
      rcases sound.promoting p next with rfl | ⟨⟨owner, _⟩ | ⟨c, completion, _⟩, _⟩
      · exact .inl ⟨target, commits_phase sound.warranted nofun⟩
      · rw [next] at h
        simp [Request.working, Promotion.target, owner] at h
      · exact .inl (ofCompletion completion)
    | promoted p content =>
      rcases sound.promoted p content next with ⟨_, rfl, uncommitted⟩ | ⟨rfl, _⟩
      · exact .inl ⟨target, uncommitted⟩
      · exact .inl ⟨target, commits_phase sound.warranted nofun⟩
    | _ =>
      rw [next] at h
      cases h
  · exact .inr claim

theorem unclaimed {v e} (tables : Tables sha256 v.store)
    (steady : Steady v e) {id : ℕ} {s : Session} {lease : Lease}
    (found : v.store.sessions id = some s) (leased : s.stateToken.isSome)
    (warranted : Warranted sha256 v.store (v.pool.proc e.1) e.2 w) : w ≠ .claim id lease := by
  rintro rfl
  obtain ⟨_, _, _, same, how⟩ := warranted
  cases found.symm.trans same
  have isOpen : s.state = .open := by
    rcases how with ⟨isOpen, _⟩ | ⟨_, claimable, _, action⟩
    · exact isOpen
    · simpa [Steady, OciUpload.steady, action, found, claimable] using steady
  rw [(tables id s found).lease isOpen] at leased
  cases leased

/-! ### Every steady run -/

theorem blobsAddressed_apply (checked : Checked sha256 st q) (working : Working st q)
    (warranted : Warranted sha256 st q a w) (h : BlobsAddressed sha256 st) :
    BlobsAddressed sha256 (w.apply st) := by
  intro digest x found
  rcases apply_object found with old | rfl | ⟨_, rfl, same⟩
  · exact h digest x old
  · cases warranted
  · cases same
    obtain ⟨p, rfl, rfl, source⟩ := warranted
    exact ((checked.promoting p rfl).2.2 working x source).1

theorem working_own : (service sha256).Own
    (fun w e => (Known sha256 w ∧ (service sha256).Holds (Committed sha256) (Checked sha256) w) ∧
      Steady w e) (BlobsAddressed sha256) Working := by
  intro v e o holds ⟨⟨known, checked⟩, steady⟩ coded
  have sound := code_sound coded
  have warranted := sound.warranted
  have working := holds.procs e.1
  refine ⟨blobsAddressed_apply (checked.procs e.1) working warranted holds.store, fun t next => ?_⟩
  rcases working_next sound next with ⟨old, uncommitted⟩ | effect
  · obtain ⟨s, found, leased⟩ := working t old
    refine session_stays found leased ?_ ?_ ?_ ?_ ?_
    · intro records
      obtain ⟨u, pending, same⟩ := records_pending warranted records
      exact (known.keys.procs e.1).pending u pending
        (same ▸ (known.keys.procs e.1).target t (target_of_working old))
    · exact fun lease => unclaimed known.parts.store steady found (by rw [leased]; rfl) warranted
    · intro effect
      rw [effect] at warranted
      obtain ⟨_, _, phase, _⟩ := warranted
      rw [phase] at old
      cases old
    · intro effect
      rw [effect] at warranted
      obtain ⟨_, phase, _⟩ := warranted
      rw [phase] at old
      cases old
    · intro _ commits
      rw [uncommitted] at commits
      cases commits
  · rw [effect] at warranted ⊢
    obtain ⟨_, _, s, found, _⟩ := warranted
    exact ⟨_, by simp [service, Effect.apply, Store.updateSession, Store.setSession, found]; rfl, rfl⟩

theorem working_others : (service sha256).Others
    (fun w e => (Known sha256 w ∧ (service sha256).Holds (Committed sha256) (Checked sha256) w) ∧
      Steady w e) (BlobsAddressed sha256) Working := by
  intro v e o j holds ⟨⟨known, _⟩, steady⟩ coded other _ t old
  have warranted := (code_sound coded).warranted
  have target := target_of_working old
  obtain ⟨s, found, leased⟩ := holds.procs j t old
  have foreign {lease : Lease} (mine : (v.pool.proc e.1).target = some (t.1, lease)) :
      s.stateToken ≠ some lease := by
    intro same
    cases leased.symm.trans same
    exact known.apart j e.1 other _ (ticket_of_target target) (ticket_of_target mine)
  refine session_stays found leased ?_ ?_ ?_ ?_ ?_
  · intro records
    obtain ⟨u, pending, same⟩ := records_pending warranted records
    exact (known.keys.procs e.1).pending u pending (same ▸ (known.keys.procs j).target t target)
  · exact fun lease => unclaimed known.parts.store steady found (by rw [leased]; rfl) warranted
  · intro effect
    rw [effect] at warranted
    obtain ⟨_, _, phase, same, token⟩ := warranted
    cases found.symm.trans same
    exact foreign (by rw [phase]; rfl) token
  · intro effect
    rw [effect] at warranted
    obtain ⟨token, phase, owned⟩ := warranted
    obtain ⟨_, same, token⟩ := bound_of_owns owned _ rfl
    cases found.symm.trans same
    exact foreign (by rw [phase]; rfl) token
  · intro _ commits session
    cases effect : o.effect with
    | commitBlob =>
      rw [effect] at commits warranted
      cases commits
      obtain ⟨p, _, phase, rfl, owned⟩ := warranted
      obtain ⟨owner, ownerKnown, same⟩ := Option.map_eq_some_iff.1 session
      have mine : p.target = some (t.1, .completion owner.2) := by
        rw [Promotion.target, ownerKnown, ← same]
        rfl
      obtain ⟨_, same, token⟩ := bound_of_owns owned _ mine
      cases found.symm.trans same
      exact foreign (by rw [phase]; exact mine) token
    | _ =>
      rw [effect] at commits
      cases commits

/-- Every object under a blob key has the digest of the key, as long as leases do not expire. -/
theorem blob_objects_addressed {w}
    (h : Reach (service sha256).step (fun w => Quiescent w ∧ BlobsAddressed sha256 w.store) Steady w) :
    BlobsAddressed sha256 w.store := by
  have facts (w : World Store Request Lock) (reached : Reach (service sha256).step
      (fun w => Quiescent w ∧ BlobsAddressed sha256 w.store) Steady w) :
      Known sha256 w ∧ (service sha256).Holds (Committed sha256) (Checked sha256) w := by
    have plain : Reach (service sha256).step Quiescent Steady w :=
      reached.mono (fun _ start => start.1) fun _ _ allowed => allowed
    exact ⟨known plain, checked plain⟩
  refine (Protocol.invariant working_own working_others (fun w start => ?_)
    (h.strengthen facts)).store
  exact .of_idle start.1.quiet rfl start.2 nofun

theorem blob_objects_addressed_monolithic :
    ∃ w, Reach (service sampleDigest).step
        (fun w => Quiescent w ∧ BlobsAddressed sampleDigest w.store) Steady w ∧
      w.store.objects (.blob (sampleDigest [])) = some [1, 2] ∧
      BlobsAddressed sampleDigest w.store := by
  obtain ⟨w, reached, ends⟩ := Reach.exists_of_start (service sampleDigest).step
    (fun w => Quiescent w ∧ BlobsAddressed sampleDigest w.store) (fun w e => @id (Steady w e)) _
    ⟨quiescent_empty, nofun⟩ [(0, .putMonolithic sampleParam [1, 2]), (0, .copy)]
    (fun w => w.store.objects (.blob (sampleDigest [])) = some [1, 2]) (by decide)
  exact ⟨w, reached, ends, blob_objects_addressed reached⟩

end ArtifactKeeper.OciUpload
