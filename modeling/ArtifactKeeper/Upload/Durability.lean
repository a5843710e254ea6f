import ArtifactKeeper.Upload.LifeCycle

/-!
# Durability of staged chunks

`Durable` says that a session which may still be completed has every completed chunk in storage.  In
`staged_chunk_lost` a refused upload deletes its object after another upload of the chunk has
committed its own under the same key.
-/

namespace ArtifactKeeper.Upload

open StepSystem Function

/-- The staged objects are no longer needed: the session ended or was purged. -/
def Session.settled (s : Session) : Bool := s.status.terminal || s.stagingPurgedAt.isSome

/-- Every completed chunk of a live session is stored with the bytes that were acknowledged. -/
def Durable (st : Store) : Prop :=
  st.session.settled = false → ∀ row ∈ st.chunks, row.status = .completed →
    ∃ data, st.acknowledged row.chunkIndex = some data ∧ st.objects row.chunkIndex = some data

/-- The request has stored chunk `i` and may still commit it. -/
def Request.hasStored (i : ℤ) : Request → Prop
  | .staged u _ _ | .counted u _ _ _ _ => u.chunkIndex = i
  | _ => False

variable (w : World Store Request Lock)

/-- Chunk `i` is neither completed nor stored by an upload in flight. -/
def Unclaimed (i : ℤ) : Prop :=
  (∀ row ∈ w.store.chunks, row.chunkIndex = i → row.status ≠ .completed) ∧
    ∀ j, ¬(w.pool.proc j).hasStored i

/-- The step deletes nothing an upload still needs: a refused upload removes its object before the
chunk is stored again, a completer finalizes under its own lease, and the orphan of a live session
is left alone. -/
def Undisturbed (e : ℕ × Action) : Prop :=
  match e.2, w.pool.proc e.1 with
  | .deleteRefused, .refused u | .deleteRefusedFailed true, .refused u =>
    w.store.session.settled ∨ Unclaimed w u.chunkIndex
  | .finalizeCompleted, .verified s =>
    w.store.session.settled ∨ w.store.session.heldBy s.stateToken
  | .deleteStaged _, .draining _ | .deleteStagedFailed _ true, .draining _ => w.store.session.settled
  | _, _ => True

def StagedOpen (st : Store) : Request → Prop
  | .staged u _ _ | .counted u _ _ _ _ =>
    st.session.settled = false → st.objects u.chunkIndex = some u.data
  | .purging _ _ | .reaping _ => st.session.settled
  | _ => True

variable {st : Store} {q : Request} {a : Action} {o : Statement} {w : Effect}

/-! ### Which action leads where -/

theorem updateSession_next (matched : Bool) (w : Effect) (next : Request) :
    (Statement.updateSession matched w next next).next = next := by
  cases matched <;> rfl

variable {u : ChunkUpload} {i : ℤ}

theorem refused_delete (h : code st (.refused u) a = some o) (effect : o.effect = .delete i) :
    a = .deleteRefused ∨ a = .deleteRefusedFailed true := by
  cases a <;> simp [code, deleteStaged, deleteStagedFailed, stampPurged] at h ⊢ <;> subst h
  case deleteRefusedFailed landed =>
    cases landed with
    | false => cases effect
    | true => rfl
  all_goals simp [Statement.read, Statement.write] at effect

theorem verified_purges {s : Session} {r : List ℤ} {reply : Reply}
    (h : code st (.verified s) a = some o) (next : o.next = .purging r reply) :
    a = .finalizeCompleted := by
  cases a <;> simp [code, deleteStaged, deleteStagedFailed, stampPurged] at h ⊢ <;> subst h <;>
    simp [Statement.read, Statement.write, renewLease, finalizeCompletedFailed, updateSession_next]
      at next

theorem draining_delete {r : List ℤ} (h : code st (.draining r) a = some o)
    (effect : o.effect = .delete i) :
    (∃ j, a = .deleteStaged j) ∨ ∃ j, a = .deleteStagedFailed j true := by
  cases a <;> simp [code] at h ⊢
  case stampPurged =>
    cases r <;> simp [stampPurged] at h
    subst h
    cases effect
  case deleteStagedFailed landed =>
    simp only [deleteStagedFailed, Option.ite_none_right_eq_some, Option.some.injEq] at h
    obtain ⟨-, rfl⟩ := h
    cases landed with
    | false => cases effect
    | true => rfl
  all_goals
    subst h
    cases effect

/-! ### One write -/

theorem settled_apply (warranted : Warranted st q w) (mover : UploadOpen st q)
    (settled : st.session.settled) : (w.apply st).session.settled := by
  simp only [Session.settled, Bool.or_eq_true] at settled ⊢
  rcases settled with terminal | purged
  · left
    rcases status_apply warranted mover with same | next
    · rw [same]; exact terminal
    · rw [Status.next_of_terminal terminal] at next; cases next
  · right
    cases w <;> first | exact purged | rfl

theorem live_before (warranted : Warranted st q w) (mover : UploadOpen st q)
    (live : (w.apply st).session.settled = false) : st.session.settled = false := by
  by_contra settled
  rw [settled_apply warranted mover (Bool.not_eq_false _ ▸ settled)] at live
  cases live

theorem durable_completeChunk {t : ℤ} (durable : Durable st) (live : st.session.settled = false)
    (stored : st.objects u.chunkIndex = some u.data) :
    Durable ((Effect.completeChunk u t).apply st) := by
  intro _ row mem done
  simp only [Effect.apply] at mem ⊢
  rcases Rows.mem_update mem with ⟨old, other⟩ | ⟨old, _, index, rfl⟩
  · rw [update_of_ne other]
    exact durable live row old done
  · refine ⟨u.data, ?_, ?_⟩
    · simp [ChunkRow.complete, index]
    · simpa [ChunkRow.complete, index] using stored

theorem durable_objects {data : Option Bytes} (durable : Durable st)
    (unfinished : ∀ row ∈ st.chunks, row.chunkIndex = i → row.status ≠ .completed) :
    Durable { st with objects := update st.objects i data } := by
  intro live row mem done
  have other : row.chunkIndex ≠ i := fun same => unfinished row mem same done
  obtain ⟨bytes, acked, stored⟩ := durable live row mem done
  exact ⟨bytes, acked, (update_of_ne other _ _).trans stored⟩

theorem Pending.unfinished (acc : Accounted st) (pending : Pending st u) :
    ∀ row ∈ st.chunks, row.chunkIndex = u.chunkIndex → row.status ≠ .completed := by
  obtain ⟨_, mem, index, isOpen, _⟩ := pending
  intro _ otherMem same
  rw [List.inj_on_of_nodup_map acc.unique otherMem mem (same.trans index.symm)]
  exact isOpen

variable {e : ℕ × Action}

/-- A delete under `Undisturbed` hits a settled session or an unclaimed chunk. -/
theorem delete_harmless {w} (allowed : Undisturbed w e)
    (staged : StagedOpen w.store (w.pool.proc e.1))
    (coded : code w.store (w.pool.proc e.1) e.2 = some o) (effect : o.effect = .delete i) :
    w.store.session.settled ∨ Unclaimed w i := by
  have warranted := (code_sound coded).warranted
  rw [effect] at warranted
  rcases warranted with ⟨u, phase, rfl⟩ | ⟨r, _, phase⟩ | ⟨r, phase⟩ | ⟨r, phase⟩
  · rw [phase] at coded
    rcases refused_delete coded effect with action | action <;>
      simpa only [Undisturbed, action, phase] using allowed
  · rw [phase] at staged; exact .inl staged
  · rw [phase] at staged; exact .inl staged
  · rw [phase] at coded
    left
    rcases draining_delete coded effect with ⟨j, action⟩ | ⟨j, action⟩ <;>
      simpa only [Undisturbed, action, phase] using allowed

/-! ### Steps -/

theorem holds_of_hasStored (stored : q.hasStored i) : .chunk i ∈ q.holds := by
  cases q with
  | staged u | counted u =>
    obtain rfl : u.chunkIndex = i := stored
    simp [Request.holds]
  | _ => cases stored

theorem stagedOpen_apply (h : StagedOpen st q)
    (settled : st.session.settled → (w.apply st).session.settled)
    (kept : ∀ i, q.hasStored i → st.session.settled = false →
      (w.apply st).objects i = st.objects i) : StagedOpen (w.apply st) q := by
  have live (after : (w.apply st).session.settled = false) : st.session.settled = false := by
    by_contra before
    rw [settled (by simpa using before)] at after
    cases after
  cases q with
  | staged u | counted u =>
    intro after
    rw [kept u.chunkIndex rfl (live after)]
    exact h (live after)
  | purging | reaping => exact settled h
  | _ => trivial

theorem stagedOpen_of_arrival {w} (allowed : Undisturbed w e)
    (mover : UploadOpen w.store (w.pool.proc e.1)) (h : StagedOpen w.store (w.pool.proc e.1))
    (coded : code w.store (w.pool.proc e.1) e.2 = some o)
    (arrival : Arrival w.store (w.pool.proc e.1) o.effect o.next) :
    StagedOpen (o.effect.apply w.store) o.next := by
  have keeps := settled_apply (code_sound coded).warranted mover
  cases next : o.next with
  | staged =>
    rw [next] at arrival
    obtain ⟨_, effect⟩ := arrival
    rw [effect]
    exact fun _ => update_self ..
  | counted =>
    rw [next] at arrival
    obtain ⟨effect, phase, _⟩ := arrival
    rw [phase] at h
    rw [effect]
    exact h
  | purging =>
    rw [next] at arrival
    rcases arrival with terminal | ⟨s, phase, lost⟩ | ⟨i, _, _, _, phase⟩
    · simp only [StagedOpen, Session.settled, terminal, Bool.true_or]
    · rw [phase] at coded
      have action := verified_purges coded next
      simp only [Undisturbed, action, phase, lost, Bool.false_eq_true, or_false] at allowed
      exact keeps allowed
    · rw [phase] at h
      exact keeps h
  | reaping =>
    rw [next] at arrival
    rcases arrival with ⟨effect, reapable⟩ | ⟨i, _, _, phase⟩
    · rw [effect]
      simp only [Session.reapable, Bool.and_eq_true] at reapable
      simp only [StagedOpen, Effect.apply, Session.settled, reapable.2, Bool.true_or]
    · rw [phase] at h
      exact keeps h
  | _ => trivial

theorem durable_apply {w} (durable : Durable w.store)
    (uploads : service.Holds Accounted UploadOpen w) (allowed : Undisturbed w e)
    (staged : StagedOpen w.store (w.pool.proc e.1))
    (coded : code w.store (w.pool.proc e.1) e.2 = some o) : Durable (o.effect.apply w.store) := by
  have warranted := (code_sound coded).warranted
  have mover := uploads.procs e.1
  intro live
  have before := live_before warranted mover live
  revert live
  change Durable (o.effect.apply w.store)
  cases effect : o.effect with
  | completeChunk =>
    rw [effect] at warranted
    obtain ⟨s, c, b, phase⟩ := warranted
    rw [phase] at staged
    exact durable_completeChunk durable before (staged before)
  | put =>
    rw [effect] at warranted
    obtain ⟨u, s, t, phase, rfl, rfl⟩ := warranted
    rw [phase] at mover
    exact durable_objects durable (Pending.unfinished uploads.store mover)
  | delete =>
    rcases delete_harmless allowed staged coded effect with settled | unclaimed
    · rw [settled] at before; cases before
    · exact durable_objects durable unclaimed.1
  | _ => exact fun _ => durable before

theorem durable_own : service.Own (Known Undisturbed) Durable StagedOpen := by
  intro w e o holds ⟨uploads, allowed⟩ coded
  have staged := holds.procs e.1
  have sound := code_sound coded
  refine ⟨durable_apply holds.store uploads allowed staged coded, ?_⟩
  change StagedOpen (o.effect.apply w.store) o.next
  rcases sound.arrival with ⟨stays, passive⟩ | arrival
  · rw [stays]
    refine stagedOpen_apply staged (settled_apply sound.warranted (uploads.procs e.1)) fun i _ _ => ?_
    cases effect : o.effect <;> rw [effect] at passive <;> first | rfl | cases passive
  · exact stagedOpen_of_arrival allowed (uploads.procs e.1) staged coded arrival

theorem durable_others : service.Others (Known Undisturbed) Durable StagedOpen := by
  intro w e o j holds ⟨uploads, allowed⟩ coded _ apart
  have sound := code_sound coded
  refine stagedOpen_apply (holds.procs j)
    (settled_apply sound.warranted (uploads.procs e.1)) fun i stored live => ?_
  have unlocked := (apart _ (holds_of_hasStored stored)).2.2
  have warranted := sound.warranted
  cases effect : o.effect with
  | put =>
    rw [effect] at warranted
    obtain ⟨u, s, t, phase, rfl, rfl⟩ := warranted
    refine update_of_ne (fun same => unlocked ?_) _ _
    change _ ∈ Request.holds _
    simp [phase, Request.holds, same]
  | delete k =>
    rcases delete_harmless allowed (holds.procs e.1) coded effect with settled | unclaimed
    · rw [settled] at live; cases live
    · have other : i ≠ k := by
        rintro rfl
        exact unclaimed.2 j stored
      exact update_of_ne other _ _
  | _ => rfl

/-- In every run of undisturbed steps the completed chunks of a live session are stored with the
acknowledged bytes. -/
theorem staged_chunks_durable {w}
    (h : Reach service.step Fresh Undisturbed w) : Durable w.store := by
  refine (Protocol.invariant durable_own durable_others (fun w fresh => ?_)
    (h.strengthen fun _ => accounted)).store
  obtain ⟨p, _, _, _, made, rfl⟩ := fresh.created
  obtain ⟨_, _, _, _, rfl⟩ := createSession_ok made
  refine ⟨fun _ row mem done => ?_, fun _ => trivial, Pool.coherent_idle _ rfl⟩
  obtain ⟨i, _, rfl⟩ := List.mem_map.1 mem
  cases done

/-- Actions that every state leaves undisturbed. -/
def Action.harmless : Action → Bool
  | .deleteRefused | .deleteRefusedFailed _ | .finalizeCompleted | .deleteStaged _
  | .deleteStagedFailed _ _ => false
  | _ => true

theorem undisturbed_of_harmless (w e) (h : e.2.harmless = true) : Undisturbed w e := by
  unfold Undisturbed
  split <;> first | trivial | simp_all [Action.harmless]

theorem staged_chunks_durable_duplicate :
    ∃ w, Reach service.step Fresh Undisturbed w ∧ w.store.session.settled = false ∧
      w.store.session.completedChunks = 1 ∧ Durable w.store := by
  obtain ⟨w, reach, live, one⟩ : ∃ w, Reach service.step Fresh Undisturbed w ∧
      w.store.session.settled = false ∧ w.store.session.completedChunks = 1 :=
    Reach.exists_of_run undisturbed_of_harmless (freshWorld ⟨1, 3, 0, none⟩ 0) duplicateUpload _
      (fun _ made => .start ⟨_, _, made⟩) (by decide)
  exact ⟨w, reach, live, one, staged_chunks_durable reach⟩

/-! ### A lost chunk -/

/-- A completion attempt refuses an upload and releases its lease; the chunk is uploaded again
before the refused upload deletes its object. -/
def lateDelete : List (ℕ × Action) :=
  let u : ChunkUpload := ⟨0, 0, [1, 2, 3], 1⟩
  [(0, .uploadChunk u), (0, .lockChunk), (0, .putChunk),
    (1, .completeSession 1), (1, .claimLease), (0, .countChunk),
    (1, .countIncomplete), (1, .releaseLease true),
    (2, .uploadChunk u), (2, .lockChunk), (2, .putChunk), (2, .countChunk), (2, .commitChunk),
    (0, .deleteRefused)]

/-- A reachable live session has a completed chunk whose object is gone. -/
theorem staged_chunk_lost : ∃ w, Reach service.step Fresh Any w ∧ ¬Durable w.store := by
  obtain ⟨w, reach, live, row, mem, done, gone⟩ : ∃ w, Reach service.step Fresh Any w ∧
      w.store.session.settled = false ∧ ∃ row ∈ w.store.chunks, row.status = .completed ∧
        w.store.objects row.chunkIndex = none :=
    Reach.exists_of_run (fun w e (_ : unchecked w e = true) => trivial)
      (freshWorld ⟨1, 3, 0, none⟩ 0) lateDelete _
      (fun _ made => .start ⟨_, _, made⟩) (by decide)
  refine ⟨w, reach, fun durable => ?_⟩
  obtain ⟨_, _, stored⟩ := durable live row mem done
  rw [gone] at stored
  cases stored

end ArtifactKeeper.Upload
