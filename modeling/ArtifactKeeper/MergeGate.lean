import ArtifactKeeper.Library.StepSystem

/-!
# The gate of merges

`get_or_merge` serves a document from the cache if `validate` accepts it.  Else it waits for the merge
of its key that is in flight, or spawns one.  The task of a merge stores its document and then takes
itself out of the map; one that panics does not come to that.
-/

namespace ArtifactKeeper.MergeGate

open StepSystem List Option Function

variable {K D : Type}

inductive Failure
  | response
  | internal

/-- What a merge returns; `D` is the type of documents. -/
abbrev MergeOutcome (D : Type) := Except Failure D

/-- How far `lead` has come. -/
inductive Progress (D : Type)
  | running
  | merged (outcome : MergeOutcome D)
  | stored (outcome : MergeOutcome D)
  | ended (outcome : MergeOutcome D)

structure Task (K D : Type) where
  key : K
  progress : Progress D

inductive Answer (D : Type)
  | validated (doc : D)
  | merged (task : ℕ) (outcome : MergeOutcome D)

inductive Phase (D : Type)
  | looking
  | validating (hit : D)
  | rejected
  | joining
  | waiting (task : ℕ)
  | returned (answer : Answer D)

/-- A call, with the tasks that had ended when it began (only observed). -/
structure Caller (K D : Type) where
  key : K
  before : List ℕ
  phase : Phase D

structure State (K D : Type) where
  cache : K → Option D
  inflight : K → Option ℕ
  tasks : ℕ → Option (Task K D)
  spawned : ℕ
  callers : ℕ → Option (Caller K D)

structure Config (D : Type) where
  caching : Bool
  cacheable : D → Bool

inductive Event (K D : Type)
  | call (c : ℕ) (key : K)
  | look (c : ℕ)
  | validate (c : ℕ) (accepts : Bool)
  | invalidate (c : ℕ)
  | join (c : ℕ)
  | receive (c : ℕ)
  | disconnect (c : ℕ)
  | finish (i : ℕ) (outcome : MergeOutcome D)
  | panic (i : ℕ)
  | store (i : ℕ)
  | remove (i : ℕ)
  | evict (key : K)

def Task.hasEnded : Task K D → Bool
  | ⟨_, .ended _⟩ => true
  | _ => false

variable (s : State K D)

def State.ended : List ℕ :=
  (range s.spawned).filter fun i => (s.tasks i).any Task.hasEnded

def State.setCaller (c : ℕ) (caller : Option (Caller K D)) : State K D :=
  { s with callers := update s.callers c caller }

def State.setTask (i : ℕ) (key : K) (progress : Progress D) : State K D :=
  { s with tasks := update s.tasks i (some ⟨key, progress⟩) }

section Step

variable [DecidableEq K]

/-- The part of `get_or_merge` under the lock. -/
def State.join (s : State K D) (c : ℕ) (key : K) (before : List ℕ) : State K D :=
  match s.inflight key with
  | some i => s.setCaller c (some ⟨key, before, .waiting i⟩)
  | none =>
    { (s.setTask s.spawned key .running).setCaller c (some ⟨key, before, .waiting s.spawned⟩) with
      inflight := update s.inflight key (some s.spawned)
      spawned := s.spawned + 1 }

def step (cfg : Config D) (s : State K D) : Event K D → Option (State K D)
  | .call c key =>
    match s.callers c with
    | none => some (s.setCaller c (some ⟨key, s.ended, .looking⟩))
    | some _ => none
  | .look c =>
    match s.callers c with
    | some ⟨key, before, .looking⟩ =>
      match if cfg.caching then s.cache key else none with
      | some hit => some (s.setCaller c (some ⟨key, before, .validating hit⟩))
      | none => some (s.setCaller c (some ⟨key, before, .joining⟩))
    | _ => none
  | .validate c accepts =>
    match s.callers c with
    | some ⟨key, before, .validating hit⟩ =>
      let phase := if accepts then .returned (.validated hit) else .rejected
      some (s.setCaller c (some ⟨key, before, phase⟩))
    | _ => none
  | .invalidate c =>
    match s.callers c with
    | some ⟨key, before, .rejected⟩ =>
      some { s.setCaller c (some ⟨key, before, .joining⟩) with
        cache := update s.cache key none }
    | _ => none
  | .join c =>
    match s.callers c with
    | some ⟨key, before, .joining⟩ => some (s.join c key before)
    | _ => none
  | .receive c =>
    match s.callers c with
    | some ⟨key, before, .waiting i⟩ =>
      match s.tasks i with
      | some ⟨_, .ended outcome⟩ =>
        some (s.setCaller c (some ⟨key, before, .returned (.merged i outcome)⟩))
      | _ => none
    | _ => none
  | .disconnect c => some (s.setCaller c none)
  | .finish i outcome =>
    match s.tasks i with
    | some ⟨key, .running⟩ => some (s.setTask i key (.merged outcome))
    | _ => none
  | .panic i =>
    match s.tasks i with
    | some ⟨key, .running⟩ => some (s.setTask i key (.ended (.error .internal)))
    | _ => none
  | .store i =>
    match s.tasks i with
    | some ⟨key, .merged outcome⟩ =>
      let kept := outcome.toOption.filter fun doc => cfg.caching && cfg.cacheable doc
      some { s.setTask i key (.stored outcome) with
        cache := update s.cache key (kept.or (s.cache key)) }
    | _ => none
  | .remove i =>
    match s.tasks i with
    | some ⟨key, .stored outcome⟩ =>
      some { s.setTask i key (.ended outcome) with inflight := update s.inflight key none }
    | _ => none
  | .evict key => some { s with cache := update s.cache key none }

end Step

def start : State K D := ⟨fun _ => none, fun _ => none, fun _ => none, 0, fun _ => none⟩

/-! ### Invariant -/

variable {cfg : Config D} {s s' : State K D} {key : K} {i c : ℕ} {p p' : Progress D} {Sane : K → Prop}

def Progress.IsOpen (p : Progress D) : Prop := ∀ outcome, p ≠ .ended outcome

def Phase.Fits (tasks : ℕ → Option (Task K D)) (key : K) (before : List ℕ) : Phase D → Prop
  | .waiting i => i ∉ before ∧ ∃ p, tasks i = some ⟨key, p⟩
  | .returned (.merged i outcome) => i ∉ before ∧ tasks i = some ⟨key, .ended outcome⟩
  | _ => True

structure Caller.Ok (Sane : K → Prop) (tasks : ℕ → Option (Task K D)) (caller : Caller K D) : Prop where
  before : ∀ i ∈ caller.before, ∃ key outcome, tasks i = some ⟨key, .ended outcome⟩
  phase : Sane caller.key → caller.phase.Fits tasks caller.key caller.before

/-- `Sane` are the keys whose merges do not panic: for them the map has the tasks that have not ended. -/
structure Inv (Sane : K → Prop) (s : State K D) : Prop where
  inflight : ∀ key, Sane key → ∀ i,
    s.inflight key = some i ↔ ∃ p, s.tasks i = some ⟨key, p⟩ ∧ p.IsOpen
  spawned : ∀ i, s.spawned ≤ i → s.tasks i = none
  callers : ∀ c caller, s.callers c = some caller → caller.Ok Sane s.tasks

/-- A task that has not ended goes on, or a new one begins. -/
theorem Caller.Ok.setTask {caller : Caller K D} {tasks : ℕ → Option (Task K D)} (ok : caller.Ok Sane tasks)
    (unended : ∀ key' p, tasks i = some ⟨key', p⟩ → key' = key ∧ p.IsOpen) :
    caller.Ok Sane (update tasks i (some ⟨key, p'⟩)) := by
  have kept {j key' outcome} (found : tasks j = some ⟨key', .ended outcome⟩) :
      update tasks i (some ⟨key, p'⟩) j = some ⟨key', .ended outcome⟩ := by
    rw [update_of_ne, found]
    rintro rfl
    exact (unended _ _ found).2 outcome rfl
  refine ⟨fun j mem => ?_, fun sane => ?_⟩
  · obtain ⟨key', outcome, found⟩ := ok.before j mem
    exact ⟨key', outcome, kept found⟩
  · have fits := ok.phase sane
    unfold Phase.Fits at fits ⊢
    split
    · next j here =>
      simp only [here] at fits
      obtain ⟨free, q, found⟩ := fits
      by_cases same : j = i
      · subst same
        exact ⟨free, p', by rw [update_self, (unended _ _ found).1]⟩
      · exact ⟨free, q, by rwa [update_of_ne same]⟩
    · next here =>
      simp only [here] at fits
      exact ⟨fits.1, kept fits.2⟩
    · trivial

section

variable (inv : Inv Sane s)
include inv

theorem Inv.cache {cache : K → Option D} : Inv Sane { s with cache } :=
  ⟨inv.inflight, inv.spawned, inv.callers⟩

theorem Inv.setCaller {caller : Option (Caller K D)}
    (ok : ∀ new, caller = some new → new.Ok Sane s.tasks) : Inv Sane (s.setCaller c caller) where
  inflight := inv.inflight
  spawned := inv.spawned
  callers c' caller' found := by
    by_cases same : c' = c
    · subst same
      exact ok caller' (by simpa [State.setCaller] using found)
    · exact inv.callers c' caller' (by simpa [State.setCaller, same] using found)

theorem Inv.setPhase {before : List ℕ} {phase phase' : Phase D}
    (found : s.callers c = some ⟨key, before, phase⟩) (fits : Sane key → phase'.Fits s.tasks key before) :
    Inv Sane (s.setCaller c (some ⟨key, before, phase'⟩)) := by
  refine inv.setCaller fun new same => ?_
  obtain rfl := some.inj same
  exact ⟨(inv.callers c _ found).before, fits⟩

section

variable (found : s.tasks i = some ⟨key, p⟩) (unended : p.IsOpen)
include found unended

theorem Inv.setTask {inflight : K → Option ℕ}
    (listed : ∀ key', Sane key' → ∀ j, inflight key' = some j ↔
      ∃ q, update s.tasks i (some ⟨key, p'⟩) j = some ⟨key', q⟩ ∧ q.IsOpen) :
    Inv Sane { s.setTask i key p' with inflight } := by
  refine ⟨listed, fun j above => ?_, fun c caller held => (inv.callers c caller held).setTask ?_⟩
  · have other : j ≠ i := by
      rintro rfl
      simp [inv.spawned j above] at found
    simpa [State.setTask, other] using inv.spawned j above
  · intro _ q found'
    obtain ⟨rfl, rfl⟩ := Task.mk.inj (some.inj (found.symm.trans found'))
    exact ⟨rfl, unended⟩

theorem Inv.proceed (unended' : Sane key → p'.IsOpen) : Inv Sane (s.setTask i key p') := by
  refine inv.setTask found unended fun key' sane j => ?_
  rw [inv.inflight key' sane]
  by_cases same : j = i
  · subst same
    by_cases here : key = key'
    · subst here
      simp [found, unended, unended' sane]
    · simp [found, here]
  · simp [same]

theorem Inv.remove [DecidableEq K] {outcome : MergeOutcome D} :
    Inv Sane { s.setTask i key (.ended outcome) with
      inflight := update s.inflight key none } := by
  refine inv.setTask found unended fun key' sane j => ?_
  have listed := inv.inflight key' sane
  by_cases same : j = i
  · subst same
    by_cases here : key' = key
    · simp [here, Progress.IsOpen]
    · simp [here, Ne.symm here, listed, found]
  · rw [update_of_ne same, ← listed]
    by_cases here : key' = key
    · subst here
      have own : s.inflight key' = some i := (listed i).2 ⟨p, found, unended⟩
      simp [own, Ne.symm same]
    · simp [here]

end

theorem Inv.spawn [DecidableEq K] (vacant : s.inflight key = none) :
    Inv Sane { s.setTask s.spawned key .running with
      inflight := update s.inflight key (some s.spawned)
      spawned := s.spawned + 1 } := by
  have fresh : s.tasks s.spawned = none := inv.spawned _ (Nat.le_refl _)
  refine ⟨fun key' sane j => ?_, fun j above => ?_,
    fun c caller held => (inv.callers c caller held).setTask (by simp [fresh])⟩
  · have listed := inv.inflight key' sane
    by_cases same : j = s.spawned
    · subst same
      by_cases here : key' = key
      · simp [State.setTask, here, Progress.IsOpen]
      · simp [State.setTask, here, Ne.symm here, listed, fresh]
    · simp only [State.setTask, update_of_ne same, ← listed]
      by_cases here : key' = key
      · simp [here, vacant, Ne.symm same]
      · simp [here]
  · simp only at above
    have other : j ≠ s.spawned := by omega
    simpa [State.setTask, other] using inv.spawned j (by omega)

theorem Inv.join [DecidableEq K] {before : List ℕ}
    (found : s.callers c = some ⟨key, before, .joining⟩) : Inv Sane (s.join c key before) := by
  have old := (inv.callers c _ found).before
  unfold State.join
  cases listed : s.inflight key with
  | some i =>
    refine inv.setPhase found fun sane => ?_
    obtain ⟨p, task, unended⟩ := (inv.inflight key sane i).1 listed
    refine ⟨fun mem => ?_, p, task⟩
    obtain ⟨_, outcome, ended⟩ := old i mem
    exact unended outcome (Task.mk.inj (some.inj (task.symm.trans ended))).2
  | none =>
    refine (inv.spawn listed).setPhase (c := c) found fun _ =>
      ⟨fun mem => ?_, .running, by simp [State.setTask]⟩
    obtain ⟨_, _, ended⟩ := old _ mem
    simp [inv.spawned] at ended

end

/-- No merge of a key in `Sane` panics. -/
def Sound (Sane : K → Prop) (s : State K D) (e : Event K D) : Prop :=
  ∀ i task, e = .panic i → s.tasks i = some task → ¬ Sane task.key

theorem State.mem_ended (mem : i ∈ s.ended) : ∃ key outcome, s.tasks i = some ⟨key, .ended outcome⟩ := by
  obtain ⟨-, ended⟩ := mem_filter.1 mem
  cases found : s.tasks i with
  | none => simp [found] at ended
  | some task =>
    obtain ⟨_, progress⟩ := task
    cases progress <;> simp_all [Task.hasEnded]

theorem Inv.step [DecidableEq K] {e : Event K D} (inv : Inv Sane s) (sound : Sound Sane s e)
    (stepped : step cfg s e = some s') : Inv Sane s' := by
  cases e with simp only [MergeGate.step] at stepped
  | call =>
    split at stepped <;> cases stepped
    refine inv.setCaller fun new same => ?_
    obtain rfl := some.inj same
    exact ⟨fun i mem => State.mem_ended mem, fun _ => trivial⟩
  | look =>
    split at stepped
    · next found =>
      split at stepped <;> cases stepped
      · exact inv.setPhase found fun _ => trivial
      · exact inv.setPhase found fun _ => trivial
    · cases stepped
  | validate c accepts =>
    split at stepped <;> cases stepped
    next found =>
      exact inv.setPhase found fun _ => by cases accepts <;> trivial
  | invalidate =>
    split at stepped <;> cases stepped
    next found =>
      exact inv.cache.setPhase found fun _ => trivial
  | join =>
    split at stepped <;> cases stepped
    next found =>
      exact inv.join found
  | receive =>
    split at stepped
    · next found =>
      split at stepped
      · next ended =>
        cases stepped
        refine inv.setPhase found fun sane => ?_
        obtain ⟨free, q, task⟩ := (inv.callers _ _ found).phase sane
        obtain ⟨rfl, rfl⟩ := Task.mk.inj (some.inj (ended.symm.trans task))
        exact ⟨free, ended⟩
      · cases stepped
    · cases stepped
  | disconnect =>
    cases stepped
    exact inv.setCaller (by simp)
  | finish =>
    split at stepped <;> cases stepped
    next found =>
      exact inv.proceed found nofun fun _ => nofun
  | panic i =>
    split at stepped <;> cases stepped
    next found =>
      -- the entry stays, so the key is none of the sane ones
      exact inv.proceed found nofun fun sane => absurd sane (sound i _ rfl found)
  | store i =>
    split at stepped <;> cases stepped
    next outcome found =>
      have proceeds : Inv Sane (s.setTask i _ (.stored outcome)) :=
        inv.proceed found nofun fun _ => nofun
      exact proceeds.cache
  | remove =>
    split at stepped <;> cases stepped
    next found =>
      exact inv.remove found nofun
  | evict =>
    cases stepped
    exact inv.cache

/-- For a key whose merges do not panic, the map has a task only until it ends, and a call gets a document
that was validated or the outcome of a task that had not ended when the call began. -/
theorem merges_not_replayed [DecidableEq K] (reached : Reach (step cfg) (· = start) (Sound Sane) s)
    (sane : Sane key) :
    (∀ i, s.inflight key = some i → ∃ p, s.tasks i = some ⟨key, p⟩ ∧ ∀ outcome, p ≠ .ended outcome) ∧
      ∀ c before answer, s.callers c = some ⟨key, before, .returned answer⟩ →
        (∃ doc, answer = .validated doc) ∨ ∃ i outcome, answer = .merged i outcome ∧
          i ∉ before ∧ s.tasks i = some ⟨key, .ended outcome⟩ := by
  have inv : Inv Sane s := by
    refine reached.invariant ?_ ?_
    · rintro _ rfl
      exact ⟨fun _ _ _ => by simp [start], fun _ _ => rfl, nofun⟩
    · intro _ _ _ inv sound stepped
      exact inv.step sound stepped
  refine ⟨fun i => (inv.inflight key sane i).1, fun c before answer found => ?_⟩
  have fits := (inv.callers c _ found).phase sane
  cases answer with
  | validated doc => exact .inl ⟨doc, rfl⟩
  | merged i outcome => exact .inr ⟨i, outcome, rfl, fits⟩

theorem merges_not_replayed_hit : ∃ s : State Unit Unit,
    Reach (step ⟨true, fun _ => true⟩) (· = start) (Sound fun _ => True) s ∧
    (∃ i outcome, Answer.merged 0 (.ok ()) = .merged i outcome ∧ i ∉ [] ∧
      s.tasks i = some ⟨(), .ended outcome⟩) ∧
        s.callers 1 = some ⟨(), [0], .returned (.validated ())⟩ := by
  have taken : run (fun _ e => match e with | .panic _ => false | _ => true)
      (step ⟨true, fun _ => true⟩) (start : State Unit Unit) [.call 0 (), .look 0, .join 0,
        .finish 0 (.ok ()), .store 0, .remove 0, .receive 0, .call 1 (), .look 1, .validate 1 true] = some _ := rfl
  have reached : Reach _ (· = start) (Sound fun _ => True) _ :=
    .of_run (fun _ e sane i _ same => by simp [same] at sane) (.start rfl) taken
  obtain ⟨_, same⟩ | merged := (merges_not_replayed reached trivial).2 0 [] (.merged 0 (.ok ())) rfl
  · cases same
  · exact ⟨_, reached, merged, rfl⟩

/-- The merge of task 0 panics: its entry stays, and the next call of the key gets its error. -/
theorem panicked_merge_replayed : ∃ s : State Unit Unit,
    Reach (step ⟨true, fun _ => true⟩) (· = start) Any s ∧ s.inflight () = some 0 ∧
      s.tasks 0 = some ⟨(), .ended (.error .internal)⟩ ∧
      s.callers 1 = some ⟨(), [0], .returned (.merged 0 (.error .internal))⟩ := by
  have taken : run unchecked (step ⟨true, fun _ => true⟩) (start : State Unit Unit) [.call 0 (), .look 0,
      .join 0, .panic 0, .call 1 (), .look 1, .join 1, .receive 1] = some _ := rfl
  exact ⟨_, Reach.of_run (fun _ _ _ => trivial) (.start rfl) taken, rfl, rfl, rfl⟩

end ArtifactKeeper.MergeGate
