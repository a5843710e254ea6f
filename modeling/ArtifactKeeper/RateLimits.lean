import ArtifactKeeper.Library.StepSystem
import ArtifactKeeper.Library.Text

/-!
# Rate limits

A limiter counts the requests of a key in windows of a fixed length.  A check is admitted while the
count is below the limit, and an admitted check may be given back later.
-/

namespace ArtifactKeeper.RateLimits

open StepSystem List Option Bool Function

/-! ### The limiter -/

/-- Times are in nanoseconds. -/
structure RateLimiter where
  maxRequests : ℕ
  window : ℕ

def asSecs (duration : ℕ) : ℕ := duration / 1000000000

structure Entry where
  count : ℕ
  start : ℕ

abbrev Requests := Text → Option Entry

variable (l : RateLimiter)

/-- `duration_since` is zero for a time that is ahead. -/
def RateLimiter.expired (now : ℕ) (e : Entry) : Bool := l.window ≤ now - e.start

/-- A check on the entry of its key: the requests left or the seconds to wait, and the entry after. -/
def RateLimiter.checkEntry (now : ℕ) (entry : Option Entry) : Except ℕ ℕ × Entry :=
  let e := entry.getD ⟨0, now⟩
  if l.expired now e then (.ok (l.maxRequests - 1), ⟨1, now⟩)
  else if l.maxRequests ≤ e.count then
    (.error (max (asSecs l.window - asSecs (now - e.start)) 1), e)
  else (.ok (l.maxRequests - (e.count + 1)), { e with count := e.count + 1 })

variable (requests : Requests)

def RateLimiter.checkRateLimit (key : Text) (now : ℕ) : Except ℕ ℕ × Requests :=
  let (result, e) := l.checkEntry now (requests key)
  (result, update requests key (some e))

def RateLimiter.refundEntry (now : ℕ) (e : Entry) : Entry :=
  if l.expired now e then e else { e with count := e.count - 1 }

def RateLimiter.refundAttempt (key : Text) (now : ℕ) : Requests :=
  match requests key with
  | some e => update requests key (some (l.refundEntry now e))
  | none => requests

open RateLimiter (checkEntry refundAttempt)

def RateLimiter.cleanupExpired (now : ℕ) : Requests :=
  fun key => (requests key).filter (!l.expired now ·)

/-! ### Runs -/

/-- An admitted check: the window it was counted in, and whether it was given back. -/
structure Attempt where
  key : Text
  window : ℕ
  refunded : Bool

/-- The entries, and on the side the number of windows that have begun and the admitted checks. -/
structure World where
  requests : Requests
  windows : Text → ℕ
  admitted : List Attempt

inductive Event
  | check (key : Text) (now : ℕ)
  | refund (attempt now : ℕ)
  | cleanup (now : ℕ)

def Event.now : Event → ℕ
  | .check _ now => now
  | .refund _ now => now
  | .cleanup now => now

variable (w : World)

/-- A check of this key begins a new window. -/
def RateLimiter.opens (key : Text) (now : ℕ) : Bool :=
  (w.requests key).all (l.expired now)

def RateLimiter.windowsAfter (key : Text) (now : ℕ) : Text → ℕ :=
  if l.opens w key now then update w.windows key (w.windows key + 1) else w.windows

/-- Each refund gives back an admitted check that was not given back before. -/
def step : Event → Option World
  | .check key now =>
    let windows := l.windowsAfter w key now
    match l.checkRateLimit w.requests key now with
    | (.ok _, requests) => some ⟨requests, windows, w.admitted ++ [⟨key, windows key, false⟩]⟩
    | (.error _, requests) => some ⟨requests, windows, w.admitted⟩
  | .refund i now =>
    match w.admitted[i]? with
    | some a =>
      if a.refunded then none
      else some { w with
        requests := l.refundAttempt w.requests a.key now
        admitted := w.admitted.set i { a with refunded := true } }
    | none => none
  | .cleanup now => some { w with requests := l.cleanupExpired w.requests now }

def start : World := ⟨fun _ => none, fun _ => 0, []⟩

def outstanding (key : Text) (window : ℕ) (admitted : List Attempt) : ℕ :=
  admitted.countP fun a => a.key = key ∧ a.window = window ∧ a.refunded = false

/-- A check is given back in its own window, or when the window is over. -/
def Timely : Event → Prop
  | .refund i now => ∀ a ∈ w.admitted[i]?,
      a.window = w.windows a.key ∨ ∀ e ∈ w.requests a.key, l.expired now e = true
  | _ => True

/-! ### One step -/

variable {l} {w w' : World} {key : Text} {now : ℕ}

theorem checkEntry_opens (positive : 1 ≤ l.maxRequests) {entry : Option Entry}
    (opens : entry.all (l.expired now) = true) :
    l.checkEntry now entry = (.ok (l.maxRequests - 1), ⟨1, now⟩) := by
  unfold checkEntry
  cases entry with
  | some e => exact if_pos opens
  | none =>
    have room : ¬l.maxRequests ≤ 0 := by omega
    simp only [getD_none, if_neg room]
    exact ite_self _

theorem checkEntry_open {e : Entry} (opens : l.expired now e = false) :
    (l.maxRequests ≤ e.count ∧ ∃ wait, l.checkEntry now (some e) = (.error wait, e)) ∨
    (e.count < l.maxRequests ∧
      ∃ left, l.checkEntry now (some e) = (.ok left, { e with count := e.count + 1 })) := by
  unfold checkEntry
  simp only [getD_some, opens]
  by_cases full : l.maxRequests ≤ e.count
  · exact .inl ⟨full, _, if_pos full⟩
  · exact .inr ⟨by omega, _, if_neg full⟩

/-- What a step can do: begin a window with an admitted check, refuse a check, admit one, give one
back or drop entries. -/
theorem step_cases (positive : 1 ≤ l.maxRequests) {e : Event} (taken : step l w e = some w') :
    (∃ key now, e = .check key now ∧ w' =
      ⟨update w.requests key (some ⟨1, now⟩), update w.windows key (w.windows key + 1),
        w.admitted ++ [⟨key, w.windows key + 1, false⟩]⟩) ∨
    (∃ key now entry, e = .check key now ∧ w.requests key = some entry ∧ w' = w) ∨
    (∃ key now entry, e = .check key now ∧ w.requests key = some entry ∧
      entry.count < l.maxRequests ∧ w' =
        { w with
          requests := update w.requests key (some { entry with count := entry.count + 1 })
          admitted := w.admitted ++ [⟨key, w.windows key, false⟩] }) ∨
    (∃ i now a, e = .refund i now ∧ w.admitted[i]? = some a ∧ a.refunded = false ∧ w' =
      { w with
        requests := l.refundAttempt w.requests a.key now
        admitted := w.admitted.set i { a with refunded := true } }) ∨
    (∃ now, e = .cleanup now ∧ w' = { w with requests := l.cleanupExpired w.requests now }) := by
  cases e with
  | check key now =>
    simp only [step, RateLimiter.checkRateLimit, RateLimiter.windowsAfter] at taken
    by_cases opens : l.opens w key now = true
    · rw [checkEntry_opens positive opens] at taken
      simp only [opens, if_true, update_self, some.injEq] at taken
      exact .inl ⟨key, now, rfl, taken.symm⟩
    · cases found : w.requests key with
      | none => simp [RateLimiter.opens, found] at opens
      | some entry =>
        have running : l.expired now entry = false := by simpa [RateLimiter.opens, found] using opens
        rw [found] at taken
        rcases checkEntry_open running with ⟨-, _, refused⟩ | ⟨below, _, admitted⟩
        · rw [refused, if_neg opens, ← found, update_eq_self] at taken
          exact .inr (.inl ⟨key, now, entry, rfl, found, (some.inj taken).symm⟩)
        · rw [admitted, if_neg opens] at taken
          exact .inr (.inr (.inl ⟨key, now, entry, rfl, found, below, (some.inj taken).symm⟩))
  | refund i now =>
    simp only [step] at taken
    cases found : w.admitted[i]? with
    | none => simp [found] at taken
    | some a =>
      rw [found] at taken
      cases refunded : a.refunded with
      | true => simp [refunded] at taken
      | false =>
        simp only [refunded, false_eq_true, if_false, some.injEq] at taken
        exact .inr (.inr (.inr (.inl ⟨i, now, a, rfl, found, refunded, taken.symm⟩)))
  | cleanup now => exact .inr (.inr (.inr (.inr ⟨now, rfl, (some.inj taken).symm⟩)))

/-! ### The count of a window -/

theorem outstanding_concat (key : Text) (window : ℕ) (admitted : List Attempt) (a : Attempt) :
    outstanding key window (admitted ++ [a]) = outstanding key window admitted +
      if a.key = key ∧ a.window = window ∧ a.refunded = false then 1 else 0 := by
  rw [outstanding, countP_append, countP_singleton]
  simp [outstanding]

theorem outstanding_refund {admitted : List Attempt} {i : ℕ} {a : Attempt}
    (found : admitted[i]? = some a) (before : a.refunded = false) (key : Text) (window : ℕ) :
    outstanding key window (admitted.set i { a with refunded := true }) +
      (if a.key = key ∧ a.window = window then 1 else 0) = outstanding key window admitted := by
  induction admitted generalizing i with
  | nil => cases found
  | cons b _ ih =>
    cases i with
    | zero =>
      obtain rfl : b = a := by simpa using found
      by_cases here : b.key = key ∧ b.window = window <;> simp [outstanding, before, here]
    | succ i =>
      have rest := ih (i := i) (by simpa using found)
      simp only [outstanding, set_cons_succ, countP_cons] at rest ⊢
      omega

/-- The count of the window of a key bounds its outstanding checks, and all windows are bounded. -/
structure Bounded (l : RateLimiter) (w : World) : Prop where
  begun : ∀ a ∈ w.admitted, a.window ≤ w.windows a.key
  counted : ∀ key e, w.requests key = some e → outstanding key (w.windows key) w.admitted ≤ e.count
  bounded : ∀ key window, outstanding key window w.admitted ≤ l.maxRequests

theorem outstanding_of_begun (begun : ∀ a ∈ w.admitted, a.window ≤ w.windows a.key) (key : Text) :
    outstanding key (w.windows key + 1) w.admitted = 0 := by
  refine countP_eq_zero.2 fun a mem => ?_
  have window := begun a mem
  simp only [decide_eq_true_eq]
  rintro ⟨rfl, _, -⟩
  omega

section

variable (inv : Bounded l w)
include inv

theorem Bounded.open_window (positive : 1 ≤ l.maxRequests) (key : Text) (now : ℕ) :
    Bounded l ⟨update w.requests key (some ⟨1, now⟩), update w.windows key (w.windows key + 1),
      w.admitted ++ [⟨key, w.windows key + 1, false⟩]⟩ where
  begun a mem := by
    rcases mem_append.1 mem with old | new
    · have window := inv.begun a old
      by_cases same : a.key = key
      · subst same
        simp only [update_self]
        omega
      · simpa only [update_of_ne same] using window
    · obtain rfl := mem_singleton.1 new
      simp
  counted k e found := by
    by_cases same : k = key
    · subst same
      obtain rfl : ⟨1, now⟩ = e := by simpa using found
      simp only [update_self, outstanding_concat, outstanding_of_begun inv.begun]
      simp
    · simp only [update_of_ne same] at found ⊢
      rw [outstanding_concat, if_neg fun here => same here.1.symm]
      exact inv.counted k e found
  bounded k window := by
    rw [outstanding_concat]
    split_ifs with here
    · obtain ⟨rfl, rfl, -⟩ := here
      rw [outstanding_of_begun inv.begun]
      exact positive
    · exact inv.bounded k window

theorem Bounded.admit {e : Entry} (found : w.requests key = some e)
    (below : e.count < l.maxRequests) :
    Bounded l { w with
      requests := update w.requests key (some { e with count := e.count + 1 })
      admitted := w.admitted ++ [⟨key, w.windows key, false⟩] } where
  begun a mem := by
    rcases mem_append.1 mem with old | new
    · exact inv.begun a old
    · obtain rfl := mem_singleton.1 new
      exact le_rfl
  counted k e' found' := by
    by_cases same : k = key
    · subst same
      obtain rfl : { e with count := e.count + 1 } = e' := by simpa using found'
      simp only [outstanding_concat]
      have count := inv.counted k e found
      simpa using count
    · simp only [update_of_ne same] at found' ⊢
      rw [outstanding_concat, if_neg fun here => same here.1.symm]
      exact inv.counted k e' found'
  bounded k window := by
    rw [outstanding_concat]
    split_ifs with here
    · obtain ⟨rfl, rfl, -⟩ := here
      have count := inv.counted _ e found
      simp only at count ⊢
      omega
    · exact inv.bounded k window

theorem Bounded.refund {i : ℕ} {a : Attempt} (found : w.admitted[i]? = some a)
    (before : a.refunded = false)
    (timely : a.window = w.windows a.key ∨ ∀ e ∈ w.requests a.key, l.expired now e = true) :
    Bounded l { w with
      requests := l.refundAttempt w.requests a.key now
      admitted := w.admitted.set i { a with refunded := true } } where
  begun b mem := by
    rcases mem_or_eq_of_mem_set mem with old | rfl
    · exact inv.begun b old
    · exact inv.begun a (mem_of_getElem? found)
  counted k e found' := by
    have given := outstanding_refund found before k (w.windows k)
    by_cases same : k = a.key
    · subst same
      cases entry : w.requests a.key with
      | none => simp [refundAttempt, entry] at found'
      | some e' =>
        have count := inv.counted _ e' entry
        obtain rfl : l.refundEntry now e' = e := by
          simpa [refundAttempt, entry] using found'
        rcases timely with own | expired
        · -- Both sides lose one, or only the outstanding checks do.
          rw [if_pos ⟨rfl, own⟩] at given
          unfold RateLimiter.refundEntry
          split_ifs <;> simp only <;> omega
        · have unchanged : l.refundEntry now e' = e' := if_pos (expired e' entry)
          rw [unchanged]
          simp only
          omega
    · have entry : w.requests k = some e := by
        cases here : w.requests a.key with
        | none => simpa [refundAttempt, here] using found'
        | some _ => simpa [refundAttempt, here, update_of_ne same] using found'
      have count := inv.counted k e entry
      simp only
      omega
  bounded k window := by
    have given := outstanding_refund found before k window
    have bound := inv.bounded k window
    simp only
    omega

theorem Bounded.cleanup (now : ℕ) :
    Bounded l { w with requests := l.cleanupExpired w.requests now } where
  begun := inv.begun
  counted k e found := inv.counted k e (filter_eq_some_iff.1 found).1
  bounded := inv.bounded

theorem Bounded.step (positive : 1 ≤ l.maxRequests) {e : Event} (timely : Timely l w e)
    (taken : RateLimits.step l w e = some w') : Bounded l w' := by
  rcases step_cases positive taken with ⟨key, now, rfl, rfl⟩ | ⟨key, now, _, rfl, -, rfl⟩ |
    ⟨key, now, _, rfl, found, below, rfl⟩ | ⟨i, now, a, rfl, found, before, rfl⟩ | ⟨now, rfl, rfl⟩
  · exact inv.open_window positive key now
  · exact inv
  · exact inv.admit found below
  · exact inv.refund found before (timely a found)
  · exact inv.cleanup now

end

theorem bounded_start : Bounded l start := ⟨by simp [start], by simp [start], by simp [start, outstanding]⟩

/-- As long as checks are given back in their own window, or when the window of the key is over, every
window has at most `maxRequests` admitted checks that are not given back. -/
theorem windows_bounded (l : RateLimiter) (positive : 1 ≤ l.maxRequests) (w : World)
    (reach : Reach (step l) (· = start) (Timely l) w) (key : Text) (window : ℕ) :
    outstanding key window w.admitted ≤ l.maxRequests := by
  have inv : Bounded l w := reach.invariant (fun _ here => here ▸ bounded_start)
    fun _ _ _ inv timely taken => inv.step positive timely taken
  exact inv.bounded key window

def timelyCheck (l : RateLimiter) (w : World) : Event → Bool
  | .refund i now => w.admitted[i]?.all fun a =>
      a.window == w.windows a.key || (w.requests a.key).all (l.expired now)
  | _ => true

theorem timely_of_check (w : World) (e : Event) (h : timelyCheck l w e = true) : Timely l w e := by
  cases e with
  | refund =>
    intro a found
    simp only [timelyCheck, mem_def.1 found, all_some, or_eq_true, beq_iff_eq] at h
    rcases h with own | expired
    · exact .inl own
    · refine .inr fun e entry => ?_
      simpa [mem_def.1 entry] using expired
  | check | cleanup => trivial

/-- Two checks with a refund between them fit into a window for one. -/
theorem windows_bounded_refund :
    ∃ w, Reach (step ⟨1, 5⟩) (· = start) (Timely ⟨1, 5⟩) w ∧ w.admitted.length = 2 ∧
      outstanding ['k'] 1 w.admitted ≤ 1 := by
  obtain ⟨w, reach, both⟩ :=
    Reach.exists_of_start (step ⟨1, 5⟩) (· = start) (@timely_of_check ⟨1, 5⟩) start rfl
      [.check ['k'] 0, .refund 0 1, .check ['k'] 2] (fun w => w.admitted.length = 2) (by decide)
  exact ⟨w, reach, both, windows_bounded ⟨1, 5⟩ (by decide) w reach ['k'] 1⟩

/-- A check of the first window that is given back in the second one. -/
def lateRefund : List Event := [.check ['k'] 0, .check ['k'] 5, .refund 0 6, .check ['k'] 7]

/-- The late refund makes room for a second check in a window for one. -/
theorem windows_not_bounded : (lateRefund.map Event.now).Pairwise (· ≤ ·) ∧
    ∃ w, run unchecked (step ⟨1, 5⟩) start lateRefund = some w ∧
      outstanding ['k'] 2 w.admitted = 2 := by
  refine ⟨by decide, ?_⟩
  cases taken : run unchecked (step ⟨1, 5⟩) start lateRefund with
  | none =>
    have some : (run unchecked (step ⟨1, 5⟩) start lateRefund).isSome = true := by decide
    rw [taken] at some
    cases some
  | some w =>
    have two : (run unchecked (step ⟨1, 5⟩) start lateRefund).all
        (fun w => outstanding ['k'] 2 w.admitted = 2) = true := by decide
    rw [taken] at two
    exact ⟨w, rfl, by simpa using two⟩

end ArtifactKeeper.RateLimits
