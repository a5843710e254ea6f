import ArtifactKeeper.RateLimits

/-!
# How many checks a limiter admits

A window begins with the first check after the last one is over, so an interval of one window length
meets at most two windows of a key.
-/

namespace ArtifactKeeper.RateLimits

open List Option Bool Function RateLimiter

/-! ### Calls -/

def nanosPerSec : ℕ := 1000000000

def RateLimiter.new (maxRequests windowSecs : ℕ) : RateLimiter :=
  ⟨maxRequests, windowSecs * nanosPerSec⟩

def RateLimiter.peekRateLimit (l : RateLimiter) (requests : Requests) (key : Text) (now : ℕ) :
    Except ℕ ℕ :=
  match requests key with
  | none => .ok l.maxRequests
  | some e =>
    if l.expired now e then .ok l.maxRequests
    else if l.maxRequests ≤ e.count then
      .error (max (asSecs l.window - asSecs (now - e.start)) 1)
    else .ok (l.maxRequests - e.count)

inductive Action
  | check (key : Text)
  | peek (key : Text)
  | cleanup
  deriving DecidableEq

structure Call where
  now : ℕ
  action : Action

/-- What a call answers, and the time at which the window began that a check was counted in. -/
structure Reply extends Call where
  result : Option (Except ℕ ℕ)
  window : Option ℕ

def RateLimiter.perform (l : RateLimiter) (requests : Requests) (c : Call) : Requests × Reply :=
  match c.action with
  | .check key =>
    let (result, after) := l.checkRateLimit requests key c.now
    (after, ⟨c, some result, (after key).map Entry.start⟩)
  | .peek key => (requests, ⟨c, some (l.peekRateLimit requests key c.now), none⟩)
  | .cleanup => (l.cleanupExpired requests c.now, ⟨c, none, none⟩)

def RateLimiter.replies (l : RateLimiter) (requests : Requests) : List Call → List Reply
  | [] => []
  | c :: calls => (l.perform requests c).2 :: l.replies (l.perform requests c).1 calls

def Call.isCheck (c : Call) : Bool :=
  match c.action with
  | .check _ => true
  | _ => false

variable (key : Text)

def Reply.admits (r : Reply) : Bool :=
  r.action = .check key && r.result.any fun result => result.isOk

def admittedBetween (start stop : ℕ) (replies : List Reply) : ℕ :=
  replies.countP fun r => r.admits key && (start ≤ r.now && r.now < stop)

def admittedIn (window : ℕ) (replies : List Reply) : ℕ :=
  replies.countP fun r => r.admits key && r.window = some window

variable {l : RateLimiter} {requests cleaned : Requests} {c : Call} {calls : List Call}
  {clock now wait : ℕ} {key}

/-! ### One call -/

theorem perform_toCall (requests : Requests) (c : Call) : (l.perform requests c).2.toCall = c := by
  unfold perform
  cases c.action <;> rfl

/-- A check begins a window, is refused or is admitted in the window of its entry. -/
theorem check_cases (positive : 1 ≤ l.maxRequests) (requests : Requests)
    (action : c.action = .check key) :
    ((requests key).all (l.expired c.now) = true ∧
      l.perform requests c = (update requests key (some ⟨1, c.now⟩),
        ⟨c, some (.ok (l.maxRequests - 1)), some c.now⟩)) ∨
    ∃ e, requests key = some e ∧ l.expired c.now e = false ∧
      (l.perform requests c = (requests,
        ⟨c, some (.error (max (asSecs l.window - asSecs (c.now - e.start)) 1)), some e.start⟩) ∨
      e.count < l.maxRequests ∧ l.perform requests c =
        (update requests key (some { e with count := e.count + 1 }),
          ⟨c, some (.ok (l.maxRequests - (e.count + 1))), some e.start⟩)) := by
  by_cases opens : (requests key).all (l.expired c.now) = true
  · refine .inl ⟨opens, ?_⟩
    simp [perform, action, checkRateLimit, checkEntry_opens positive opens]
  · obtain ⟨e, found⟩ : ∃ e, requests key = some e := by
      cases found : requests key with
      | none => simp [found] at opens
      | some e => exact ⟨e, rfl⟩
    have running : l.expired c.now e = false := by simpa [found] using opens
    refine .inr ⟨e, found, running, ?_⟩
    by_cases full : l.maxRequests ≤ e.count
    · have same : update requests key (some e) = requests := by
        rw [← found]
        exact update_eq_self key requests
      simp [perform, action, checkRateLimit, checkEntry, found, running, full]
    · right
      refine ⟨by omega, ?_⟩
      simp [perform, action, checkRateLimit, checkEntry, found, running, full]

/-! ### Other calls -/

/-- The checks of some keys. -/
def Call.checks (keys : Text → Bool) (c : Call) : Bool :=
  match c.action with
  | .check key => keys key
  | _ => false

/-- The entries of these keys are the same, but for some that have expired. -/
def Alike (l : RateLimiter) (keys : Text → Bool) (clock : ℕ) (cleaned requests : Requests) : Prop :=
  ∀ key, keys key = true → cleaned key = requests key ∨
    cleaned key = none ∧ ∀ e, requests key = some e → l.expired clock e = true

variable {keys : Text → Bool}

theorem expired_later {e : Entry} (later : clock ≤ now) (expired : l.expired clock e = true) :
    l.expired now e = true := by
  simp only [RateLimiter.expired, decide_eq_true_eq] at expired ⊢
  omega

theorem Alike.later (alike : Alike l keys clock cleaned requests) (later : clock ≤ now) :
    Alike l keys now cleaned requests := fun key kept =>
  (alike key kept).imp_right fun ⟨gone, expires⟩ =>
    ⟨gone, fun e found => expired_later later (expires e found)⟩

theorem Alike.checkEntry (positive : 1 ≤ l.maxRequests) (alike : Alike l keys now cleaned requests)
    (kept : keys key = true) :
    l.checkEntry now (cleaned key) = l.checkEntry now (requests key) := by
  rcases alike key kept with same | ⟨gone, expires⟩
  · rw [same]
  · have opens : (requests key).all (l.expired now) = true := by
      cases found : requests key with
      | none => rfl
      | some e => simpa using expires e found
    rw [checkEntry_opens positive opens, gone, checkEntry_opens positive rfl]

theorem Alike.cleanup (alike : Alike l keys now cleaned requests) :
    Alike l keys now (l.cleanupExpired cleaned now) requests := by
  intro key kept
  simp only [cleanupExpired]
  rcases alike key kept with same | ⟨gone, expires⟩
  · cases found : requests key with
    | none => exact .inl (by simp [same, found])
    | some e =>
      cases expired : l.expired now e
      · exact .inl (by simp [same, found, expired])
      · refine .inr ⟨by simp [same, found, expired], fun e' here => ?_⟩
        exact some.inj here ▸ expired
  · exact .inr ⟨by simp [gone], expires⟩

/-- A call that is left out changes no entry of the keys, except that it drops expired ones. -/
theorem Alike.other (alike : Alike l keys c.now cleaned requests) (other : ¬c.checks keys = true) :
    Alike l keys c.now (l.perform cleaned c).1 requests := by
  cases action : c.action with
  | check key =>
    intro k kept
    have different : k ≠ key := by
      rintro rfl
      exact other (by simpa [Call.checks, action] using kept)
    simpa [perform, action, checkRateLimit, update_of_ne different]
      using alike k kept
  | peek => simpa [perform, action] using alike
  | cleanup => simpa [perform, action] using alike.cleanup

/-- Leaving out all other calls changes no answer to a check of the keys. -/
theorem Alike.replies (positive : 1 ≤ l.maxRequests) (alike : Alike l keys clock cleaned requests)
    (ordered : (clock :: calls.map Call.now).Pairwise (· ≤ ·)) :
    l.replies requests (calls.filter (·.checks keys)) =
      (l.replies cleaned calls).filter (·.toCall.checks keys) := by
  induction calls generalizing clock cleaned requests with
  | nil => rfl
  | cons c _ ih =>
    obtain ⟨later, rest⟩ := pairwise_cons.1 ordered
    have now : Alike l keys c.now cleaned requests := alike.later (later _ (by simp))
    by_cases checks : c.checks keys = true
    · obtain ⟨key, action, kept⟩ : ∃ key, c.action = .check key ∧ keys key = true := by
        unfold Call.checks at checks
        split at checks
        · next key action => exact ⟨key, action, checks⟩
        · cases checks
      have entry := now.checkEntry positive kept
      have same : (l.perform requests c).2 = (l.perform cleaned c).2 := by
        simp [perform, action, checkRateLimit, entry]
      rw [filter_cons_of_pos checks, replies, replies,
        filter_cons_of_pos (by rwa [perform_toCall]), same]
      congr 1
      refine ih (fun k kept => ?_) rest
      by_cases here : k = key
      · subst here
        simp [perform, action, checkRateLimit, entry]
      · simpa [perform, action, checkRateLimit, update_of_ne here]
          using now k kept
    · rw [filter_cons_of_neg checks, replies, filter_cons_of_neg (by rwa [perform_toCall])]
      exact ih (now.other checks) rest

/-! ### The checks of one key -/

/-- Checks of the key to come, after the window of its entry has begun. -/
structure Ready (key : Text) (requests : Requests) (calls : List Call) : Prop where
  checks : ∀ c ∈ calls, c.action = .check key
  ordered : (calls.map Call.now).Pairwise (· ≤ ·)
  started : ∀ e, requests key = some e → ∀ c ∈ calls, e.start ≤ c.now

variable {e : Entry} {window : ℕ}

theorem Ready.next (ready : Ready key requests (c :: calls)) {requests' : Requests}
    (started : ∀ e, requests' key = some e → e.start ≤ c.now) : Ready key requests' calls where
  checks c' mem := ready.checks c' (mem_cons_of_mem _ mem)
  ordered := (pairwise_cons.1 ready.ordered).2
  started e found _ mem :=
    (started e found).trans ((pairwise_cons.1 ready.ordered).1 _ (mem_map_of_mem mem))

section

variable (positive : 1 ≤ l.maxRequests)
include positive

/-- What the next check does to the entry, and what is counted of it. -/
theorem Ready.cases (ready : Ready key requests (c :: calls)) :
    ∃ requests' r, l.replies requests (c :: calls) = r :: l.replies requests' calls ∧
      Ready key requests' calls ∧ r.now = c.now ∧
      ((requests' key = some ⟨1, c.now⟩ ∧ r.window = some c.now ∧
        ∀ e, requests key = some e → e.start + l.window ≤ c.now) ∨
      ∃ e, requests key = some e ∧ c.now < e.start + l.window ∧
        (requests' = requests ∧ r.admits key = false ∨
        e.count < l.maxRequests ∧ requests' key = some { e with count := e.count + 1 } ∧
          r.window = some e.start)) := by
  have started e (found : requests key = some e) : e.start ≤ c.now :=
    ready.started e found c mem_cons_self
  rcases check_cases positive requests (ready.checks c mem_cons_self) with
    ⟨opens, performed⟩ | ⟨e, found, running, performed | ⟨below, performed⟩⟩
  · rw [replies, performed]
    refine ⟨_, _, rfl, ready.next (by simp [eq_comm]), rfl, .inl ⟨by simp, rfl, fun e found => ?_⟩⟩
    have expired : l.window ≤ c.now - e.start := by simpa [found, expired] using opens
    have := started e found
    omega
  all_goals
    simp only [expired, decide_eq_false_iff_not] at running
    have := started e found
    rw [replies, performed]
  · refine ⟨_, _, rfl, ready.next started, rfl, .inr ⟨e, found, by omega, .inl ⟨rfl, ?_⟩⟩⟩
    simp [Reply.admits, Except.toBool]
  · refine ⟨_, _, rfl, ready.next ?_, rfl, .inr ⟨e, found, by omega, .inr ⟨below, by simp, rfl⟩⟩⟩
    intro e' found'
    obtain rfl : _ = e' := by simpa using found'
    exact this

variable (ready : Ready key requests calls)
include ready

/-- In the rest of the window only what is left of the limit is admitted, and in the next one the limit. -/
theorem Ready.within (found : requests key = some e) (stop : ℕ)
    (soon : stop ≤ e.start + 2 * l.window) :
    (l.replies requests calls).countP (fun r => r.admits key && r.now < stop) ≤
      if stop ≤ e.start then 0 else l.maxRequests - e.count +
        if stop ≤ e.start + l.window then 0 else l.maxRequests := by
  induction calls generalizing requests e with
  | nil => exact Nat.zero_le _
  | cons c _ ih =>
    have started := ready.started e found c mem_cons_self
    obtain ⟨_, r, replies, next, _, ⟨entry, -, ends⟩ | ⟨e', found', -, check⟩⟩ :=
      ready.cases positive
    · have past := ends e found
      have rest := ih next entry (by simp only; omega)
      rw [replies, countP_cons]
      simp only [and_eq_true, decide_eq_true_eq] at rest ⊢
      split_ifs at rest ⊢ <;> omega
    · obtain rfl : e = e' := some.inj (found.symm.trans found')
      rcases check with ⟨rfl, refused⟩ | ⟨_, entry, -⟩
      · rw [replies, countP_cons_of_neg (by simp [refused])]
        exact ih next found soon
      · have rest := ih next entry soon
        rw [replies, countP_cons]
        simp only [and_eq_true, decide_eq_true_eq] at rest ⊢
        split_ifs at rest ⊢ <;> omega

/-- The first check of the interval begins a window, or comes less than a window after one began. -/
theorem Ready.between (start : ℕ) :
    admittedBetween key start (start + l.window) (l.replies requests calls) ≤ 2 * l.maxRequests := by
  unfold admittedBetween
  induction calls generalizing requests with
  | nil => exact Nat.zero_le _
  | cons c calls ih =>
    obtain ⟨requests', r, replies, next, time, check⟩ := ready.cases positive
    by_cases early : c.now < start
    · rw [replies, countP_cons_of_neg (by simp [time]; omega)]
      exact ih next
    · have fewer (rs : List Reply) :
          rs.countP (fun r => r.admits key && (start ≤ r.now && r.now < start + l.window)) ≤
            rs.countP fun r => r.admits key && r.now < start + l.window :=
        countP_mono_left fun r _ => by simp +contextual
      rcases check with ⟨entry, -, -⟩ | ⟨e, found, _, -⟩
      · have rest := next.within positive entry (start + l.window) (by simp only; omega)
        have := fewer (l.replies requests' calls)
        rw [replies, countP_cons]
        simp only at rest
        split_ifs at rest ⊢ <;> omega
      · have most := ready.within positive found (start + l.window) (by omega)
        have := fewer (l.replies requests (c :: calls))
        split_ifs at most <;> omega

/-- No window begins before that of the entry. -/
theorem Ready.inWindow (long : 0 < l.window) (found : requests key = some e) (window : ℕ) :
    admittedIn key window (l.replies requests calls) ≤
      if window < e.start then 0 else if window = e.start then l.maxRequests - e.count
        else l.maxRequests := by
  unfold admittedIn
  induction calls generalizing requests e with
  | nil => exact Nat.zero_le _
  | cons c _ ih =>
    obtain ⟨_, r, replies, next, -, ⟨entry, opened, ends⟩ | ⟨e', found', -, check⟩⟩ :=
      ready.cases positive
    · have past := ends e found
      have rest := ih next entry
      rw [replies, countP_cons]
      simp only [opened, and_eq_true, decide_eq_true_eq, some.injEq] at rest ⊢
      split_ifs at rest ⊢ <;> omega
    · obtain rfl : e = e' := some.inj (found.symm.trans found')
      rcases check with ⟨rfl, refused⟩ | ⟨_, entry, counted⟩
      · rw [replies, countP_cons_of_neg (by simp [refused])]
        exact ih next found
      · have rest := ih next entry
        rw [replies, countP_cons]
        simp only [counted, and_eq_true, decide_eq_true_eq, some.injEq] at rest ⊢
        split_ifs at rest ⊢ <;> omega

theorem Ready.inWindow_le (long : 0 < l.window) (fresh : requests key = none) :
    admittedIn key window (l.replies requests calls) ≤ l.maxRequests := by
  cases calls with
  | nil => exact Nat.zero_le _
  | cons c _ =>
    obtain ⟨_, r, replies, next, -, ⟨entry, opened, -⟩ | ⟨e, found, -⟩⟩ := ready.cases positive
    · have rest := next.inWindow positive long entry window
      rw [replies, admittedIn, countP_cons]
      simp only [opened, and_eq_true, decide_eq_true_eq, some.injEq, admittedIn] at rest ⊢
      split_ifs at rest ⊢ <;> omega
    · simp [fresh] at found

end

/-- Seconds are counted down from the whole window, so that the wait is not too short. -/
theorem wait_le {secs elapsed : ℕ}
    (waited : wait = max (asSecs (secs * nanosPerSec) - asSecs elapsed) 1) :
    secs * nanosPerSec ≤ elapsed + wait * nanosPerSec := by
  subst waited
  simp only [asSecs, nanosPerSec]
  omega

theorem Ready.retried {secs : ℕ} (positive : 1 ≤ l.maxRequests) (length : l.window = secs * nanosPerSec)
    (ready : Ready key requests calls) {front rest : List Reply} {refused retried : Reply}
    (split : l.replies requests calls = front ++ refused :: retried :: rest)
    (result : refused.result = some (.error wait))
    (waited : refused.now + wait * nanosPerSec ≤ retried.now) : retried.admits key = true := by
  induction front generalizing requests calls with
  | nil =>
    obtain _ | ⟨c, _ | ⟨c', calls⟩⟩ := calls
    · cases split
    · cases split
    · obtain ⟨first, second⟩ := cons.inj split
      obtain ⟨second, -⟩ := cons.inj second
      rcases check_cases positive requests (ready.checks c mem_cons_self) with
        ⟨-, performed⟩ | ⟨e, found, -, performed | ⟨-, performed⟩⟩ <;>
        rw [performed] at first second <;> subst first
      · cases result
      · have action : c'.action = .check key := ready.checks c' (by simp)
        rcases check_cases positive requests action with
          ⟨-, performed⟩ | ⟨e', found', running, -⟩
        · rw [← second, performed]
          simp [Reply.admits, action, Except.toBool]
        · obtain rfl : e = e' := some.inj (found.symm.trans found')
          have started := ready.started e found c mem_cons_self
          rw [← second, perform_toCall] at waited
          have enough := wait_le (length ▸ (Except.error.inj (some.inj result)).symm)
          simp only [expired, decide_eq_false_iff_not] at running
          simp only at waited
          omega
      · cases result
  | cons r _ ih =>
    obtain _ | ⟨c, calls⟩ := calls
    · cases split
    · obtain ⟨_, _, replies, next, -⟩ := ready.cases positive
      rw [replies] at split
      exact ih next (cons.inj split).2

/-! ### Runs -/

theorem checks_singleton : c.checks (· = key) = true ↔ c.action = .check key := by
  unfold Call.checks
  cases c.action <;> simp

/-- For calls in the order of their times, every interval of one window length has at most twice the
limit of admitted checks of a key, and every window at most the limit.  A check is admitted if it waits
as long as the last check of its key was told.  Cleaning up and peeking change no answer of a check. -/
theorem limiter_admission (maxRequests windowSecs : ℕ) (limited : 1 ≤ maxRequests)
    (positive : 1 ≤ windowSecs) (calls : List Call)
    (ordered : (calls.map Call.now).Pairwise (· ≤ ·)) :
    let l := new maxRequests windowSecs
    let replies := l.replies (fun _ => none) calls
    (∀ key start, admittedBetween key start (start + windowSecs * nanosPerSec) replies ≤
      2 * maxRequests) ∧
    (∀ key window, admittedIn key window replies ≤ maxRequests) ∧
    (∀ key front refused middle retried rest wait,
      replies = front ++ refused :: (middle ++ retried :: rest) →
      refused.action = .check key → refused.result = some (.error wait) →
      (∀ r ∈ middle, r.action ≠ .check key) → retried.action = .check key →
      refused.now + wait * nanosPerSec ≤ retried.now → retried.admits key = true) ∧
    l.replies (fun _ => none) (calls.filter Call.isCheck) =
      replies.filter fun r => r.toCall.isCheck := by
  intro l replies
  have limited : 1 ≤ l.maxRequests := limited
  have long : 0 < l.window := Nat.mul_pos positive (by decide)
  have inOrder : (0 :: calls.map Call.now).Pairwise (· ≤ ·) :=
    pairwise_cons.2 ⟨fun _ _ => Nat.zero_le _, ordered⟩
  have frame (keys) : l.replies (fun _ => none) (calls.filter (·.checks keys)) =
      replies.filter (·.toCall.checks keys) :=
    Alike.replies limited (fun _ _ => .inl rfl) inOrder
  have ready (key) : Ready key (fun _ => none) (calls.filter (·.checks (· = key))) :=
    ⟨fun c mem => checks_singleton.1 (mem_filter.1 mem).2, ordered.sublist (filter_sublist.map _),
      nofun⟩
  have own (key) (p : Reply → Bool) : replies.countP (fun r => r.admits key && p r) =
      (l.replies (fun _ => none) (calls.filter (·.checks (· = key)))).countP
        fun r => r.admits key && p r := by
    rw [frame, countP_filter]
    refine countP_congr fun r _ => ?_
    simp only [Reply.admits, and_eq_true, checks_singleton, decide_eq_true_eq]
    tauto
  refine ⟨fun key start => ?_, fun key window => ?_, ?_, ?_⟩
  · rw [admittedBetween, own]
    exact (ready key).between limited start
  · rw [admittedIn, own]
    exact (ready key).inWindow_le limited long rfl
  · intro key front refused middle retried rest _ split checked result others action waited
    have other : middle.filter (·.toCall.checks (· = key)) = [] :=
      filter_eq_nil_iff.2 fun r mem checks => others r mem (checks_singleton.1 checks)
    have own : l.replies (fun _ => none) (calls.filter (·.checks (· = key))) =
        front.filter (·.toCall.checks (· = key)) ++ refused :: retried ::
          rest.filter (·.toCall.checks (· = key)) := by
      rw [frame, split]
      simp [other, checks_singleton.2 checked, checks_singleton.2 action]
    exact (ready key).retried limited rfl own result waited
  · exact frame fun _ => true

/-- A check that is refused, and admitted in the next window. -/
def retriedCalls : List Call :=
  [⟨0, .check ['k']⟩, ⟨500000000, .check ['k']⟩, ⟨600000000, .peek ['k']⟩, ⟨1500000000, .cleanup⟩,
    ⟨1500000000, .check ['k']⟩]

theorem limiter_admission_retried :
    (((new 1 1).replies (fun _ => none) retriedCalls).map fun r => r.admits ['k']) =
      [true, false, false, false, true] ∧
    admittedBetween ['k'] 0 (0 + 1 * nanosPerSec)
      ((new 1 1).replies (fun _ => none) retriedCalls) ≤ 2 * 1 :=
  ⟨by decide, (limiter_admission 1 1 le_rfl le_rfl retriedCalls (by decide)).1 ['k'] 0⟩

/-- Whatever other keys do, keys get the answers they would get alone. -/
theorem keys_isolated (l : RateLimiter) (limited : 1 ≤ l.maxRequests) (calls : List Call)
    (ordered : (calls.map Call.now).Pairwise (· ≤ ·)) (keys : Text → Bool) :
    l.replies (fun _ => none) (calls.filter (·.checks keys)) =
      (l.replies (fun _ => none) calls).filter (·.toCall.checks keys) :=
  Alike.replies limited (fun _ _ => .inl rfl) (pairwise_cons.2 ⟨fun _ _ => Nat.zero_le _, ordered⟩)

theorem keys_isolated_retried :
    (new 1 1).replies (fun _ => none) (retriedCalls.filter (·.checks (· = ['k']))) =
      ((new 1 1).replies (fun _ => none) retriedCalls).filter (·.toCall.checks (· = ['k'])) :=
  keys_isolated _ le_rfl _ (by decide) _

end ArtifactKeeper.RateLimits
