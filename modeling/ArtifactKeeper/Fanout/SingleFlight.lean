import ArtifactKeeper.Library.Broadcast
import ArtifactKeeper.Library.StepSystem
import ArtifactKeeper.Storage

/-!
# The streaming fan-out

Callers of `coordinate_stream_fanout` for one key share a slot.  The leader opens upstream and sends
every chunk of its body to the channel of the slot; a caller that comes before the first chunk is
handed a copy of the body, a later one only waits.
-/

namespace ArtifactKeeper.Fanout

open Broadcast StepSystem Function

structure StreamHeaders where
  contentType : Option Text
  contentLength : Option ℕ
  etag : Option Text
  contentEncoding : Option Text
  commitSha : Option Text
  staleSince : Option ℤ
  deriving DecidableEq

inductive StreamItem
  | chunk (bytes : Bytes)
  | done
  | failed (reason : Text)
  deriving DecidableEq

/-! ### Leaders -/

/-- What the open step produced. -/
inductive LeaderOpen
  | body (headers : StreamHeaders)
  | reElect
  | error (e : Text)

inductive Polled
  | chunk (bytes : Bytes)
  | error (e : Text)
  | eof
  deriving DecidableEq

inductive Leading
  | opening
  | reElected
  | openFailed (e : Text)
  | releasing
  | publishing (headers : StreamHeaders)
  | unpolled
  | streaming
  | ended
  | dropped
  deriving DecidableEq

structure StreamSlot where
  key : Text
  /-- What was sent on the broadcast channel. -/
  sent : List StreamItem
  headers : Option StreamHeaders
  started : Bool
  leading : Leading
  opened : Option StreamHeaders
  /-- What the body has returned so far (only observed). -/
  polled : List Polled

inductive LeaderEvent
  | opened (result : LeaderOpen)
  | announce
  | publish
  | start
  | poll (item : Polled)

def StreamSlot.elect (key : Text) : StreamSlot := ⟨key, [], none, false, .opening, none, []⟩

/-- What is broadcast for an item of the body. -/
def Polled.item : Polled → StreamItem
  | .chunk bytes => .chunk bytes
  | .error e => .failed e
  | .eof => .done

/-- After an error or the end the body is not polled again. -/
def Polled.next : Polled → Leading
  | .chunk _ => .streaming
  | .error _ | .eof => .ended

/-- The leader's part of `coordinate_stream_fanout_with` and `leader_handle`. -/
def StreamSlot.lead (slot : StreamSlot) (event : LeaderEvent) : Option StreamSlot :=
  match slot.leading, event with
  | .opening, .opened (.body headers) =>
    some { slot with leading := .publishing headers, opened := some headers }
  | .opening, .opened .reElect => some { slot with leading := .reElected }
  | .opening, .opened (.error e) => some { slot with leading := .openFailed e }
  | .openFailed e, .announce =>
    some { slot with
      leading := .releasing, sent := slot.sent ++ [.failed ("upstream open failed: " ++ e)] }
  | .publishing headers, .publish =>
    some { slot with leading := .unpolled, headers := some headers }
  | .unpolled, .start => some { slot with leading := .streaming, started := true }
  | .streaming, .poll item =>
    some { slot with
      leading := item.next, sent := slot.sent ++ [item.item], polled := slot.polled ++ [item] }
  | _, _ => none

/-! ### Followers -/

inductive FollowWatch
  | capture
  | waitOnly
  deriving DecidableEq

structure Watch where
  watch : FollowWatch
  chunks : List Bytes
  captured : ℕ
  overWindow : Bool
  deriving DecidableEq

def Watch.enter (watch : FollowWatch) : Watch := ⟨watch, [], 0, false⟩

def fanoutCaptureMaxBytes : ℕ := 16 * 1024 * 1024

def saturatingAdd (a b : ℕ) : ℕ := min (a + b) (2 ^ 64 - 1)

/-- What a follower hears: nothing for the stall window, or a report of the channel. -/
inductive Heard
  | elapsed
  | told (report : Report StreamItem)

def watchLeaderFanout (w : Watch) : Heard → Watch ⊕ Option (List Bytes)
  | .elapsed => .inr none
  | .told (.item (.chunk chunk)) =>
    if w.watch = .capture then
      let captured := saturatingAdd w.captured chunk.length
      if fanoutCaptureMaxBytes < captured then .inl ⟨.waitOnly, [], captured, true⟩
      else .inl { w with chunks := w.chunks ++ [chunk], captured := captured }
    else .inl w
  | .told (.item .done) => .inr (if w.overWindow then none else some w.chunks)
  | .told (.item (.failed _)) => .inr none
  | .told (.lagged _) => if w.watch = .waitOnly then .inl w else .inr none
  | .told .closed => .inr none

/-- The body of a follower is the list of its chunks. -/
structure StreamHandle where
  body : List Bytes
  headers : StreamHeaders
  deriving DecidableEq

def replayHandle (chunks : List Bytes) (headers : StreamHeaders) : StreamHandle := ⟨chunks, headers⟩

inductive Following
  /-- It waits for the headers. -/
  | joined
  /-- It watches the leader, without headers if it came late. -/
  | watching (headers : Option StreamHeaders) (w : Watch)
  | returned (result : Option StreamHandle)
  deriving DecidableEq

structure Follower where
  key : Text
  slot : ℕ
  position : ℕ
  state : Following
  deriving DecidableEq

inductive FollowerEvent
  | headers
  | headersClosed
  | elapsed
  | receive (answer : Answer)

def afterWatch (headers : Option StreamHeaders) : Watch ⊕ Option (List Bytes) → Following
  | .inl w => .watching headers w
  | .inr chunks => .returned (headers.bind fun headers => chunks.map (replayHandle · headers))

/-- The part of `coordinate_stream_fanout_with` for the other callers. -/
def Follower.follow (f : Follower) (slot : StreamSlot) : FollowerEvent → Option Follower
  | .headers =>
    match f.state, slot.headers with
    | .joined, some headers => some { f with state := .watching (some headers) (.enter .capture) }
    | _, _ => none
  | .headersClosed =>
    if f.state = .joined ∧ slot.headers = none ∧ slot.leading = .dropped then
      some { f with state := .returned none }
    else none
  | .elapsed =>
    match f.state with
    | .watching headers w => some { f with state := afterWatch headers (watchLeaderFanout w .elapsed) }
    | _ => none
  | .receive answer =>
    match f.state with
    | .watching headers w =>
      (receive slot.sent f.position answer).map fun (report, position) =>
        { f with
          position := position, state := afterWatch headers (watchLeaderFanout w (.told report)) }
    | _ => none

/-! ### The registry -/

structure State where
  /-- Every slot that was ever created. -/
  slots : List StreamSlot
  registry : Text → Option ℕ
  followers : List Follower

variable (s : State)

/-- The first caller for a key is elected. -/
def acquireStreamSlot (key : Text) : Option State :=
  match s.registry key with
  | some index => s.slots[index]?.map fun existing =>
    let state :=
      if existing.started then .watching none (.enter .waitOnly) else .joined
    { s with followers := s.followers ++ [⟨key, index, existing.sent.length, state⟩] }
  | none =>
    some { s with
      slots := s.slots ++ [.elect key],
      registry := update s.registry key (some s.slots.length) }

def dropLease (index : ℕ) (slot : StreamSlot) : State :=
  { s with
    slots := s.slots.set index { slot with leading := .dropped },
    registry := if s.registry slot.key = some index then update s.registry slot.key none
      else s.registry }

inductive Event
  | call (key : Text)
  | lead (index : ℕ) (event : LeaderEvent)
  | drop (index : ℕ)
  | follow (index : ℕ) (event : FollowerEvent)

def step : Event → Option State
  | .call key => acquireStreamSlot s key
  | .lead index event =>
    s.slots[index]?.bind fun slot => (slot.lead event).map fun slot =>
      { s with slots := s.slots.set index slot }
  | .drop index =>
    s.slots[index]?.bind fun slot =>
      if slot.leading = .dropped then none else some (dropLease s index slot)
  | .follow index event =>
    s.followers[index]?.bind fun f => s.slots[f.slot]?.bind fun slot =>
      (f.follow slot event).map fun f => { s with followers := s.followers.set index f }

def boot : State := ⟨[], fun _ => none, []⟩

open List Option

variable {slot slot' : StreamSlot} {s s' : State}

/-! ### Slots -/

def StreamSlot.Doomed (slot : StreamSlot) : Prop :=
  slot.opened = none ∧ (slot.leading = .releasing ∨ slot.leading = .dropped)

/-- The body has returned some chunks, and then perhaps an error or its end. -/
def Chunked (polled : List Polled) : Prop :=
  ∃ chunks : List Bytes, polled = chunks.map .chunk ∨
    (∃ e, polled = chunks.map .chunk ++ [.error e]) ∨ polled = chunks.map .chunk ++ [.eof]

/-- Nothing was sent and the body was not polled. -/
structure StreamSlot.Quiet (slot : StreamSlot) : Prop where
  sent : slot.sent = []
  polled : slot.polled = []

def StreamSlot.At (slot : StreamSlot) : Leading → Prop
  | .opening | .reElected | .openFailed _ => slot.Quiet ∧ slot.opened = none
  | .releasing => slot.polled = [] ∧ slot.opened = none
  | .publishing headers => slot.Quiet ∧ slot.opened = some headers
  | .unpolled => slot.Quiet
  | .streaming => slot.started = true ∧ ∃ chunks : List Bytes, slot.polled = chunks.map .chunk
  | .ended => slot.started = true
  | .dropped => True

structure StreamSlot.Ok (slot : StreamSlot) : Prop where
  at_ : slot.At slot.leading
  /-- Published headers are those of the body. -/
  headers : ∀ headers, slot.headers = some headers → slot.opened = some headers
  /-- Once upstream is open, what is sent is what the body returns. -/
  sent : slot.opened ≠ none → slot.sent = slot.polled.map Polled.item
  chunked : Chunked slot.polled
  ended : .eof ∈ slot.polled → slot.leading = .ended ∨ slot.leading = .dropped

structure StreamSlot.Later (slot slot' : StreamSlot) : Prop where
  key : slot'.key = slot.key
  opened : ∀ headers, slot.opened = some headers → slot'.opened = some headers
  sent : slot.sent <+: slot'.sent
  doomed : slot.Doomed → slot'.Doomed
  eof : .eof ∈ slot.polled → slot'.polled = slot.polled

theorem StreamSlot.Later.refl (slot : StreamSlot) : slot.Later slot :=
  ⟨rfl, fun _ => id, prefix_rfl, id, fun _ => rfl⟩

theorem ok_elect (key : Text) : (StreamSlot.elect key).Ok :=
  ⟨⟨⟨rfl, rfl⟩, rfl⟩, nofun, fun some => absurd rfl some, ⟨[], .inl rfl⟩, nofun⟩

theorem StreamSlot.Ok.headers_ne (ok : slot.Ok) (unopened : slot.opened = none)
    (headers : StreamHeaders) : slot.headers ≠ some headers := by
  intro found
  have opened := ok.headers headers found
  rw [unopened] at opened
  cases opened

/-- The leader has something left to do. -/
def Leading.Busy (leading : Leading) : Prop :=
  leading ≠ .releasing ∧ leading ≠ .ended ∧ leading ≠ .dropped

theorem StreamSlot.Ok.no_eof (ok : slot.Ok) (busy : slot.leading.Busy) : .eof ∉ slot.polled := by
  intro mem
  rcases ok.ended mem with ended | dropped
  · exact busy.2.1 ended
  · exact busy.2.2 dropped

theorem StreamSlot.Ok.later (ok : slot.Ok) (busy : slot.leading.Busy) (key : slot'.key = slot.key)
    (opened : ∀ headers, slot.opened = some headers → slot'.opened = some headers)
    (sent : slot.sent <+: slot'.sent) : slot.Later slot' :=
  ⟨key, opened, sent, fun doomed => (doomed.2.elim busy.1 busy.2.2).elim,
    fun mem => absurd mem (ok.no_eof busy)⟩

theorem chunked_poll {chunks : List Bytes} (item : Polled) :
    Chunked (chunks.map .chunk ++ [item]) := by
  cases item with
  | chunk bytes => exact ⟨chunks ++ [bytes], .inl (by simp)⟩
  | error e => exact ⟨chunks, .inr (.inl ⟨e, rfl⟩)⟩
  | eof => exact ⟨chunks, .inr (.inr rfl)⟩

variable {event : LeaderEvent}

theorem busy_of_lead (led : slot.lead event = some slot') : slot.leading.Busy := by
  unfold StreamSlot.lead at led
  split at led <;> simp_all [Leading.Busy]

theorem lead_ok (ok : slot.Ok) (led : slot.lead event = some slot') :
    slot'.Ok ∧ slot.Later slot' := by
  have place := ok.at_
  have busy := busy_of_lead led
  have unfinished : Polled.eof ∉ slot.polled := ok.no_eof busy
  unfold StreamSlot.lead at led
  split at led <;> cases led
  · next headers here =>
    rw [here] at place
    obtain ⟨quiet, unopened⟩ := place
    refine ⟨⟨⟨⟨quiet.sent, quiet.polled⟩, rfl⟩, ?_, ?_, ok.chunked, ?_⟩,
      ok.later busy rfl ?_ prefix_rfl⟩
    · exact fun headers found => absurd found (ok.headers_ne unopened headers)
    · intro _
      rw [quiet.sent, quiet.polled]
      rfl
    · exact (absurd · unfinished)
    · intro _ found
      rw [unopened] at found
      cases found
  · next here =>
    rw [here] at place
    exact ⟨⟨⟨⟨place.1.sent, place.1.polled⟩, place.2⟩, ok.headers, ok.sent, ok.chunked,
      (absurd · unfinished)⟩, ok.later busy rfl (fun _ => id) prefix_rfl⟩
  · next e here =>
    rw [here] at place
    exact ⟨⟨⟨⟨place.1.sent, place.1.polled⟩, place.2⟩, ok.headers, ok.sent, ok.chunked,
      (absurd · unfinished)⟩, ok.later busy rfl (fun _ => id) prefix_rfl⟩
  · next e here =>
    rw [here] at place
    obtain ⟨quiet, unopened⟩ := place
    exact ⟨⟨⟨quiet.polled, unopened⟩, ok.headers, fun opened => absurd unopened opened, ok.chunked,
      (absurd · unfinished)⟩,
      ok.later busy rfl (fun _ => id) (prefix_append _ _)⟩
  · next _ here =>
    rw [here] at place
    obtain ⟨quiet, opened⟩ := place
    refine ⟨⟨⟨quiet.sent, quiet.polled⟩, ?_, ok.sent, ok.chunked,
      (absurd · unfinished)⟩, ok.later busy rfl (fun _ => id) prefix_rfl⟩
    intro _ published
    rw [← published]
    exact opened
  · next here =>
    rw [here] at place
    exact ⟨⟨⟨rfl, [], place.polled⟩, ok.headers, ok.sent, ok.chunked,
      (absurd · unfinished)⟩, ok.later busy rfl (fun _ => id) prefix_rfl⟩
  · next item here =>
    rw [here] at place
    obtain ⟨started, chunks, polled⟩ := place
    refine ⟨⟨?_, ok.headers, ?_, ?_, ?_⟩, ok.later busy rfl (fun _ => id) (prefix_append _ _)⟩
    · cases item with
      | chunk bytes => exact ⟨started, chunks ++ [bytes], by simp [polled]⟩
      | error e | eof => exact started
    · intro opened
      rw [ok.sent opened, map_append, map_singleton]
    · dsimp only
      rw [polled]
      exact chunked_poll item
    · intro mem
      rcases mem_append.1 mem with before | here
      · exact absurd before unfinished
      · rw [← mem_singleton.1 here]
        exact .inl rfl

/-! ### Followers -/

def Following.Ok (slot : StreamSlot) (position : ℕ) : Following → Prop
  | .joined => position = 0 ∨ slot.Doomed
  | .watching none _ => True
  | .watching (some headers) w =>
    slot.opened = some headers ∧
      ((w.watch = .capture ∧ Followed slot.sent position (w.chunks.map .chunk)) ∨
        w.overWindow = true)
  | .returned none => True
  | .returned (some handle) =>
    slot.opened = some handle.headers ∧ slot.polled = handle.body.map .chunk ++ [.eof]

theorem Following.Ok.mono {position : ℕ} {state : Following} (ok : state.Ok slot position)
    (later : slot.Later slot') : state.Ok slot' position := by
  match state, ok with
  | .joined, ok => exact ok.imp_right later.doomed
  | .watching none _, _ => trivial
  | .watching (some headers) w, ⟨opened, seen⟩ =>
    exact ⟨later.opened headers opened,
      seen.imp_left fun ⟨capture, followed⟩ => ⟨capture, followed.mono later.sent⟩⟩
  | .returned none, _ => trivial
  | .returned (some handle), ⟨opened, whole⟩ =>
    refine ⟨later.opened _ opened, ?_⟩
    rw [later.eof (by rw [whole]; simp), whole]

theorem item_chunks (chunks : List Bytes) :
    (chunks.map Polled.chunk).map Polled.item = chunks.map .chunk := by
  rw [List.map_map]
  rfl

/-- The end marker follows the whole body. -/
theorem polled_of_done {polled : List Polled} {chunks : List Bytes} (chunked : Chunked polled)
    (seen : chunks.map .chunk ++ [.done] <+: polled.map Polled.item) :
    polled = chunks.map .chunk ++ [.eof] := by
  have noDone : ∀ all : List Bytes, StreamItem.done ∉ all.map .chunk := by simp
  have done : .done ∈ polled.map Polled.item := seen.subset (by simp)
  obtain ⟨all, rfl | ⟨e, rfl⟩ | rfl⟩ := chunked
  · rw [item_chunks] at done
    exact absurd done (noDone all)
  · rw [map_append, item_chunks] at done
    simp [Polled.item] at done
  · rw [map_append, item_chunks, map_singleton] at seen
    rcases prefix_concat_iff.1 seen with same | short
    · have equal := (append_inj_left' same rfl)
      rw [(map_injective_iff.2 fun _ _ => StreamItem.chunk.inj) equal]
    · exact absurd (short.subset (by simp)) (noDone all)

theorem watch_ok (ok : slot.Ok) {headers : Option StreamHeaders} {w : Watch} {position next : ℕ}
    {answer : Answer} {report : Report StreamItem}
    (before : (Following.watching headers w).Ok slot position)
    (told : receive slot.sent position answer = some (report, next)) :
    (afterWatch headers (watchLeaderFanout w (.told report))).Ok slot next := by
  cases headers with
  | none =>
    -- a late caller is never handed a body
    cases watchLeaderFanout w (.told report) with
    | inl w | inr chunks => trivial
  | some _ =>
    obtain ⟨opened, seen⟩ := before
    cases report with
    | closed => trivial
    | lagged =>
      unfold watchLeaderFanout
      dsimp only
      split_ifs with waits
      · refine ⟨opened, .inr (seen.resolve_left fun ⟨capture, _⟩ => ?_)⟩
        rw [waits] at capture
        cases capture
      · trivial
    | item item =>
      obtain ⟨here, rfl⟩ := receive_item told
      cases item with
      | failed => trivial
      | done =>
        unfold watchLeaderFanout
        dsimp only
        split_ifs with window
        · trivial
        · obtain ⟨-, followed⟩ := seen.resolve_right window
          have front := followed.prefix_item here
          rw [ok.sent (by rw [opened]; nofun)] at front
          exact ⟨opened, polled_of_done ok.chunked front⟩
      | chunk =>
        unfold watchLeaderFanout
        dsimp only
        split_ifs with capture window
        · exact ⟨opened, .inr rfl⟩
        · refine ⟨opened, seen.imp_left fun ⟨_, followed⟩ => ⟨capture, ?_⟩⟩
          have longer := followed.item here
          rw [map_append]
          exact longer
        · exact ⟨opened, .inr (seen.resolve_left fun both => capture both.1)⟩

theorem follow_ok (ok : slot.Ok) {f f' : Follower} {event : FollowerEvent}
    (before : f.state.Ok slot f.position) (followed : f.follow slot event = some f') :
    f'.key = f.key ∧ f'.slot = f.slot ∧ f'.state.Ok slot f'.position := by
  cases event with
  | headers =>
    rw [Follower.follow] at followed
    split at followed <;> cases followed
    next headers joined published =>
    rw [joined] at before
    have opened := ok.headers headers published
    -- a slot with headers was opened in time
    have first : f.position = 0 := before.resolve_right fun doomed => by
      rw [doomed.1] at opened
      cases opened
    refine ⟨rfl, rfl, opened, .inl ⟨rfl, ?_⟩⟩
    rw [first]
    exact followed_start _
  | headersClosed =>
    rw [Follower.follow] at followed
    split_ifs at followed
    cases followed
    exact ⟨rfl, rfl, trivial⟩
  | elapsed =>
    rw [Follower.follow] at followed
    split at followed <;> cases followed
    next headers w watching =>
    refine ⟨rfl, rfl, ?_⟩
    cases headers <;> trivial
  | receive =>
    rw [Follower.follow] at followed
    split at followed
    · next headers w watching =>
      obtain ⟨⟨report, next⟩, told, rfl⟩ := map_eq_some_iff.1 followed
      rw [watching] at before
      exact ⟨rfl, rfl, watch_ok ok before told⟩
    · cases followed

/-! ### The registry -/

structure Safe (s : State) : Prop where
  /-- The registry holds the slots whose lease was not dropped. -/
  registered : ∀ key index, s.registry key = some index ↔
    ∃ slot, s.slots[index]? = some slot ∧ slot.key = key ∧ slot.leading ≠ .dropped
  slots : ∀ (index : ℕ) (slot : StreamSlot), s.slots[index]? = some slot → slot.Ok
  followers : ∀ f ∈ s.followers, ∃ slot, s.slots[f.slot]? = some slot ∧ slot.key = f.key ∧
    f.state.Ok slot f.position

/-- Every slot is still there, perhaps later. -/
def Outlives (slots slots' : List StreamSlot) : Prop :=
  ∀ (index : ℕ) (slot : StreamSlot), slots[index]? = some slot →
    ∃ slot', slots'[index]? = some slot' ∧ slot.Later slot'

variable {slots : List StreamSlot} {index : ℕ}

theorem outlives_set (here : slots[index]? = some slot) (later : slot.Later slot') :
    Outlives slots (slots.set index slot') := by
  intro other found there
  obtain ⟨inside, -⟩ := List.getElem?_eq_some_iff.1 here
  by_cases same : index = other
  · subst same
    refine ⟨slot', getElem?_set_self inside, ?_⟩
    rw [← some.inj (here.symm.trans there)]
    exact later
  · exact ⟨found, by rw [getElem?_set_ne same, there], .refl found⟩

theorem Safe.followers_mono (safe : Safe s) (outlives : Outlives s.slots slots) : ∀ f ∈ s.followers,
      ∃ slot, slots[f.slot]? = some slot ∧ slot.key = f.key ∧ f.state.Ok slot f.position := by
  intro f among
  obtain ⟨slot, here, key, ok⟩ := safe.followers f among
  obtain ⟨slot', there, later⟩ := outlives _ slot here
  exact ⟨slot', there, later.key.trans key, ok.mono later⟩

theorem Safe.slots_set (safe : Safe s) (ok : slot'.Ok) :
    ∀ (other : ℕ) (found : StreamSlot), (s.slots.set index slot')[other]? = some found →
      found.Ok := by
  intro other found there
  rw [getElem?_set] at there
  split_ifs at there
  · exact some.inj there ▸ ok
  · exact safe.slots other found there

theorem lead_live (led : slot.lead event = some slot') :
    slot.leading ≠ .dropped ∧ slot'.leading ≠ .dropped := by
  unfold StreamSlot.lead at led
  split at led <;> cases led
  case h_7 item here => cases item <;> simp [here, Polled.next]
  all_goals
    next here => simp [here]

theorem safe_lead (safe : Safe s) (here : s.slots[index]? = some slot)
    (led : slot.lead event = some slot') : Safe { s with slots := s.slots.set index slot' } := by
  obtain ⟨ok, later⟩ := lead_ok (safe.slots index slot here) led
  obtain ⟨live, live'⟩ := lead_live led
  obtain ⟨inside, -⟩ := List.getElem?_eq_some_iff.1 here
  refine ⟨fun key other => ?_, safe.slots_set ok, safe.followers_mono (outlives_set here later)⟩
  rw [safe.registered key other]
  by_cases same : index = other
  · subst same
    rw [here, getElem?_set_self inside]
    simp [live, live', later.key]
  · rw [getElem?_set_ne same]

theorem safe_drop (safe : Safe s) (here : s.slots[index]? = some slot)
    (live : slot.leading ≠ .dropped) : Safe (dropLease s index slot) := by
  have ok := safe.slots index slot here
  have mine : s.registry slot.key = some index := (safe.registered _ _).2 ⟨slot, here, rfl, live⟩
  obtain ⟨inside, -⟩ := List.getElem?_eq_some_iff.1 here
  have dropped : StreamSlot.Ok { slot with leading := .dropped } :=
    ⟨trivial, ok.headers, ok.sent, ok.chunked, fun _ => .inr rfl⟩
  have later : slot.Later { slot with leading := .dropped } :=
    ⟨rfl, fun _ => id, prefix_rfl, fun doomed => ⟨doomed.1, .inr rfl⟩, fun _ => rfl⟩
  refine ⟨fun key other => ?_, safe.slots_set dropped,
    safe.followers_mono (outlives_set here later)⟩
  unfold dropLease
  rw [if_pos mine]
  dsimp only
  by_cases same : index = other
  · subst same
    rw [getElem?_set_self inside]
    refine iff_of_false ?_ (by simp)
    by_cases owned : key = slot.key
    · rw [owned, update_self]
      nofun
    · rw [update_of_ne owned, safe.registered]
      rintro ⟨_, there, rfl, -⟩
      exact owned (by rw [some.inj (here.symm.trans there)])
  · rw [getElem?_set_ne same, ← safe.registered]
    by_cases owned : key = slot.key
    · rw [owned, update_self, mine]
      exact iff_of_false nofun fun equal => same (some.inj equal)
    · rw [update_of_ne owned]

theorem safe_call (safe : Safe s) {key : Text} (called : acquireStreamSlot s key = some s') :
    Safe s' := by
  unfold acquireStreamSlot at called
  split at called
  · next index registered =>
    obtain ⟨slot, here, rfl⟩ := map_eq_some_iff.1 called
    obtain ⟨_, there, owned, live⟩ := (safe.registered key index).1 registered
    obtain rfl := some.inj (here.symm.trans there)
    refine ⟨safe.registered, safe.slots, fun f among => ?_⟩
    rcases mem_append.1 among with before | new
    · exact safe.followers f before
    · obtain rfl := mem_singleton.1 new
      refine ⟨slot, here, owned, ?_⟩
      split_ifs with started
      · trivial
      · -- nothing was sent yet, unless upstream could not be opened
        have place := (safe.slots index slot here).at_
        show slot.sent.length = 0 ∨ slot.Doomed
        rw [length_eq_zero_iff]
        cases phase : slot.leading with
        | releasing =>
          rw [phase] at place
          exact .inr ⟨place.2, .inl phase⟩
        | streaming =>
          rw [phase] at place
          exact absurd place.1 started
        | ended =>
          rw [phase] at place
          exact absurd place started
        | dropped => exact absurd phase live
        | opening | reElected | openFailed | publishing =>
          rw [phase] at place
          exact .inl place.1.sent
        | unpolled =>
          rw [phase] at place
          exact .inl place.sent
  · next free =>
    obtain rfl := some.inj called
    have old : Outlives s.slots (s.slots ++ [.elect key]) := fun index slot here =>
      ⟨slot, by rw [getElem?_append_left (List.getElem?_eq_some_iff.1 here).1, here], .refl slot⟩
    refine ⟨fun key' index => ?_, fun index slot here => ?_, safe.followers_mono old⟩
    · dsimp only
      by_cases new : index = s.slots.length
      · subst new
        rw [getElem?_concat_length]
        by_cases same : key' = key
        · subst same
          rw [update_self]
          exact iff_of_true rfl ⟨_, rfl, rfl, nofun⟩
        · rw [update_of_ne same, safe.registered]
          refine iff_of_false ?_ ?_
          · rintro ⟨_, here, -⟩
            rw [getElem?_eq_none le_rfl] at here
            cases here
          · rintro ⟨_, here, rfl, -⟩
            exact same (by rw [← some.inj here]; rfl)
      · have others : (s.slots ++ [StreamSlot.elect key])[index]? = s.slots[index]? := by
          rw [getElem?_append]
          split_ifs with inside
          · rfl
          · rw [getElem?_eq_none (by simp; omega), getElem?_eq_none (by omega)]
        rw [others, ← safe.registered]
        by_cases same : key' = key
        · subst same
          rw [update_self, free]
          exact iff_of_false (fun equal => new (some.inj equal).symm) nofun
        · rw [update_of_ne same]
    · rcases mem_append.1 (mem_of_getElem? here) with before | new
      · obtain ⟨other, there⟩ := mem_iff_getElem?.1 before
        exact safe.slots other slot there
      · rw [mem_singleton.1 new]
        exact ok_elect key

theorem safe_step (safe : Safe s) {event : Event} (taken : step s event = some s') : Safe s' := by
  cases event with
  | call => exact safe_call safe taken
  | lead =>
    obtain ⟨_, here, moved⟩ := bind_eq_some_iff.1 taken
    obtain ⟨_, led, rfl⟩ := map_eq_some_iff.1 moved
    exact safe_lead safe here led
  | drop =>
    obtain ⟨_, here, dropped⟩ := bind_eq_some_iff.1 taken
    split_ifs at dropped with live
    obtain rfl := some.inj dropped
    exact safe_drop safe here live
  | follow =>
    obtain ⟨f, mem, found⟩ := bind_eq_some_iff.1 taken
    obtain ⟨slot, here, moved⟩ := bind_eq_some_iff.1 found
    obtain ⟨_, followed, rfl⟩ := map_eq_some_iff.1 moved
    refine ⟨safe.registered, safe.slots, fun g among => ?_⟩
    rcases mem_or_eq_of_mem_set among with before | rfl
    · exact safe.followers g before
    · obtain ⟨_, there, key, ok⟩ := safe.followers f (mem_of_getElem? mem)
      obtain rfl := some.inj (here.symm.trans there)
      obtain ⟨sameKey, sameSlot, ok'⟩ := follow_ok (safe.slots _ slot here) ok followed
      exact ⟨slot, by rw [sameSlot, here], key.trans sameKey.symm, ok'⟩

theorem safe_boot : Safe boot := by
  have empty : ∀ index : ℕ, boot.slots[index]? = none := fun _ => rfl
  refine ⟨fun key index => iff_of_false ?_ ?_, ?_, ?_⟩
  · nofun
  · rintro ⟨_, here, -⟩
    rw [empty] at here
    cases here
  · intro _ _ here
    rw [empty] at here
    cases here
  · intro f among
    exact absurd among not_mem_nil

theorem safe_of_reach (reach : Reach step (· = boot) Any s) : Safe s :=
  reach.invariant (fun _ initial => initial ▸ safe_boot) fun _ _ _ safe _ taken =>
    safe_step safe taken

/-- There is one leader for a key between its election and the drop of its lease, and a follower
returns a body only if it is the complete body of a leader, with that leader's headers. -/
theorem stream_single_flight (reach : Reach step (· = boot) Any s) :
    (∀ (i j : ℕ) (slot slot' : StreamSlot), s.slots[i]? = some slot → s.slots[j]? = some slot' →
      slot.key = slot'.key → slot.leading ≠ .dropped → slot'.leading ≠ .dropped → i = j) ∧
    ∀ f ∈ s.followers, ∀ result, f.state = .returned result → result = none ∨
      ∃ handle slot, result = some handle ∧ s.slots[f.slot]? = some slot ∧ slot.key = f.key ∧
        slot.polled = handle.body.map .chunk ++ [.eof] ∧ slot.opened = some handle.headers := by
  have safe := safe_of_reach reach
  constructor
  · intro i j slot slot' here there same live live'
    have first := (safe.registered slot.key i).2 ⟨slot, here, rfl, live⟩
    have second := (safe.registered slot.key j).2 ⟨slot', there, same.symm, live'⟩
    exact some.inj (first.symm.trans second)
  · intro f among result returned
    obtain ⟨slot, here, key, ok⟩ := safe.followers f among
    rw [returned] at ok
    cases result with
    | none => exact .inl rfl
    | some handle => exact .inr ⟨handle, slot, rfl, here, key, ok.2, ok.1⟩

def plainHeaders : StreamHeaders := ⟨none, some 3, none, none, none, none⟩

theorem stream_single_flight_followed :
    ∃ s, Reach step (· = boot) Any s ∧ ∃ f ∈ s.followers,
      f.state = .returned (some ⟨[[1, 2], [3]], plainHeaders⟩) ∧
      ∃ slot, s.slots[f.slot]? = some slot ∧ slot.key = f.key ∧
        slot.polled = [.chunk [1, 2], .chunk [3], .eof] ∧ slot.opened = some plainHeaders := by
  obtain ⟨s, reach, f, among, returned⟩ := Reach.exists_of_free step (· = boot) boot rfl
      [.call ['k'], .call ['k'], .lead 0 (.opened (.body plainHeaders)), .lead 0 .publish,
        .follow 0 .headers, .lead 0 .start, .call ['k'], .lead 0 (.poll (.chunk [1, 2])),
        .follow 0 (.receive .next), .lead 0 (.poll (.chunk [3])), .lead 0 (.poll .eof), .drop 0,
        .call ['k'], .follow 0 (.receive .next), .follow 0 (.receive .next)]
      (fun s => ∃ f ∈ s.followers, f.state = .returned (some ⟨[[1, 2], [3]], plainHeaders⟩))
        (by decide +kernel)
  obtain none | ⟨_, slot, same, here, key, whole, opened⟩ :=
    (stream_single_flight reach).2 f among _ returned
  · cases none
  · obtain rfl := some.inj same
    exact ⟨s, reach, f, among, returned, slot, here, key, whole, opened⟩

end ArtifactKeeper.Fanout
