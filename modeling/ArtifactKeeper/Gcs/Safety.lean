import ArtifactKeeper.Storage

/-!
# Resumable sessions

The header texts of the resumable protocol as the client writes and reads them, and the server as
the protocol allows it to behave.
-/

namespace ArtifactKeeper.Gcs

open ByteStreams List Option Text Prod Except

/-! ### Headers -/

/-- The total of a `Content-Range`, known with the last chunk only. -/
def totalText : Option ℕ → Text
  | some t => decimal t
  | none => "*"

def contentRange (start len : ℕ) (total : Option ℕ) : Text :=
  if len = 0 then "bytes */" ++ totalText total
  else "bytes " ++ (decimal start ++ '-' :: decimal (start + len - 1) ++ '/' :: totalText total)

variable (header : Text)

/-- The offset after the bytes a `Range` header confirms. -/
def parseResumableRangeNext : Option ℕ :=
  let header := trim header
  match sliceTo 6 header with
  | none => none
  | some front =>
    if eqIgnoreAsciiCase front "bytes=" then
      match splitOnce '-' (header.drop front.length) with
      | none => none
      | some (start, last) =>
        if trim start ≠ "0" then none
        else
          match parseUnsigned (2 ^ 64) (trim last) with
          | none => none
          | some confirmed => if confirmed + 1 < 2 ^ 64 then some (confirmed + 1) else none
    else none

def isTransientStatus (status : ℕ) : Bool := status == 429 || 500 ≤ status && status ≤ 599

def isSuccess (status : ℕ) : Bool := 200 ≤ status && status ≤ 299

/-! ### The server -/

def readTotal (s : Text) : Option (Option ℕ) :=
  if s = "*" then some none else (digitsValue 10 s).map some

/-- What a `Content-Range` says: the first byte of the body, if there are any, and the total. -/
def readContentRange : Option (Option ℕ × Option ℕ) :=
  match stripPrefix header "bytes " with
  | none => none
  | some rest =>
    match splitOnce '/' rest with
    | none => none
    | some (window, totalStr) =>
      match readTotal totalStr with
      | none => none
      | some total =>
        if window = "*" then some (none, total)
        else
          match splitOnce '-' window with
          | none => none
          | some (startStr, _) =>
            (digitsValue 10 startStr).map fun start => (some start, total)

structure Session where
  persisted : Bytes
  finalized : Bool
  deriving DecidableEq

structure Response where
  status : ℕ
  rangeHeader : Option Text
  body : Text
  deriving DecidableEq

inductive Reply
  /-- The result; a request that is refused gets `refusal`. -/
  | truthful (refusal : ℕ) (refused : isSuccess refusal = false) (body : Text)
  | transient (status : ℕ) (isTransient : isTransientStatus status = true) (body : Text)
  | lost (reason : Text)

structure Fate where
  kept : ℕ
  closes : Bool
  reply : Reply

structure Cloud where
  session : Session
  object : Option Bytes
  fates : List Fate

variable (cloud : Cloud)

/-- The fate of the next request; one that is not listed gets no answer and has no effect. -/
def Cloud.nextFate : Fate :=
  cloud.fates.headD ⟨0, false, .lost []⟩

variable (session : Session)

/-- The request leaves a gap behind the persisted bytes. -/
def Session.gap (start : Option ℕ) : Bool :=
  start.any (session.persisted.length < ·)

def Session.persist (start : Option ℕ) (body : Bytes) (kept : ℕ) : Bytes :=
  if session.finalized || session.gap start then session.persisted
  else session.persisted ++
    (body.drop (session.persisted.length - start.getD session.persisted.length)).take kept

/-- The session after a request that is understood. -/
def Session.receive (start total : Option ℕ) (body : Bytes) (fate : Fate) : Session :=
  let persisted := session.persist start body fate.kept
  ⟨persisted, session.finalized ||
    !session.gap start && fate.closes && total == some persisted.length⟩

/-- The `Range` header that confirms a number of bytes. -/
def rangeHeader (confirmed : ℕ) : Option Text :=
  if confirmed = 0 then none else some ("bytes=0-" ++ decimal (confirmed - 1))

def Session.status (gap : Bool) (refusal : ℕ) : ℕ :=
  if session.finalized then 200 else if gap then refusal else 308

def Reply.answer (gap : Bool) : Reply → Except Text Response
  | .truthful refusal _ body =>
    .ok ⟨session.status gap refusal, rangeHeader session.persisted.length, body⟩
  | .transient status _ body => .ok ⟨status, none, body⟩
  | .lost reason => .error reason

def put (body : Bytes) (cloud : Cloud) : Except Text Response × Cloud :=
  let fate := cloud.nextFate
  match readContentRange header with
  | none => (fate.reply.answer cloud.session true, { cloud with fates := cloud.fates.tail })
  | some (start, total) =>
    let session := cloud.session.receive start total body fate
    (fate.reply.answer session (cloud.session.gap start),
      { session := session
        object := if session.finalized then some session.persisted else cloud.object
        fates := cloud.fates.tail })

/-! ### The resumable upload -/

/-- Transient statuses are worth a retry by the caller. -/
def mapStatusError (status : ℕ) (context body : Text) : AppError :=
  let msg := context ++ " (status " ++ decimal status ++ "): " ++ body
  if isTransientStatus status then .serviceUnavailable msg else .storage msg

def debugText (s : Text) : Text :=
  '"' :: (s.flatMap fun c => if c = '"' ∨ c = '\\' then ['\\', c] else [c]) ++ ['"']

/-! ### Status and finalisation -/

/-- `none` if the object is already made. -/
def queryResumableOffset (total : Option ℕ) (cloud : Cloud) : Except AppError (Option ℕ) × Cloud :=
  let (answer, cloud) := put (contentRange 0 0 total) [] cloud
  match answer with
  | .error reason =>
    (.error (.storage ("GCS resumable status query failed: " ++ reason)), cloud)
  | .ok resp =>
    if isSuccess resp.status then (.ok none, cloud)
    else if resp.status ≠ 308 then
      (.error (mapStatusError resp.status "GCS resumable status query failed" resp.body), cloud)
    else
      match resp.rangeHeader with
      | none => (.ok (some 0), cloud)
      | some raw =>
        match parseResumableRangeNext raw with
        | some next => (.ok (some next), cloud)
        | none =>
          (.error (.storage ("GCS resumable status query returned malformed Range header: " ++
            debugText raw)), cloud)

/-- Declare the total and require the object. -/
def finalizeResumable (total : ℕ) (cloud : Cloud) : Except AppError Unit × Cloud :=
  let range := contentRange 0 0 (some total)
  let (answer, cloud) := put range [] cloud
  match answer with
  | .error reason =>
    (.error (.serviceUnavailable ("GCS resumable finalize (range " ++ range ++
      ") network error: " ++ reason)), cloud)
  | .ok resp =>
    if isSuccess resp.status then (.ok (), cloud)
    else
      (.error (mapStatusError resp.status ("GCS resumable finalize (range " ++ range ++
        ") not confirmed") resp.body), cloud)

/-! ### One chunk -/

inductive Sent
  | accepted
  | failed (retryable : Bool) (e : AppError)

variable (finalTotal : Option ℕ)

def sendChunk (offset : ℕ) (body : Bytes) (cloud : Cloud) : Sent × Cloud :=
  let range := contentRange offset body.length finalTotal
  let (answer, cloud) := put range body cloud
  match answer with
  | .error reason =>
    (.failed true (.serviceUnavailable ("GCS resumable PUT (range " ++ range ++
      ") network error: " ++ reason)), cloud)
  | .ok resp =>
    -- the object answers the last chunk, "resume incomplete" every other
    let ok := if finalTotal.isSome then isSuccess resp.status else resp.status == 308
    if ok then (.accepted, cloud)
    else
      (.failed (isTransientStatus resp.status) (mapStatusError resp.status
        ("GCS resumable PUT (range " ++ range ++ ") returned " ++
          Text.decimal resp.status) resp.body), cloud)

/-- How to go on after a failed attempt. -/
inductive Resync
  | done
  | resume (offset : ℕ) (body : Bytes)
  | failed (e : AppError)

def resync (chunkEnd offset : ℕ) (body : Bytes) (cloud : Cloud) : Resync × Cloud :=
  match queryResumableOffset finalTotal cloud with
  | (.error e, cloud) => (.failed e, cloud)
  | (.ok none, cloud) => (.done, cloud)
  | (.ok (some confirmedNext), cloud) =>
    if chunkEnd ≤ confirmedNext then
      -- all bytes have arrived, which does not mean that the object is made
      match finalTotal with
      | none => (.done, cloud)
      | some total =>
        match finalizeResumable total cloud with
        | (.error e, cloud) => (.failed e, cloud)
        | (.ok (), cloud) => (.done, cloud)
    else if offset < confirmedNext then
      (.resume confirmedNext (body.drop (min (confirmedNext - offset) body.length)), cloud)
    else (.resume offset body, cloud)

/-- The loop of `put_chunk_with_retry`, with the number of attempts after this one. -/
def putChunkAttempts (chunkEnd : ℕ) : ℕ → ℕ → Bytes → Cloud → Except AppError ℕ × Cloud
  | left, offset, body, cloud =>
    match sendChunk finalTotal offset body cloud with
    | (.accepted, cloud) => (.ok chunkEnd, cloud)
    | (.failed retryable e, cloud) =>
      match left with
      | 0 => (.error e, cloud)
      | left + 1 =>
        if retryable then
          match resync finalTotal chunkEnd offset body cloud with
          | (.done, cloud) => (.ok chunkEnd, cloud)
          | (.failed e, cloud) => (.error e, cloud)
          | (.resume offset body, cloud) =>
            putChunkAttempts chunkEnd left offset body cloud
        else (.error e, cloud)

def chunkMaxAttempts : ℕ := 3

def putChunkWithRetry (start : ℕ) (chunk : Bytes) (finalTotal : Option ℕ) (cloud : Cloud) :
    Except AppError ℕ × Cloud :=
  putChunkAttempts finalTotal (start + chunk.length) (chunkMaxAttempts - 1) start chunk cloud

/-! ### The stream -/

structure Reader where
  hasher : Bytes
  buffer : Bytes
  stream : Option Body

/-- Read until the buffer holds a chunk or the stream ends.  `context` begins the message of a read
error. -/
def topUp (chunkSize : ℕ) (context : Text) : Bytes → Bytes → Body → Except AppError Reader
  | hasher, buffer, [] =>
    .ok ⟨hasher, buffer, if chunkSize ≤ buffer.length then some [] else none⟩
  | hasher, buffer, item :: rest =>
    if chunkSize ≤ buffer.length then .ok ⟨hasher, buffer, some (item :: rest)⟩
    else
      match item with
      | .error e => .error (.storage (context ++ e.display))
      | .ok bytes => topUp chunkSize context (hasher ++ bytes) (buffer ++ bytes) rest

def streamBytes (stream : Body) : ℕ :=
  (stream.map fun item => match item with
    | .ok bytes => bytes.length
    | .error _ => 0).sum

variable {context : Text} {hasher : Bytes} {read : Reader}

theorem topUp_bytes {chunkSize : ℕ} {buffer : Bytes} {stream rest : Body}
    (topped : topUp chunkSize context hasher buffer stream = .ok read)
    (left : read.stream = some rest) :
    chunkSize ≤ read.buffer.length ∧
      read.buffer.length + streamBytes rest = buffer.length + streamBytes stream := by
  induction stream generalizing hasher buffer with
  | nil =>
    obtain rfl := Except.ok.inj topped
    simp only [Option.ite_none_right_eq_some, Option.some.injEq] at left
    exact ⟨left.1, by rw [left.2]⟩
  | cons item _ ih =>
    rw [topUp.eq_def] at topped
    simp only at topped
    split_ifs at topped with enough
    · obtain rfl := Except.ok.inj topped
      obtain rfl := Option.some.inj left
      exact ⟨enough, rfl⟩
    · cases item with
      | error e => cases topped
      | ok _ =>
        obtain ⟨filled, same⟩ := ih topped
        refine ⟨filled, same.trans ?_⟩
        simp only [streamBytes, List.map_cons, List.sum_cons, List.length_append]
        omega

/-- The loop of `stream_resumable_chunks`; the hasher is returned with the number of bytes. -/
def streamResumableChunks (chunkSize : ℕ) (positive : 0 < chunkSize) (hasher buffer : Bytes)
    (stream : Body) (totalBytes : ℕ) (cloud : Cloud) : Except AppError (ℕ × Bytes) × Cloud :=
  match topped : topUp chunkSize "stream read error during GCS upload: " hasher buffer
      stream with
  | .error e => (.error e, cloud)
  | .ok read =>
    match left : read.stream with
    | none =>
      let finalTotal := totalBytes + read.buffer.length
      if read.buffer.isEmpty then
        -- all bytes are sent, but the total has not been declared
        match putChunkWithRetry totalBytes [] (some finalTotal) cloud with
        | (.error e, cloud) => (.error e, cloud)
        | (.ok _, cloud) => (.ok (totalBytes, read.hasher), cloud)
      else
        match putChunkWithRetry totalBytes read.buffer (some finalTotal) cloud with
        | (.error e, cloud) => (.error e, cloud)
        | (.ok totalBytes, cloud) => (.ok (totalBytes, read.hasher), cloud)
    | some rest =>
      have shorter : read.buffer.length - chunkSize + streamBytes rest <
          buffer.length + streamBytes stream := by
        have spec := topUp_bytes topped left
        omega
      match putChunkWithRetry totalBytes (read.buffer.take chunkSize) none cloud with
      | (.error e, cloud) => (.error e, cloud)
      | (.ok totalBytes, cloud) =>
        streamResumableChunks chunkSize positive read.hasher (read.buffer.drop chunkSize) rest
          totalBytes cloud
termination_by buffer.length + streamBytes stream

/-! ### The whole upload -/

/-- The single request of a small object; it is stored as a whole or not at all. -/
def authorizedPut (content : Bytes) (cloud : Cloud) : Except Text Response × Cloud :=
  let fate := cloud.nextFate
  let answer := match fate.reply with
    | .truthful refusal _ body => .ok ⟨if fate.closes then 200 else refusal, none, body⟩
    | .transient status _ body => .ok ⟨status, none, body⟩
    | .lost reason => .error reason
  (answer,
    { cloud with
      object := if fate.closes then some content else cloud.object, fates := cloud.fates.tail })

/-- Open a session; any other answer than the truthful one fails. -/
def initiateResumableSession : Except AppError Unit × Cloud :=
  let opened := { cloud with session := ⟨[], false⟩, fates := cloud.fates.tail }
  match cloud.nextFate.reply with
  | .truthful .. => (.ok (), opened)
  | .transient status _ body =>
    (.error (mapStatusError status "GCS resumable initiate failed" body), opened)
  | .lost reason => (.error (.storage ("GCS resumable initiate failed: " ++ reason)), opened)

/-- Drop the session; the object stays if it was made. -/
def abortResumableSession : Cloud := { cloud with fates := cloud.fates.tail }

section

variable {δ : Type*}

def putStreamWith (chunkSize : ℕ) (positive : 0 < chunkSize) (sha256 : Bytes → δ) (stream : Body)
    (cloud : Cloud) : Except AppError (PutStreamResult δ) × Cloud :=
  match topUp chunkSize "stream read error before GCS upload: " [] [] stream with
  | .error e => (.error e, cloud)
  | .ok read =>
    match read.stream with
    | none =>
      match authorizedPut read.buffer cloud with
      | (.error reason, cloud) =>
        (.error (.storage ("GCS upload failed: " ++ reason)), cloud)
      | (.ok resp, cloud) =>
        if isSuccess resp.status then (.ok ⟨sha256 read.hasher, read.buffer.length⟩, cloud)
        else (.error (mapStatusError resp.status "GCS upload failed" resp.body), cloud)
    | some rest =>
      match initiateResumableSession cloud with
      | (.error e, cloud) => (.error e, cloud)
      | (.ok (), cloud) =>
        match streamResumableChunks chunkSize positive read.hasher read.buffer rest 0 cloud with
        | (.ok (totalBytes, hasher), cloud) => (.ok ⟨sha256 hasher, totalBytes⟩, cloud)
        | (.error e, cloud) => (.error e, abortResumableSession cloud)

def resumableChunkSize : ℕ := 32 * 1024 * 1024

def putStream (sha256 : Bytes → δ) (stream : Body) (cloud : Cloud) :
    Except AppError (PutStreamResult δ) × Cloud :=
  putStreamWith resumableChunkSize (by decide) sha256 stream cloud

end

/-! ### Headers -/

theorem readTotal_totalText (total : Option ℕ) : readTotal (totalText total) = some total := by
  cases total with
  | none => rfl
  | some t =>
    have number : Text.decimal t ≠ "*" := fun same =>
      Text.notMem_decimal (c := '*') rfl t (same ▸ List.mem_singleton.2 rfl)
    unfold readTotal totalText
    rw [if_neg number, Text.digitsValue_decimal, Option.map_some]

theorem readContentRange_contentRange (start len : ℕ) (total : Option ℕ) :
    readContentRange (contentRange start len total) =
      some (if len = 0 then none else some start, total) := by
  unfold contentRange
  split_ifs with zero
  · have strip : Text.stripPrefix ("bytes */" ++ totalText total) "bytes " =
        some ("*" ++ '/' :: totalText total) := Text.stripPrefix_eq_some.2 rfl
    have split : Text.splitOnce '/' ("*" ++ '/' :: totalText total) =
        some ("*".toList, totalText total) := Text.splitOnce_eq_some.2 ⟨rfl, by decide⟩
    simp only [readContentRange, strip, split, readTotal_totalText, if_true]
  · generalize hwindow : Text.decimal start ++ '-' :: Text.decimal (start + len - 1) = window
    have minus : Text.splitOnce '-' window =
        some (Text.decimal start, Text.decimal (start + len - 1)) :=
      Text.splitOnce_eq_some.2 ⟨hwindow.symm, Text.notMem_decimal rfl start⟩
    have star : window ≠ "*" := by
      rintro rfl
      cases minus
    have slash : '/' ∉ window := by
      simp [← hwindow, Text.notMem_decimal]
    have strip : Text.stripPrefix ("bytes " ++ (window ++ '/' :: totalText total))
        "bytes " = some (window ++ '/' :: totalText total) := stripPrefix_eq_some.2 rfl
    have split : splitOnce '/' (window ++ '/' :: totalText total) =
        some (window, totalText total) := splitOnce_eq_some.2 ⟨rfl, slash⟩
    simp only [readContentRange, strip, split, readTotal_totalText, star, if_false, minus,
      digitsValue_decimal, map_some]

/-! ### The server -/

/-- The server keeps a prefix of `whole`, and has made the object only if it is `whole`. -/
structure Holds (whole : Bytes) (cloud : Cloud) : Prop where
  front : cloud.session.persisted <+: whole
  made : cloud.session.finalized = true →
    cloud.session.persisted = whole ∧ cloud.object = some whole

/-- The totals a client may declare. -/
def Honest (whole : Bytes) (total : Option ℕ) : Prop := ∀ t, total = some t → t = whole.length

variable {whole body : Bytes} {total : Option ℕ} {cloud}

variable {chunkEnd offset : ℕ} {cloud' : Cloud}

theorem append_prefix {front : Bytes} {kept : ℕ} (kept_front : front <+: whole)
    (placed : body <+: whole.drop offset) (reaches : offset ≤ front.length) :
    front ++ (body.drop (front.length - offset)).take kept <+: whole := by
  obtain ⟨_, rfl⟩ := kept_front
  refine (prefix_append_right_inj front).2 (( take_prefix ..).trans ?_)
  have dropped := placed.drop (front.length - offset)
  rwa [drop_drop, Nat.add_sub_cancel' reaches, drop_left] at dropped

theorem persist_prefix {start : Option ℕ} {kept : ℕ} {session : Session}
    (front : session.persisted <+: whole)
    (placed : ∀ s, start = some s → body <+: whole.drop s) (none_empty : start = none → body = []) :
    session.persist start body kept <+: whole := by
  unfold Session.persist
  split_ifs with unchanged
  · exact front
  · cases start with
    | none =>
      rw [none_empty rfl]
      simpa using front
    | some s =>
      simp only [Session.gap, any_some, Bool.or_eq_true, decide_eq_true_eq, not_or,
        Nat.not_lt] at unchanged
      exact append_prefix front (placed s rfl) unchanged.2

theorem not_success_of_transient {status : ℕ} (isTransient : isTransientStatus status = true) :
    isSuccess status = false := by
  simp only [isTransientStatus, Bool.or_eq_true, beq_iff_eq, Bool.and_eq_true,
    decide_eq_true_eq] at isTransient
  simp only [isSuccess, Bool.and_eq_false_iff, decide_eq_false_iff_not]
  omega

theorem finalized_of_success {session : Session} {gap : Bool} {reply : Reply} {resp : Response}
    (answered : reply.answer session gap = .ok resp) (success : isSuccess resp.status = true) :
    session.finalized = true := by
  cases reply with
  | truthful _ refused =>
    obtain rfl := ok.inj answered
    simp only [Session.status] at success
    split_ifs at success with finalized
    · exact finalized
    · exact absurd success (by simp [refused])
    · exact absurd success (by decide)
  | transient _ isTransient =>
    obtain rfl := ok.inj answered
    exact absurd success (by simp [not_success_of_transient isTransient])
  | lost => cases answered

/-- What a call leaves behind: the invariant, and the object if its result says that it is made. -/
structure Leaves {α : Type*} (whole : Bytes) (confirms : α → Prop) (out : α × Cloud) : Prop where
  holds : Holds whole out.2
  made : confirms out.1 → out.2.session.finalized = true

def Succeeds (answer : Except Text Response) : Prop :=
  ∃ resp, answer = .ok resp ∧ isSuccess resp.status = true

theorem nil_placed : ([] : Bytes) <+: whole.drop 0 := nil_prefix

theorem placed_drop {next : ℕ} (placed : body <+: whole.drop offset) (later : offset < next) :
    body.drop (min (next - offset) body.length) <+: whole.drop next := by
  have same : body.drop (min (next - offset) body.length) = body.drop (next - offset) := by simp
  have dropped := placed.drop (next - offset)
  rwa [drop_drop, Nat.add_sub_cancel' later.le, ← same] at dropped

theorem resync_placed {offset' : ℕ} {body' : Bytes} (placed : body <+: whole.drop offset)
    (resumes : (resync total chunkEnd offset body cloud).1 = .resume offset' body') :
    body' <+: whole.drop offset' := by
  unfold resync at resumes
  split at resumes
  · cases resumes
  · cases resumes
  · split_ifs at resumes with arrived later
    · split at resumes
      · cases resumes
      · split at resumes <;> cases resumes
    · obtain ⟨rfl, rfl⟩ := Resync.resume.inj resumes
      exact placed_drop placed later
    · obtain ⟨rfl, rfl⟩ := Resync.resume.inj resumes
      exact placed

section

variable (holds : Holds whole cloud)
include holds

theorem put_leaves {start : ℕ} (placed : body <+: whole.drop start) (honest : Honest whole total) :
    Leaves whole Succeeds (put (contentRange start body.length total) body cloud) := by
  unfold put
  rw [readContentRange_contentRange]
  have front : cloud.session.persist (if body.length = 0 then none else some start) body
      cloud.nextFate.kept <+: whole := by
    refine persist_prefix holds.front (fun s here => ?_) fun empty => ?_
    · split_ifs at here
      exact some.inj here ▸ placed
    · by_contra nonempty
      rw [if_neg fun zero => nonempty (eq_nil_of_length_eq_zero zero)] at empty
      cases empty
  refine ⟨⟨front, fun made => ?_⟩, fun ⟨resp, answered, success⟩ =>
    finalized_of_success answered success⟩
  have all : (cloud.session.receive (if body.length = 0 then none else some start) total body
      cloud.nextFate).persisted = whole := by
    simp only [Session.receive, Bool.or_eq_true, Bool.and_eq_true, beq_iff_eq] at made
    rcases made with before | ⟨-, declared⟩
    · have unchanged : cloud.session.persist (if body.length = 0 then none else some start) body
          cloud.nextFate.kept = cloud.session.persisted := if_pos (by simp [before])
      exact unchanged.trans (holds.made before).1
    · exact front.eq_of_length (honest _ declared)
  exact ⟨all, (if_pos made).trans (congrArg some all)⟩

/-! ### The client -/

theorem sendChunk_leaves (placed : body <+: whole.drop offset) (honest : Honest whole total) :
    Leaves whole (fun sent => sent = .accepted ∧ total.isSome = true)
      (sendChunk total offset body cloud) := by
  have leaves := put_leaves holds placed honest
  unfold sendChunk
  dsimp only
  generalize put (contentRange offset body.length total) body cloud = out at leaves ⊢
  match out with
  | (.error reason, after) => exact ⟨leaves.holds, nofun⟩
  | (.ok resp, after) =>
    dsimp only
    split_ifs with last accepted accepted
    · exact ⟨leaves.holds, fun _ => leaves.made ⟨resp, rfl, accepted⟩⟩
    · exact ⟨leaves.holds, nofun⟩
    · exact ⟨leaves.holds, fun both => absurd both.2 last⟩
    · exact ⟨leaves.holds, nofun⟩

theorem query_leaves (honest : Honest whole total) :
    Leaves whole (· = .ok none) (queryResumableOffset total cloud) := by
  have leaves : Leaves whole Succeeds (put (contentRange 0 0 total) [] cloud) :=
    put_leaves holds nil_placed honest
  unfold queryResumableOffset
  generalize put (contentRange 0 0 total) [] cloud = out at leaves ⊢
  match out with
  | (.error reason, after) => exact ⟨leaves.holds, nofun⟩
  | (.ok resp, after) =>
    dsimp only
    split_ifs with made
    · exact ⟨leaves.holds, fun _ => leaves.made ⟨resp, rfl, made⟩⟩
    · exact ⟨leaves.holds, nofun⟩
    · split
      · exact ⟨leaves.holds, nofun⟩
      · split
        all_goals exact ⟨leaves.holds, nofun⟩

theorem finalize_leaves {t : ℕ} (honest : Honest whole (some t)) :
    Leaves whole (· = .ok ()) (finalizeResumable t cloud) := by
  have leaves : Leaves whole Succeeds (put (contentRange 0 0 (some t)) [] cloud) :=
    put_leaves holds nil_placed honest
  unfold finalizeResumable
  dsimp only
  generalize put (contentRange 0 0 (some t)) [] cloud = out at leaves ⊢
  match out with
  | (.error reason, after) => exact ⟨leaves.holds, nofun⟩
  | (.ok resp, after) =>
    dsimp only
    split_ifs with made
    · exact ⟨leaves.holds, fun _ => leaves.made ⟨resp, rfl, made⟩⟩
    · exact ⟨leaves.holds, nofun⟩

theorem resync_leaves (honest : Honest whole total) :
    Leaves whole (fun result => result = .done ∧ total.isSome = true)
      (resync total chunkEnd offset body cloud) := by
  have asked := query_leaves holds honest
  unfold resync
  generalize queryResumableOffset total cloud = out at asked ⊢
  match out with
  | (.error e, after) => exact ⟨asked.holds, nofun⟩
  | (.ok none, after) => exact ⟨asked.holds, fun _ => asked.made rfl⟩
  | (.ok (some next), after) =>
    dsimp only
    split_ifs with arrived later
    · cases total with
      | none => exact ⟨asked.holds, nofun⟩
      | some t =>
        have closed := finalize_leaves asked.holds honest
        dsimp only at closed ⊢
        generalize finalizeResumable t after = out at closed ⊢
        match out with
        | (.error e, after) => exact ⟨closed.holds, nofun⟩
        | (.ok (), after) => exact ⟨closed.holds, fun _ => closed.made rfl⟩
    · exact ⟨asked.holds, nofun⟩
    · exact ⟨asked.holds, nofun⟩

/-- The attempts for a chunk end with the invariant, and a success with the end of the chunk. -/
structure Ends (whole : Bytes) (total : Option ℕ) (chunkEnd : ℕ) (out : Except AppError ℕ × Cloud) :
    Prop where
  leaves : Leaves whole (fun result => (∃ n, result = .ok n) ∧ total.isSome = true) out
  length : ∀ n, out.1 = .ok n → n = chunkEnd

theorem ends_ok (made : total.isSome = true → cloud.session.finalized = true) :
    Ends whole total chunkEnd (.ok chunkEnd, cloud) :=
  ⟨⟨holds, fun both => made both.2⟩, fun _ same => (ok.inj same).symm⟩

theorem ends_error {e : AppError} :
    Ends whole total chunkEnd (.error e, cloud) := ⟨⟨holds, nofun⟩, nofun⟩

theorem putChunkAttempts_ends {left : ℕ} (placed : body <+: whole.drop offset)
    (honest : Honest whole total) :
    Ends whole total chunkEnd (putChunkAttempts total chunkEnd left offset body cloud) := by
  induction left using Nat.strongRecOn generalizing offset body cloud with
  | ind left ih =>
    have sent := sendChunk_leaves holds placed honest
    rw [putChunkAttempts.eq_def]
    dsimp only
    generalize sendChunk total offset body cloud = out at sent ⊢
    match out, left with
    | (.accepted, after), _ => exact ends_ok sent.holds fun declared => sent.made ⟨rfl, declared⟩
    | (.failed retryable e, after), 0 => exact ends_error sent.holds
    | (.failed retryable e, after), left + 1 =>
      dsimp only
      split_ifs
      · have synced : Leaves whole _ (resync total chunkEnd offset body after) :=
          resync_leaves sent.holds honest
        cases resumed : resync total chunkEnd offset body after with
        | mk result _ =>
          rw [resumed] at synced
          cases result with
          | done => exact ends_ok synced.holds fun declared => synced.made ⟨rfl, declared⟩
          | failed => exact ends_error synced.holds
          | resume =>
            exact ih left (Nat.lt_succ_self left) synced.holds
              (resync_placed placed (congrArg fst resumed))
      · exact ends_error sent.holds

theorem putChunkWithRetry_spec {start n : ℕ} (placed : body <+: whole.drop start)
    (honest : Honest whole total)
    (tried : putChunkWithRetry start body total cloud = (.ok n, cloud')) :
    Holds whole cloud' ∧ n = start + body.length ∧
      (total.isSome = true → cloud'.session.finalized = true) := by
  have ends : Ends whole total (start + body.length) (putChunkWithRetry start body total cloud) :=
    putChunkAttempts_ends holds placed honest
  rw [tried] at ends
  exact ⟨ends.leaves.holds, ends.length n rfl, fun declared => ends.leaves.made ⟨⟨n, rfl⟩, declared⟩⟩

end

/-! ### The stream -/

variable {chunkSize : ℕ} {buffer : Bytes} {stream : Body}

theorem topUp_spec (topped : topUp chunkSize context hasher buffer stream = .ok read) :
    ∃ new, read.hasher = hasher ++ new ∧ read.buffer = buffer ++ new ∧
      match read.stream with
      | none => delivered stream = new ∧ failure stream = none
      | some rest => delivered stream = new ++ delivered rest ∧ failure stream = failure rest := by
  induction stream generalizing hasher buffer with
  | nil =>
    obtain rfl := ok.inj topped
    refine ⟨[], (append_nil _).symm, (append_nil _).symm, ?_⟩
    split <;> simp_all
  | cons item stream ih =>
    rw [topUp.eq_def] at topped
    simp only at topped
    split_ifs at topped with enough
    · obtain rfl := ok.inj topped
      exact ⟨[], (append_nil _).symm, (append_nil _).symm, rfl, rfl⟩
    · cases item with
      | error e => cases topped
      | ok bytes =>
        obtain ⟨new, hashed, buffered, rest⟩ := ih topped
        refine ⟨bytes ++ new, by rw [hashed, append_assoc], by rw [buffered, append_assoc], ?_⟩
        cases left : read.stream with
        | none =>
          rw [left] at rest
          exact ⟨by rw [delivered_ok, rest.1], rest.2⟩
        | some _ =>
          rw [left] at rest
          exact ⟨by rw [delivered_ok, rest.1, append_assoc], rest.2⟩

theorem final_spec {sent : Bytes} {n : ℕ} (holds : Holds whole cloud) (all : whole = sent ++ buffer)
    (tried : putChunkWithRetry sent.length buffer (some (sent.length + buffer.length)) cloud =
      (.ok n, cloud')) : n = whole.length ∧ cloud'.object = some whole := by
  have placed : buffer <+: whole.drop sent.length := by
    rw [all, drop_left]
  have honest : Honest whole (some (sent.length + buffer.length)) := by
    rintro t same
    rw [all, length_append]
    exact (some.inj same).symm
  obtain ⟨kept, length, made⟩ := putChunkWithRetry_spec holds placed honest tried
  refine ⟨?_, (kept.made (made rfl)).2⟩
  rw [length, all, length_append]

theorem streamResumableChunks_spec {positive : 0 < chunkSize} {sent hashed : Bytes} {n : ℕ}
    (holds : Holds whole cloud) (all : whole = sent ++ buffer ++ delivered stream)
    (done : streamResumableChunks chunkSize positive (sent ++ buffer) buffer stream sent.length
      cloud = (.ok (n, hashed), cloud')) :
    failure stream = none ∧ n = whole.length ∧ hashed = whole ∧ cloud'.object = some whole := by
  induction size : buffer.length + streamBytes stream using Nat.strongRecOn
    generalizing sent buffer stream cloud with
  | ind size ih =>
    rw [streamResumableChunks] at done
    split at done
    · cases done
    · next read topped =>
      obtain ⟨_, hasher, buffered, rest⟩ := topUp_spec topped
      split at done
      · next left =>
        rw [left] at rest
        have complete : whole = sent ++ read.buffer := by
          rw [all, buffered, rest.1, append_assoc]
        have hasher' : read.hasher = whole := by
          rw [hasher, complete, buffered, append_assoc]
        simp only at done
        split_ifs at done with empty
        · have none : read.buffer = [] := isEmpty_iff.1 empty
          rw [none] at done complete
          split at done
          · cases done
          · next _ _ tried =>
            cases done
            obtain ⟨-, made⟩ := final_spec holds complete tried
            refine ⟨rest.2, ?_, hasher', made⟩
            rw [complete, append_nil]
        · split at done
          · cases done
          · next _ _ tried =>
            cases done
            obtain ⟨length, made⟩ := final_spec holds complete tried
            exact ⟨rest.2, length, hasher', made⟩
      · next remaining left =>
        rw [left] at rest
        obtain ⟨_, _⟩ := topUp_bytes topped left
        have parts : read.buffer = read.buffer.take chunkSize ++ read.buffer.drop chunkSize :=
          (take_append_drop ..).symm
        have onward : whole = sent ++ read.buffer ++ delivered remaining := by
          rw [all, buffered, rest.1]
          simp
        split at done
        · cases done
        · next accepted _ tried =>
          have placed : read.buffer.take chunkSize <+: whole.drop sent.length := by
            rw [onward, append_assoc, drop_left]
            exact ( take_prefix ..).trans (prefix_append ..)
          obtain ⟨kept, length, -⟩ := putChunkWithRetry_spec holds placed (by rintro _ ⟨⟩) tried
          have offset : accepted = (sent ++ read.buffer.take chunkSize).length := by
            rw [length, length_append]
          have hasher' : read.hasher =
              sent ++ read.buffer.take chunkSize ++ read.buffer.drop chunkSize := by
            rw [append_assoc, ← parts, hasher, buffered, append_assoc]
          rw [offset, hasher'] at done
          have later := ih _ ?_ kept ?_ done rfl
          · exact ⟨rest.2.trans later.1, later.2⟩
          · rw [length_drop]
            omega
          · rw [append_assoc sent, ← parts, onward]

/-! ### The upload -/

theorem authorizedPut_spec {content : Bytes} {resp : Response}
    (answered : authorizedPut content cloud = (.ok resp, cloud'))
    (success : isSuccess resp.status = true) : cloud'.object = some content := by
  obtain ⟨same, rfl⟩ := mk.inj answered
  by_cases closes : cloud.nextFate.closes = true
  · exact if_pos closes
  · simp only [closes] at same
    split at same
    · next _ refused _ _ =>
      obtain rfl := ok.inj same
      exact absurd success (by simp [refused])
    · next _ isTransient _ _ =>
      obtain rfl := ok.inj same
      exact absurd success (by simp [not_success_of_transient isTransient])
    · cases same

/-- If an upload returns success, the object is the stream and its length is reported, whatever the
server kept of each request and whichever answers were lost. -/
theorem upload_stores_stream {δ : Type*} (chunkSize : ℕ) (positive : 0 < chunkSize)
    (sha256 : Bytes → δ) (stream : Body) (cloud : Cloud) (result : PutStreamResult δ)
    (cloud' : Cloud)
    (done : putStreamWith chunkSize positive sha256 stream cloud = (.ok result, cloud')) :
    failure stream = none ∧ cloud'.object = some (delivered stream) ∧
      result.bytesWritten = (delivered stream).length ∧
      result.checksumSha256 = sha256 (delivered stream) := by
  unfold putStreamWith at done
  split at done
  · cases done
  · next read topped =>
    obtain ⟨_, hasher, buffered, rest⟩ := topUp_spec topped
    rw [nil_append] at hasher buffered
    split at done
    · next left =>
      rw [left] at rest
      split at done
      · cases done
      · next _ _ answered =>
        split_ifs at done with success
        · obtain ⟨same, rfl⟩ := mk.inj done
          obtain rfl := ok.inj same
          have stored := authorizedPut_spec answered success
          rw [buffered, ← rest.1] at stored
          exact ⟨rest.2, stored, by rw [buffered, rest.1], by rw [hasher, rest.1]⟩
        · cases done
    · next remaining left =>
      rw [left] at rest
      split at done
      · cases done
      · next after opened =>
        have holds : Holds (delivered stream) after := by
          unfold initiateResumableSession at opened
          split at opened
          · obtain ⟨-, rfl⟩ := mk.inj opened
            exact ⟨ nil_prefix, nofun⟩
          · cases opened
          · cases opened
        split at done
        · next _ _ _ uploaded =>
          obtain ⟨same, rfl⟩ := mk.inj done
          obtain rfl := ok.inj same
          have all : delivered stream = [] ++ read.buffer ++ delivered remaining := by
            rw [rest.1, buffered, nil_append]
          rw [hasher, ← buffered] at uploaded
          obtain ⟨ends, length, digest, stored⟩ :=
            streamResumableChunks_spec holds all uploaded
          exact ⟨rest.2.trans ends, stored, length, by rw [digest]⟩
        · cases done

/-- A transient error after half a chunk was kept, and a lost answer to the last one. -/
def lossyFates : List Fate :=
  [⟨0, false, .truthful 400 rfl []⟩, ⟨1, false, .transient 503 rfl []⟩,
    ⟨0, false, .truthful 400 rfl []⟩, ⟨1, false, .truthful 400 rfl []⟩,
    ⟨1, true, .lost []⟩, ⟨0, false, .truthful 400 rfl []⟩]

/-- Three bytes in chunks of two over a lossy connection. -/
theorem upload_stores_stream_lossy :
    ∃ result cloud', putStreamWith 2 (by decide) id [.ok [1], .ok [2, 3]]
        ⟨⟨[], false⟩, none, lossyFates⟩ = (.ok result, cloud') ∧
      cloud'.object = some [1, 2, 3] ∧ result.bytesWritten = 3 := by
  have run : (match putStreamWith 2 (by decide) id [.ok [1], .ok [2, 3]]
      ⟨⟨[], false⟩, none, lossyFates⟩ with
    | (.ok _, _) => true
    | (.error _, _) => false) = true := by decide +kernel
  split at run
  · next result cloud' done =>
    obtain ⟨-, stored, length, -⟩ := upload_stores_stream _ _ _ _ _ _ _ done
    exact ⟨result, cloud', done, stored, length⟩
  · cases run

end ArtifactKeeper.Gcs
