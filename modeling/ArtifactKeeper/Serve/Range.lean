import ArtifactKeeper.Storage

/-!
# Verification of a body while it is served

`verify_sha256_stream` hashes a body as it passes, holds back one chunk, and releases the last one
only if the digest and the length at the end are the recorded ones.
-/

namespace ArtifactKeeper.Serve

open ByteStreams List Option Text

inductive IntegrityVerdict (δ : Type*)
  | intact
  | mismatch (actualSha256 : δ) (actualLen : ℕ)
  deriving DecidableEq

variable {δ : Type*} [DecidableEq δ]

/-- `expectedLen` of `none` skips the length check. -/
def verdict (expected : δ) (expectedLen : Option ℕ) (actual : δ) (actualLen : ℕ) :
    IntegrityVerdict δ :=
  if expectedLen.all (· == actualLen) && actual = expected then .intact
  else .mismatch actual actualLen

structure VerifyState where
  hasher : Bytes
  len : ℕ
  pending : Option Bytes
  deriving DecidableEq

variable (sha256 : Bytes → δ)

def verifyFrom (expected : δ) (expectedLen : Option ℕ) (label : Text) : VerifyState → Body → Body
  | st, [] =>
    match verdict expected expectedLen (sha256 st.hasher) st.len with
    | .intact => st.pending.toList.map .ok
    | .mismatch _ _ =>
      [.error (.storage ("stored object for " ++ label ++ " failed SHA-256 verification"))]
  | _, .error e :: _ => [.error e]
  | st, .ok chunk :: rest =>
    if chunk.isEmpty then verifyFrom expected expectedLen label st rest
    else
      let st' : VerifyState := ⟨st.hasher ++ chunk, st.len + chunk.length, some chunk⟩
      -- longer than the record: a reader would cut it at the recorded length and never see the end
      if expectedLen.any (· < st'.len) then
        [.error (.storage ("stored object for " ++ label ++ " is longer than recorded"))]
      else
        match st.pending with
        | some prev => .ok prev :: verifyFrom expected expectedLen label st' rest
        | none => verifyFrom expected expectedLen label st' rest

def verifySha256Stream (expected : δ) (expectedLen : Option ℕ) (label : Text) (body : Body) :
    Body :=
  verifyFrom sha256 expected expectedLen label ⟨[], 0, none⟩ body

/-! ### What is released -/

/-- The chunk that is held back. -/
def VerifyState.held (st : VerifyState) : Bytes := st.pending.getD []

/-- The state while a body of at most `n` bytes passes. -/
structure VerifyState.Within (st : VerifyState) (n : ℕ) : Prop where
  len : st.len = st.hasher.length
  bound : st.len ≤ n
  held : st.held.length ≤ st.len
  /-- Something is held back as soon as anything was read. -/
  some : st.held = [] → st.len = 0

open VerifyState (held)

theorem verdict_intact_iff {expected actual : δ} {n len : ℕ} :
    verdict expected (some n) actual len = .intact ↔ len = n ∧ actual = expected := by
  unfold verdict
  split_ifs with same
  · simp only [all_some, Bool.and_eq_true, beq_iff_eq, decide_eq_true_eq] at same
    exact ⟨fun _ => ⟨same.1.symm, same.2⟩, fun _ => rfl⟩
  · simp only [all_some, Bool.and_eq_true, beq_iff_eq, decide_eq_true_eq, not_and] at same
    exact ⟨nofun, fun h => absurd h.2 (same h.1.symm)⟩

section Released

variable (expected : δ) (n : ℕ) (st : VerifyState) (body : Body) (tail : Bytes) (out : Body)

def Recorded (object : Bytes) : Prop :=
  object.length = n ∧ sha256 object = expected

/-- What the items `out` that a state makes of `body` tell about the object of which `tail` is still
to come. -/
structure Released : Prop where
  front : delivered out <+: st.held ++ tail
  intact : failure out = none →
    Recorded sha256 expected n (st.hasher ++ tail) ∧ delivered out = st.held ++ tail
  short : failure out ≠ none → 0 < n → st.len + (delivered out).length < n + st.held.length
  passes : failure body = none → Recorded sha256 expected n (st.hasher ++ tail) → failure out = none

variable {sha256 expected n st body tail out} {label : Text}

omit [DecidableEq δ] in
/-- An error in place of everything that is held or still to come. -/
theorem Released.of_error (within : st.Within n) (e : AppError)
    (cause : failure body = none → ¬ Recorded sha256 expected n (st.hasher ++ tail)) :
    Released sha256 expected n st body tail [.error e] := by
  refine ⟨by simp, by simp, fun _ positive => ?_, fun ends intact => absurd intact (cause ends)⟩
  have bound := within.bound
  simp only [delivered_error, length_nil]
  by_cases none : st.held = []
  · have := within.some none
    omega
  · have := length_pos_iff.2 none
    omega

omit [DecidableEq δ] in
theorem Released.of_chunk {chunk : Bytes}
    (later : Released sha256 expected n ⟨st.hasher ++ chunk, st.len + chunk.length, some chunk⟩
      body tail out) :
    Released sha256 expected n st (.ok chunk :: body) (chunk ++ tail)
      (st.pending.toList.map .ok ++ out) := by
  obtain ⟨prefixed, intact, short, passes⟩ := later
  have released : delivered (st.pending.toList.map .ok ++ out) = st.held ++ delivered out := by
    unfold held
    cases st.pending <;> rfl
  have same : failure (st.pending.toList.map .ok ++ out) = failure out := by
    cases st.pending <;> rfl
  rw [append_assoc] at intact passes
  refine ⟨?_, fun ends => ?_, fun fails positive => ?_, fun ends recorded => ?_⟩
  · rw [released]
    exact (prefix_append_right_inj _).2 prefixed
  · obtain ⟨recorded, whole⟩ := intact (same ▸ ends)
    exact ⟨recorded, by rw [released, whole]; rfl⟩
  · have := short (same ▸ fails) positive
    simp only [held, getD_some] at this
    rw [released, length_append]
    simp only [held]
    omega
  · rw [same]
    exact passes ends recorded

/-- The end of the body decides. -/
theorem released_nil (within : st.Within n) :
    Released sha256 expected n st [] [] (verifyFrom sha256 expected (some n) label st []) := by
  rw [verifyFrom]
  cases result : verdict expected (some n) (sha256 st.hasher) st.len with
  | intact =>
    obtain ⟨length, digest⟩ := verdict_intact_iff.1 result
    have recorded : Recorded sha256 expected n (st.hasher ++ []) := by
      rw [append_nil]
      exact ⟨within.len ▸ length, digest⟩
    have all : delivered (st.pending.toList.map .ok : Body) = st.held ++ [] := by
      unfold held
      cases st.pending <;> rfl
    have ends : failure (st.pending.toList.map .ok : Body) = none := by
      cases st.pending <;> rfl
    exact ⟨by simp [all], fun _ => ⟨recorded, all⟩, fun fails => absurd ends fails,
      fun _ _ => ends⟩
  | mismatch =>
    refine .of_error within _ fun _ recorded => ?_
    rw [append_nil] at recorded
    have intact := verdict_intact_iff.2 ⟨within.len.trans recorded.1, recorded.2⟩
    exact absurd (result.symm.trans intact) nofun

theorem released_verifyFrom (within : st.Within n) (reads : Reads body tail) :
    Released sha256 expected n st body tail
      (verifyFrom sha256 expected (some n) label st body) := by
  induction body generalizing st tail with
  | nil =>
    obtain rfl := reads_nil.1 reads
    exact released_nil within
  | cons item _ ih =>
    cases item with
    | error e => exact .of_error within e nofun
    | ok chunk =>
      obtain ⟨_, rfl, onward⟩ := reads.ok_cons
      rw [verifyFrom]
      simp only
      split_ifs with empty longer
      · obtain rfl := isEmpty_iff.1 empty
        have later := ih within onward
        exact ⟨later.front, later.intact, later.short, later.passes⟩
      · have more : n < st.len + chunk.length := by simpa using longer
        refine .of_error within _ fun _ recorded => ?_
        have length := recorded.1
        simp only [length_append, ← within.len] at length
        omega
      · have within' :
            VerifyState.Within ⟨st.hasher ++ chunk, st.len + chunk.length, some chunk⟩ n := by
          have bound : ¬ n < st.len + chunk.length := by simpa using longer
          refine ⟨by simp [within.len], Nat.not_lt.1 bound, Nat.le_add_left .., fun none => ?_⟩
          exact absurd (isEmpty_iff.2 none) empty
        have released := (ih within' onward).of_chunk
        cases held : st.pending with
        | none | some prev => simpa [held] using released

end Released

/-! ### The wrapped stream -/

/-- Whatever the chunking and wherever the body fails, a reader gets a prefix of the object.  It gets
the recorded number of bytes or a clean end only if the object is the recorded one, and then all of
it; and the recorded object passes if the body itself does not fail. -/
theorem verified_stream_serves_intact (expected : δ) (n : ℕ) (label : Text)
    (body : Body) (object : Bytes) (reads : Reads body object) :
    let out := verifySha256Stream sha256 expected (some n) label body
    delivered out <+: object ∧
      (0 < n ∧ n ≤ (delivered out).length ∨ failure out = none →
        (object.length = n ∧ sha256 object = expected) ∧
          delivered out = object ∧ failure out = none) ∧
      (failure body = none → object.length = n ∧ sha256 object = expected →
        delivered out = object ∧ failure out = none) := by
  intro out
  have within : VerifyState.Within ⟨[], 0, none⟩ n := ⟨rfl, Nat.zero_le _, le_rfl, fun _ => rfl⟩
  have released : Released sha256 expected n ⟨[], 0, none⟩ body object out :=
    released_verifyFrom within reads
  have clean : failure out = none →
      (object.length = n ∧ sha256 object = expected) ∧ delivered out = object ∧
        failure out = none := fun ends =>
    ⟨(released.intact ends).1, (released.intact ends).2, ends⟩
  refine ⟨released.front, ?_, fun ends recorded => ?_⟩
  · rintro (⟨positive, _⟩ | ends)
    · refine clean (Classical.by_contradiction fun fails => ?_)
      have short := released.short fails positive
      simp only [held, getD_none, length_nil] at short
      omega
    · exact clean ends
  · exact (clean (released.passes ends recorded)).2

/-- An intact object in three chunks, one of them empty. -/
theorem verified_stream_serves_intact_chunks :
    let out := verifySha256Stream id [1, 2, 3] (some 3) [] [.ok [1, 2], .ok [], .ok [3]]
    delivered out = [1, 2, 3] ∧ failure out = none := by
  have reads : Reads ([.ok [1, 2], .ok [], .ok [3]] : Body) [1, 2, 3] := reads_delivered _
  exact (verified_stream_serves_intact id [1, 2, 3] 3 [] _ _ reads).2.2 rfl ⟨rfl, rfl⟩

example : verifySha256Stream id [1, 2, 3] (some 3) [] [.ok [1, 2], .ok [4]] =
    [.ok [1, 2], .error (.storage "stored object for  failed SHA-256 verification")] := by
  decide

/-! ### Range requests -/

inductive RangeOutcome
  | full
  /-- Inclusive byte offsets. -/
  | satisfiable (start last : ℕ)
  | unsatisfiable
  deriving DecidableEq

def parseU64 (s : Text) : Option ℕ := parseUnsigned (2 ^ 64) s

def parseSpec (startStr endStr : Text) (total : ℕ) : RangeOutcome :=
  let last := total - 1
  match startStr.isEmpty, endStr.isEmpty with
  | true, false =>
    match parseU64 endStr with
    | none => .full
    | some suffix =>
      if suffix = 0 then .unsatisfiable else .satisfiable (total - min suffix total) last
  | false, true =>
    match parseU64 startStr with
    | none => .full
    | some start => if last < start then .unsatisfiable else .satisfiable start last
  | false, false =>
    match parseU64 startStr with
    | none => .full
    | some start =>
      match parseU64 endStr with
      | none => .full
      | some stop =>
        if stop < start ∨ last < start then .unsatisfiable
        else .satisfiable start (min stop last)
  | true, true => .full

def parseByteRange (headerValue : Option Text) (total : ℕ) : RangeOutcome :=
  match headerValue with
  | none => .full
  | some v =>
    if total = 0 then .full
    else
      match stripPrefix (trim v) "bytes=" with
      | none => .full
      | some rest =>
        let spec := trim rest
        if spec.contains ',' then .full
        else
          match splitOnce '-' spec with
          | none => .full
          | some (startStr, endStr) => parseSpec (trim startStr) (trim endStr) total

/-- The filter of `slice_byte_stream`, with the bytes it still has to skip and to send. -/
def sliceFrom : ℕ → ℕ → Body → Body
  | _, _, [] => []
  | toSkip, remaining, .error e :: rest => .error e :: sliceFrom toSkip remaining rest
  | toSkip, remaining, .ok chunk :: rest =>
    let skip := min toSkip chunk.length
    let bytes := chunk.drop skip
    if remaining = 0 ∨ bytes = [] then sliceFrom (toSkip - skip) remaining rest
    else
      let take := min remaining bytes.length
      .ok (bytes.take take) :: sliceFrom (toSkip - skip) (remaining - take) rest

def sliceByteStream (body : Body) (start last : ℕ) : Body := sliceFrom start (last - start + 1) body

structure Response where
  status : ℕ
  headers : List (Text × Text)
  body : Body

structure ServeVerification (δ : Type*) where
  expectedSha256 : δ
  label : Text

def headerChar (c : Char) : Bool := 32 ≤ c.toNat && c.toNat != 127 || c == '\t'

/-- `Response::builder`, which refuses malformed header values. -/
def buildResponse (status : ℕ) (headers : List (Text × Text)) (body : Body) :
    Except AppError Response :=
  if headers.all fun (_, value) => value.all headerChar then .ok ⟨status, headers, body⟩
  else .error (.internal "failed to build response: failed to parse header value")

def RangeOutcome.wholeObject (total : ℕ) : RangeOutcome → Bool
  | .full => true
  | .satisfiable start last => start == 0 && last + 1 == total
  | .unsatisfiable => false

def rangedStreamResponseVerified (sha256 : Bytes → δ) (rangeHeader : Option Text) (total : ℕ)
    (body : Body) (baseHeaders : List (Text × Text)) (verify : Option (ServeVerification δ)) :
    Except AppError Response :=
  let outcome := parseByteRange rangeHeader total
  let body := match verify with
    | some v =>
      if outcome.wholeObject total then
        verifySha256Stream sha256 v.expectedSha256 (some total) v.label body
      else body
    | none => body
  let base := ("accept-ranges".toList, "bytes".toList) :: baseHeaders
  match outcome with
  | .satisfiable start last =>
    buildResponse 206 (base ++
      [("content-length".toList, decimal (last - start + 1)),
        ("content-range", "bytes " ++ decimal start ++ '-' :: decimal last ++
          '/' :: decimal total)])
      (sliceByteStream body start last)
  | .unsatisfiable =>
    buildResponse 416 [("accept-ranges", "bytes"),
      ("content-range", "bytes */" ++ decimal total)] []
  | .full => buildResponse 200 (base ++ [("content-length".toList, decimal total)]) body

def rangedStreamResponse (rangeHeader : Option Text) (total : ℕ) (body : Body)
    (baseHeaders : List (Text × Text)) : Except AppError Response :=
  rangedStreamResponseVerified (fun bytes : Bytes => bytes) rangeHeader total body baseHeaders none

/-! ### The window -/

theorem delivered_sliceFrom (toSkip remaining : ℕ) (body : Body) :
    delivered (sliceFrom toSkip remaining body) =
      ((delivered body).drop toSkip).take remaining := by
  induction body generalizing toSkip remaining with
  | nil => simp [sliceFrom]
  | cons item _ ih =>
    cases item with
    | error e => simp [sliceFrom]
    | ok chunk =>
      have dropped : chunk.drop (min toSkip chunk.length) = chunk.drop toSkip := by simp
      have later : toSkip - min toSkip chunk.length = toSkip - chunk.length := by omega
      rw [sliceFrom, delivered_ok, drop_append]
      simp only [dropped, later]
      split_ifs with skipped
      · rw [ih]
        rcases skipped with zero | empty
        · simp [zero]
        · rw [empty, nil_append]
      · have taken : (chunk.drop toSkip).take (min remaining (chunk.drop toSkip).length) =
            (chunk.drop toSkip).take remaining := by simp
        have left : remaining - min remaining (chunk.drop toSkip).length =
            remaining - (chunk.drop toSkip).length := by omega
        rw [delivered_ok, ih, take_append, taken, left]

theorem failure_sliceFrom (toSkip remaining : ℕ) (body : Body) :
    failure (sliceFrom toSkip remaining body) = failure body := by
  induction body generalizing toSkip remaining with
  | nil => rfl
  | cons item _ ih =>
    cases item with
    | error e => rfl
    | ok _ =>
      rw [sliceFrom, failure_ok]
      split_ifs
      · exact ih ..
      · exact ih ..

variable {total start last : ℕ}

theorem parseSpec_bounds {startStr endStr : Text} (positive : 0 < total)
    (parsed : parseSpec startStr endStr total = .satisfiable start last) :
    start ≤ last ∧ last < total := by
  unfold parseSpec at parsed
  simp only at parsed
  split at parsed
  · split at parsed
    · cases parsed
    · split_ifs at parsed
      cases parsed
      omega
  · split at parsed
    · cases parsed
    · split_ifs at parsed
      cases parsed
      omega
  · split at parsed
    · cases parsed
    · split at parsed
      · cases parsed
      · split_ifs at parsed
        cases parsed
        omega
  · cases parsed

theorem parseByteRange_bounds {header : Option Text}
    (parsed : parseByteRange header total = .satisfiable start last) :
    start ≤ last ∧ last < total := by
  unfold parseByteRange at parsed
  split at parsed
  · cases parsed
  · split_ifs at parsed with zero
    split at parsed
    · cases parsed
    · simp only at parsed
      split_ifs at parsed
      split at parsed
      · cases parsed
      · exact parseSpec_bounds (by omega) parsed

/-! ### Suffixes -/

/-- The header asks for the last `k` bytes, a number of any size. -/
def AsksSuffix (header : Text) (k : ℕ) : Prop :=
  ∃ rest before after bound,
    stripPrefix (trim header) "bytes=" = some rest ∧ ',' ∉ trim rest ∧
      splitOnce '-' (trim rest) = some (before, after) ∧ trim before = [] ∧
      parseUnsigned bound (trim after) = some k

/-- A suffix is served from its first byte; one that does not fit a `u64` is longer than the
object. -/
theorem parseByteRange_suffix {header : Text} {k : ℕ} (asks : AsksSuffix header k)
    (positive : 0 < k) (fits : total < 2 ^ 64) :
    parseByteRange (some header) total =
      if 0 < total ∧ k < 2 ^ 64 then .satisfiable (total - min k total) (total - 1) else .full := by
  obtain ⟨rest, _, after, _, stripped, single, split, empty, number⟩ := asks
  have nonempty : (trim after).isEmpty = false := by
    simpa using ne_nil_of_parseUnsigned number
  have comma : (trim rest).contains ',' = false := by simpa using single
  have parsed : parseU64 (trim after) = if k < 2 ^ 64 then some k else none :=
    parseUnsigned_of_some number _
  unfold parseByteRange
  by_cases zero : total = 0
  · simp [zero]
  · have some : 0 < total := by omega
    simp only [zero, if_false, stripped, comma, Bool.false_eq_true, split, parseSpec, empty,
      isEmpty_nil, nonempty, parsed, some, true_and]
    by_cases small : k < 2 ^ 64
    · simp only [small, if_true]
      rw [if_neg (by omega)]
    · simp only [small, if_false]

theorem asksSuffix_decimal (k : ℕ) : AsksSuffix ("bytes=-" ++ decimal k) k := by
  have digits : ∀ c ∈ decimal k, c.isDigit = true := fun c mem =>
    isDigit_of_mem_decimal mem
  have plain : ∀ c ∈ decimal k, isWhitespace c = false := fun c mem =>
    isWhitespace_of_isDigit (digits c mem)
  have header : trim ("bytes=-" ++ decimal k) = "bytes=" ++ '-' :: decimal k := by
    have spelled : "bytes=-".toList.all (fun c => !isWhitespace c) = true := by decide
    have front : ∀ c ∈ "bytes=-".toList, isWhitespace c = false := fun c mem =>
      Bool.not_eq_true' _ ▸ all_eq_true.1 spelled c mem
    rw [trim_of_no_whitespace (forall_mem_append.2 ⟨front, plain⟩)]
    rfl
  have rest : trim ('-' :: decimal k) = '-' :: decimal k :=
    trim_of_no_whitespace (forall_mem_cons.2 ⟨by decide, plain⟩)
  refine ⟨'-' :: decimal k, [], decimal k, k + 1, ?_, ?_, ?_, by decide, ?_⟩
  · rw [header]
    exact stripPrefix_eq_some.2 rfl
  · rw [rest]
    intro comma
    rcases mem_cons.1 comma with minus | digit
    · exact absurd minus (by decide)
    · exact absurd (digits _ digit) (by decide)
  · rw [rest]
    exact splitOnce_eq_some.2 ⟨rfl, not_mem_nil⟩
  · rw [trim_of_no_whitespace plain, parseUnsigned_decimal, if_pos (by omega)]

/-! ### The response -/

variable (baseHeaders : List (Text × Text))

def bodyHeaders (length : ℕ) : List (Text × Text) :=
  ("accept-ranges".toList, "bytes".toList) :: baseHeaders ++
    [("content-length".toList, decimal length)]

theorem buildResponse_eq_ok {status : ℕ} {headers : List (Text × Text)} {body : Body}
    {response : Response} (built : buildResponse status headers body = .ok response) :
    response = ⟨status, headers, body⟩ := by
  unfold buildResponse at built
  split_ifs at built
  exact (Except.ok.inj built).symm

theorem headerChar_of_isDigit {c : Char} (h : c.isDigit = true) : headerChar c = true := by
  have range := toNat_of_isDigit h
  simp [headerChar]
  omega

theorem all_headerChar_decimal (n : ℕ) : (decimal n).all headerChar = true :=
  all_eq_true.2 fun _ mem => headerChar_of_isDigit (isDigit_of_mem_decimal mem)

theorem rangedStreamResponse_isOk (rangeHeader : Option Text) (total : ℕ) (body : Body)
    (baseHeaders : List (Text × Text))
    (wellFormed : (baseHeaders.all fun (_, value) => value.all headerChar) = true) :
    ∃ response, rangedStreamResponse rangeHeader total body baseHeaders = .ok response := by
  have built : ∀ status headers (sent : Body),
      (headers.all fun (_, value) => value.all headerChar) = true →
      ∃ response, buildResponse status headers sent = .ok response :=
    fun _ _ _ valid => ⟨_, if_pos valid⟩
  have plain : ("bytes".toList.all headerChar) = true ∧ ("bytes ".toList.all headerChar) = true ∧
      ("bytes */".toList.all headerChar) = true ∧ headerChar '-' = true ∧
      headerChar '/' = true := by decide
  unfold rangedStreamResponse rangedStreamResponseVerified
  simp only
  split
  · refine built _ _ _ ?_
    simp only [all_cons, all_append, wellFormed, all_nil,
      all_headerChar_decimal, plain, Bool.and_self]
  · refine built _ _ _ ?_
    simp only [all_cons, all_append, all_nil, all_headerChar_decimal, plain, Bool.and_self]
  · refine built _ _ _ ?_
    simp only [all_cons, all_append, wellFormed, all_nil,
      all_headerChar_decimal, plain, Bool.and_self]

structure SendsWindow (object : Bytes) (start last : ℕ) (response : Response) : Prop where
  status : response.status = 206
  ordered : start ≤ last
  inside : last < object.length
  body : delivered response.body = (object.drop start).take (last - start + 1)
  ends : failure response.body = none
  headers : response.headers = bodyHeaders baseHeaders (last - start + 1) ++
    [("content-range".toList, "bytes " ++ decimal start ++ '-' :: decimal last ++
      '/' :: decimal object.length)]

structure SendsWhole (object : Bytes) (response : Response) : Prop where
  status : response.status = 200
  body : delivered response.body = object
  ends : failure response.body = none
  headers : response.headers = bodyHeaders baseHeaders object.length

variable {rangeHeader : Option Text} {body : Body} {object : Bytes}
  {baseHeaders} {response : Response}

theorem rangedStreamResponse_sends (reads : delivered body = object) (ends : failure body = none)
    (answered : rangedStreamResponse rangeHeader object.length body baseHeaders = .ok response) :
    match parseByteRange rangeHeader object.length with
    | .full => SendsWhole baseHeaders object response
    | .satisfiable start last => SendsWindow baseHeaders object start last response
    | .unsatisfiable => response.status = 416 := by
  unfold rangedStreamResponse rangedStreamResponseVerified at answered
  simp only at answered
  split at answered
  · next _ _ parsed =>
    obtain rfl := buildResponse_eq_ok answered
    obtain ⟨ordered, inside⟩ := parseByteRange_bounds parsed
    rw [parsed]
    refine ⟨rfl, ordered, inside, ?_, ?_, ?_⟩
    · exact (delivered_sliceFrom ..).trans (by rw [reads])
    · exact (failure_sliceFrom ..).trans ends
    · simp [bodyHeaders]
  · next parsed =>
    obtain rfl := buildResponse_eq_ok answered
    rw [parsed]
  · next parsed =>
    obtain rfl := buildResponse_eq_ok answered
    rw [parsed]
    exact ⟨rfl, reads, ends, rfl⟩

/-- For every header and every chunking of the object, the answer is a window inside the object that
is announced and sent alike, the whole object, or a refusal; a suffix gets the end of the object. -/
theorem ranged_response_exact (rangeHeader : Option Text) (body : Body) (object : Bytes)
    (baseHeaders : List (Text × Text)) (reads : delivered body = object)
    (ends : failure body = none) (fits : object.length < 2 ^ 64) :
    ((baseHeaders.all fun (_, value) => value.all headerChar) = true →
      ∃ response, rangedStreamResponse rangeHeader object.length body baseHeaders = .ok response) ∧
    ∀ response, rangedStreamResponse rangeHeader object.length body baseHeaders = .ok response →
      ((∃ start last, SendsWindow baseHeaders object start last response) ∨
        SendsWhole baseHeaders object response ∨ response.status = 416) ∧
      ∀ header k, rangeHeader = some header → AsksSuffix header k → 0 < k →
        delivered response.body = object.drop (object.length - min k object.length) := by
  refine ⟨rangedStreamResponse_isOk rangeHeader object.length body baseHeaders, ?_⟩
  intro _ answered
  have sends := rangedStreamResponse_sends reads ends answered
  refine ⟨?_, ?_⟩
  · split at sends
    · exact .inr (.inl sends)
    · exact .inl ⟨_, _, sends⟩
    · exact .inr (.inr sends)
  · rintro _ k rfl asks positive
    rw [parseByteRange_suffix asks positive fits] at sends
    split_ifs at sends with window
    · rw [sends.body]
      refine take_of_length_le ?_
      rw [length_drop]
      omega
    · rw [sends.body]
      have all : object.length - min k object.length = 0 := by omega
      rw [all, drop_zero]

/-- The last two of three bytes, out of two chunks. -/
theorem ranged_response_exact_suffix :
    ∃ response, rangedStreamResponse (some "bytes=-2") 3 [.ok [1], .ok [2, 3]] [] =
      .ok response ∧ delivered response.body = [2, 3] := by
  obtain ⟨total, exact⟩ := ranged_response_exact (some "bytes=-2")
    [.ok [1], .ok [2, 3]] [1, 2, 3] [] rfl rfl (by decide)
  obtain ⟨response, answered⟩ := total rfl
  have asks : AsksSuffix "bytes=-2" 2 := asksSuffix_decimal 2
  exact ⟨response, answered, (exact response answered).2 _ 2 rfl asks (by decide)⟩

end ArtifactKeeper.Serve
