import ArtifactKeeper.Library.Blocks
import ArtifactKeeper.Storage
import Mathlib.Data.List.Sort

/-!
# Multipart uploads

`put_stream` of the S3 backend cuts a stream of unknown length into parts whose size grows with
their index, uploads up to four of them at a time and completes the upload with the parts sorted by
index.
-/

namespace ArtifactKeeper.S3

open ByteStreams List Text Nat
open Prod hiding map_map

/-! ### Part sizes -/

def s3MultipartChunkSize : ℕ := 5 * 1024 * 1024

def s3MultipartMaxPartSize : ℕ := 5 * 1024 * 1024 * 1024

def s3MultipartMaxInFlightParts : ℕ := 4

def s3TargetParts (maxParts : ℕ) : ℕ := max (maxParts * 9 / 10) 1

def s3PartsPerTier (maxParts : ℕ) : ℕ := max (maxParts / 10) 1

/-- The size of the part at an index; without a known length it doubles from tier to tier. -/
def adaptivePartSize (objectSize : Option ℕ) (partIndex maxParts : ℕ) : ℕ :=
  match objectSize with
  | some size =>
    let target := (size + s3TargetParts maxParts - 1) / s3TargetParts maxParts
    min (max target s3MultipartChunkSize) s3MultipartMaxPartSize
  | none =>
    let tier := partIndex / s3PartsPerTier maxParts
    if 10 ≤ tier then s3MultipartMaxPartSize
    else min (s3MultipartChunkSize * 2 ^ tier) s3MultipartMaxPartSize

def s3StreamingCapacity (maxParts : ℕ) : ℕ :=
  ((range maxParts).map fun partIndex => adaptivePartSize none partIndex maxParts).sum

theorem adaptivePartSize_bounds (partIndex maxParts : ℕ) :
    s3MultipartChunkSize ≤ adaptivePartSize none partIndex maxParts ∧
      adaptivePartSize none partIndex maxParts ≤ s3MultipartMaxPartSize := by
  have order : s3MultipartChunkSize ≤ s3MultipartMaxPartSize := by decide
  unfold adaptivePartSize
  simp only
  split_ifs
  · exact ⟨order, le_rfl⟩
  · exact ⟨le_min (Nat.le_mul_of_pos_right _ (Nat.two_pow_pos _)) order, min_le_right _ _⟩

theorem adaptivePartSize_pos (partIndex maxParts : ℕ) :
    0 < adaptivePartSize none partIndex maxParts :=
  lt_of_lt_of_le (by decide) (adaptivePartSize_bounds partIndex maxParts).1

/-- Rounded to the largest unit the size reaches. -/
def approxBinarySize (bytes : ℕ) : Text :=
  if 2 ^ 40 ≤ bytes then decimal ((bytes + 2 ^ 39) / 2 ^ 40) ++ " TiB"
  else if 2 ^ 30 ≤ bytes then decimal ((bytes + 2 ^ 29) / 2 ^ 30) ++ " GiB"
  else decimal ((bytes + 2 ^ 19) / 2 ^ 20) ++ " MiB"

/-! ### The store -/

/-- How a part task fails: the request of the part, or the task itself. -/
inductive JoinFault
  | part (reason : Text)
  | task (reason : Text)
  deriving DecidableEq

structure Join where
  /-- Its place among the running tasks. -/
  pick : ℕ
  fault : Option JoinFault
  deriving DecidableEq

/-- The answers of the store, with the reasons of those that fail. -/
structure Env where
  create : Option Text
  joins : List Join
  complete : Option Text
  put : Option Text
  deriving DecidableEq

inductive Failure
  | stream (e : AppError)
  | create (reason : Text)
  | join (fault : JoinFault)
  | partLimit
  | partSize (partLen : ℕ)
  | complete (reason : Text)
  | put (reason : Text)
  deriving DecidableEq

def Failure.error (key : Text) (maxParts : ℕ) : Failure → AppError
  | .stream e => e
  | .create reason =>
    .storage ("Failed to start multipart upload for '" ++ key ++ "': " ++ reason)
  | .join (.part reason) =>
    .storage ("Multipart upload part failed for '" ++ key ++ "': " ++ reason)
  | .join (.task reason) =>
    .storage ("Multipart upload task failed for '" ++ key ++ "': " ++ reason)
  | .partLimit =>
    .storage ("Multipart upload for '" ++ key ++ "' exceeded the " ++
      decimal maxParts ++ "-part limit; objects larger than ~" ++
      approxBinarySize (s3StreamingCapacity maxParts) ++ " cannot be stored")
  | .partSize partLen =>
    .storage ("Multipart upload for '" ++ key ++ "' produced a " ++
      decimal partLen ++ "-byte part exceeding S3's " ++
      decimal (s3MultipartMaxPartSize / (1024 * 1024 * 1024)) ++ " GiB per-part limit")
  | .complete reason =>
    .storage ("Failed to complete multipart upload for '" ++ key ++ "': " ++ reason)
  | .put reason => .storage ("Failed to put object '" ++ key ++ "': " ++ reason)

/-! ### Parts -/

structure Upload (π : Type*) (maxParts : ℕ) where
  nextPartIndex : ℕ
  pendingPart : Bytes
  /-- A part is sent as soon as it is complete. -/
  short : pendingPart.length < adaptivePartSize none nextPartIndex maxParts
  tasks : List (ℕ × Bytes)
  parts : List (ℕ × π)
  joins : List Join
  enqueued : List (ℕ × Bytes)

def Upload.start (π : Type*) (maxParts : ℕ) (joins : List Join) : Upload π maxParts where
  nextPartIndex := 0
  pendingPart := []
  short := adaptivePartSize_pos 0 maxParts
  tasks := []
  parts := []
  joins := joins
  enqueued := []

section

variable {π : Type*} {maxParts : ℕ} (partId : ℕ → Bytes → π)

/-- Collect finished parts while more than `limit` tasks are running: `wait_for_s3_part_capacity`
and `drain_s3_part_uploads`. -/
def collectWhile (limit : ℕ) (up : Upload π maxParts) :
    Except (Failure × Upload π maxParts) (Upload π maxParts) :=
  if running : limit < up.tasks.length then
    let join := up.joins.headD ⟨0, none⟩
    have inside : join.pick % up.tasks.length < up.tasks.length := mod_lt _ (by omega)
    let (partIndex, part) := up.tasks[join.pick % up.tasks.length]
    let left := up.tasks.eraseIdx (join.pick % up.tasks.length)
    have fewer : left.length < up.tasks.length := by
      rw [length_eraseIdx_of_lt inside]
      omega
    match join.fault with
    | some fault => .error (.join fault, { up with tasks := left, joins := up.joins.tail })
    | none =>
      collectWhile limit { up with
        tasks := left
        parts := up.parts ++ [(partIndex, partId partIndex part)]
        joins := up.joins.tail }
  else .ok up
termination_by up.tasks.length
decreasing_by exact fewer

def ensurePartWithinLimit (nextPartIndex partLen maxParts : ℕ) : Except Failure Unit :=
  if maxParts ≤ nextPartIndex then .error .partLimit
  else if s3MultipartMaxPartSize < partLen then .error (.partSize partLen)
  else .ok ()

/-- `enqueue_s3_part_upload`; the buffer is empty afterwards. -/
def enqueuePart (up : Upload π maxParts) (part : Bytes) :
    Except (Failure × Upload π maxParts) (Upload π maxParts) :=
  match collectWhile partId (s3MultipartMaxInFlightParts - 1) up with
  | .error e => .error e
  | .ok up =>
    match ensurePartWithinLimit up.nextPartIndex part.length maxParts with
    | .error e => .error (e, up)
    | .ok () => .ok { up with
        nextPartIndex := up.nextPartIndex + 1
        pendingPart := []
        short := adaptivePartSize_pos (up.nextPartIndex + 1) maxParts
        tasks := up.tasks ++ [(up.nextPartIndex, part)]
        enqueued := up.enqueued ++ [(up.nextPartIndex, part)] }

def feed (data : Bytes) (up : Upload π maxParts) :
    Except (Failure × Upload π maxParts) (Upload π maxParts) :=
  if ended : data = [] then .ok up
  else
    let partSize := adaptivePartSize none up.nextPartIndex maxParts
    have positive : 0 < partSize := adaptivePartSize_pos up.nextPartIndex maxParts
    have remaining : 0 < data.length := length_pos_iff.2 ended
    have room : up.pendingPart.length < partSize := up.short
    if up.pendingPart = [] ∧ partSize ≤ data.length then
      have fewer : (data.drop partSize).length < data.length := by
        rw [length_drop]
        omega
      match enqueuePart partId up (data.take partSize) with
      | .error e => .error e
      | .ok up => feed (data.drop partSize) up
    else
      let buffered := min (partSize - up.pendingPart.length) data.length
      let pending := up.pendingPart ++ data.take buffered
      have fewer : (data.drop buffered).length < data.length := by
        rw [length_drop]
        omega
      if complete : pending.length = partSize then
        match enqueuePart partId up pending with
        | .error e => .error e
        | .ok up => feed (data.drop buffered) up
      else
        have short : pending.length < partSize := by
          have length : pending.length = up.pendingPart.length + buffered := by
            simp [pending, buffered]
          omega
        feed (data.drop buffered) { up with pendingPart := pending, short := short }
termination_by data.length
decreasing_by all_goals exact fewer

/-! ### The stream -/

structure Reading (π : Type*) (maxParts : ℕ) where
  /-- Whether the multipart upload is open. -/
  created : Bool
  hasher : Bytes
  total : ℕ
  up : Upload π maxParts

/-- The loop over the chunks; the multipart upload is opened at the first byte. -/
def readStream (create : Option Text) :
    Body → Reading π maxParts → Except (Failure × Upload π maxParts) (Reading π maxParts)
  | [], reading => .ok reading
  | .error e :: _, reading => .error (.stream e, reading.up)
  | .ok data :: rest, reading =>
    if data = [] then readStream create rest reading
    else
      match if reading.created then none else create with
      | some reason => .error (.create reason, reading.up)
      | none =>
        match feed partId data reading.up with
        | .error e => .error e
        | .ok up =>
          readStream create rest ⟨true, reading.hasher ++ data, reading.total + data.length, up⟩

structure Report (π δ : Type*) where
  enqueued : List (ℕ × Bytes)
  completed : Option (List π)
  result : Except Failure (PutStreamResult δ)

def Report.answer {δ : Type*} (report : Report π δ) (key : Text) (maxParts : ℕ) :
    Except AppError (PutStreamResult δ) :=
  report.result.mapError (Failure.error key maxParts)

def flushParts (up : Upload π maxParts) : Except (Failure × Upload π maxParts) (Upload π maxParts) :=
  if up.pendingPart = [] then collectWhile partId 0 up
  else
    match enqueuePart partId up up.pendingPart with
    | .error e => .error e
    | .ok up => collectWhile partId 0 up

def sortedIds (parts : List (ℕ × π)) : List π :=
  (parts.insertionSort fun a b => a.1 ≤ b.1).map snd

def putStream {δ : Type*} (maxParts : ℕ) (sha256 : Bytes → δ) (env : Env) (stream : Body) :
    Report π δ :=
  match readStream partId env.create stream ⟨false, [], 0, Upload.start π maxParts env.joins⟩ with
  | .error (e, up) => ⟨up.enqueued, none, .error e⟩
  | .ok reading =>
    let written : PutStreamResult δ := ⟨sha256 reading.hasher, reading.total⟩
    if reading.created then
      match flushParts partId reading.up with
      | .error (e, up) => ⟨up.enqueued, none, .error e⟩
      | .ok up =>
        match env.complete with
        | some reason => ⟨up.enqueued, some (sortedIds up.parts), .error (.complete reason)⟩
        | none => ⟨up.enqueued, some (sortedIds up.parts), .ok written⟩
    else
      match env.put with
      | some reason => ⟨reading.up.enqueued, none, .error (.put reason)⟩
      | none => ⟨reading.up.enqueued, none, .ok written⟩

end

/-! ### The parts of an upload -/

open Blocks

def partSizes (maxParts : ℕ) : ℕ → ℕ := fun partIndex => adaptivePartSize none partIndex maxParts

theorem partSizes_pos (maxParts i : ℕ) : 0 < partSizes maxParts i := adaptivePartSize_pos i maxParts

theorem capacity_partSizes (maxParts : ℕ) :
    capacity (partSizes maxParts) maxParts = s3StreamingCapacity maxParts := rfl

/-- A failure before all parts are sent has a reason: a fault of the store, an error of the stream or
its length. -/
def Explained (env : Env) (maxParts : ℕ) (ends : Option AppError) (read : Bytes) : Failure → Prop
  | .stream e => ends = some e
  | .create reason => env.create = some reason
  | .join fault => ∃ join ∈ env.joins, join.fault = some fault
  | .partLimit => s3StreamingCapacity maxParts < read.length
  | .partSize _ | .complete _ | .put _ => False

section

variable {π : Type*} {maxParts : ℕ} {partId : ℕ → Bytes → π} {env : Env}
  {ends : Option AppError} {read more data part : Bytes} {f : Failure} {up up' : Upload π maxParts}

theorem Explained.append (explained : Explained env maxParts ends read f) :
    Explained env maxParts ends (read ++ more) f := by
  cases f with
  | partLimit =>
    have longer : s3StreamingCapacity maxParts < read.length := explained
    have length : (read ++ more).length = read.length + more.length := length_append
    show s3StreamingCapacity maxParts < (read ++ more).length
    omega
  | _ => exact explained

theorem Explained.eq_partLimit (explained : Explained env maxParts ends read f) (whole : ends = none)
    (create : env.create = none) (joins : ∀ join ∈ env.joins, join.fault = none) :
    f = .partLimit := by
  cases f with
  | partLimit => rfl
  | stream => exact nomatch whole.symm.trans explained
  | create => exact nomatch create.symm.trans explained
  | join =>
    obtain ⟨join, among, faulty⟩ := explained
    exact nomatch (joins join among).symm.trans faulty
  | partSize | complete | put => exact explained.elim

/-! ### Running and collected parts -/

def identified (partId : ℕ → Bytes → π) (part : ℕ × Bytes) : ℕ × π := (part.1, partId part.1 part.2)

/-- Every part that was enqueued is running or collected, once. -/
structure Queued (env : Env) (partId : ℕ → Bytes → π) (up : Upload π maxParts) : Prop where
  indices : up.enqueued.map fst = range up.nextPartIndex
  within : up.nextPartIndex ≤ maxParts
  perm : up.tasks.map (identified partId) ++ up.parts ~ up.enqueued.map (identified partId)
  known : ∀ join ∈ up.joins, join ∈ env.joins

theorem Queued.length (queued : Queued env partId up) : up.enqueued.length = up.nextPartIndex := by
  have same := congrArg List.length queued.indices
  rwa [length_map, length_range] at same

/-- The joins take nothing from what was enqueued. -/
structure SameParts (up up' : Upload π maxParts) : Prop where
  enqueued : up'.enqueued = up.enqueued
  nextPartIndex : up'.nextPartIndex = up.nextPartIndex
  pendingPart : up'.pendingPart = up.pendingPart

theorem Queued.collect (queued : Queued env partId up) {i : ℕ} (inside : i < up.tasks.length) :
    Queued env partId { up with
      tasks := up.tasks.eraseIdx i
      parts := up.parts ++ [identified partId up.tasks[i]]
      joins := up.joins.tail } where
  indices := queued.indices
  within := queued.within
  perm := by
    have moved : up.tasks[i] :: up.tasks.eraseIdx i ~ up.tasks :=
      getElem_cons_eraseIdx_perm inside
    calc (up.tasks.eraseIdx i).map (identified partId) ++
          (up.parts ++ [identified partId up.tasks[i]])
        _ = (up.tasks.eraseIdx i).map (identified partId) ++ up.parts ++
          [identified partId up.tasks[i]] := (append_assoc ..).symm
        _ ~ identified partId up.tasks[i] ::
          ((up.tasks.eraseIdx i).map (identified partId) ++ up.parts) := perm_append_singleton ..
        _ ~ up.tasks.map (identified partId) ++ up.parts :=
          (moved.map (identified partId)).append_right up.parts
        _ ~ up.enqueued.map (identified partId) := queued.perm
  known join among := queued.known join (mem_of_mem_tail among)

/-! ### What was read -/

structure Kept (env : Env) (partId : ℕ → Bytes → π) (read : Bytes) (up : Upload π maxParts) :
    Prop where
  queued : Queued env partId up
  cut : Cut (partSizes maxParts) read (up.enqueued.map snd) up.pendingPart

structure Stopped (read : Bytes) (up : Upload π maxParts) : Prop where
  indices : up.enqueued.map fst = range up.enqueued.length
  sized : Sized (partSizes maxParts) (up.enqueued.map snd)
  front : (up.enqueued.map snd).flatten <+: read

theorem Kept.stopped (kept : Kept env partId read up) (same : up'.enqueued = up.enqueued) :
    Stopped read up' := by
  refine ⟨?_, same ▸ kept.cut.full.sized, ?_⟩
  · rw [same, kept.queued.indices, kept.queued.length]
  · rw [same, ← kept.cut.whole]
    exact prefix_append ..

theorem Stopped.append (stopped : Stopped read up) : Stopped (read ++ more) up :=
  ⟨stopped.indices, stopped.sized, stopped.front.trans (prefix_append ..)⟩

theorem Kept.start : Kept env partId [] (Upload.start π maxParts env.joins) :=
  ⟨⟨rfl, zero_le _, .refl _, fun _ among => among⟩, Cut.nil (partSizes_pos maxParts 0)⟩

theorem Kept.capacity_lt (kept : Kept env partId read up) (none : maxParts ≤ up.nextPartIndex)
    (more : up.pendingPart ++ part ≠ []) :
    s3StreamingCapacity maxParts < (read ++ part).length := by
  have all : up.nextPartIndex = maxParts := le_antisymm kept.queued.within none
  have full := kept.cut.full.length_flatten
  rw [length_map, kept.queued.length, all, capacity_partSizes] at full
  have positive : 0 < (up.pendingPart ++ part).length := length_pos_iff.2 more
  rw [← kept.cut.whole, append_assoc, length_append, full]
  omega

def After (env : Env) (partId : ℕ → Bytes → π) (ends : Option AppError) (read : Bytes) :
    Except (Failure × Upload π maxParts) (Upload π maxParts) → Prop
  | .ok up => Kept env partId read up
  | .error (f, up) => Stopped read up ∧ Explained env maxParts ends read f

theorem After.error_append {e : Failure × Upload π maxParts}
    (after : After env partId ends read (.error e)) :
    After env partId ends (read ++ more) (.error e) :=
  ⟨Stopped.append after.1, Explained.append after.2⟩

theorem After.error_take {n : ℕ} {e : Failure × Upload π maxParts}
    {out : Except (Failure × Upload π maxParts) (Upload π maxParts)}
    (sent : After env partId ends (read ++ data.take n) out) (failed : out = .error e) :
    After env partId ends (read ++ data) (.error e) := by
  rw [failed] at sent
  rw [← take_append_drop n data, ← append_assoc]
  exact sent.error_append

/-! ### What the calls leave -/

variable (ends)

theorem collectWhile_spec (limit : ℕ) (read : Bytes) (queued : Queued env partId up) :
    match collectWhile partId limit up with
    | .ok up' => Queued env partId up' ∧ SameParts up up' ∧ up'.tasks.length ≤ limit
    | .error (f, up') => up'.enqueued = up.enqueued ∧ Explained env maxParts ends read f := by
  fun_induction collectWhile partId limit up with
  | case1 up _ join _ _ _ _ _ _ _ faulty =>
    refine ⟨rfl, join, ?_, faulty⟩
    -- the default join has no fault
    have among : join ∈ up.joins := by
      cases joins : up.joins with
      | nil =>
        have default : join = ⟨0, none⟩ := by simp [join, joins]
        rw [default] at faulty
        cases faulty
      | cons first _ =>
        have head : join = first := by simp [join, joins]
        exact head ▸ mem_cons_self
    exact queued.known join among
  | case2 _ _ _ inside _ _ task _ _ _ ih =>
    have collected := queued.collect inside
    rw [task] at collected
    have later := ih collected
    split at later
    · exact ⟨later.1, ⟨later.2.1.enqueued, later.2.1.nextPartIndex, later.2.1.pendingPart⟩,
        later.2.2⟩
    · exact later
  | case3 _ enough => exact ⟨queued, ⟨rfl, rfl, rfl⟩, Nat.le_of_not_lt enough⟩

section

variable (kept : Kept env partId read up)
include kept

theorem enqueuePart_spec (some : up.pendingPart ++ more ≠ [])
    (fits : (up.pendingPart ++ more).length ≤ partSizes maxParts up.nextPartIndex) :
    match enqueuePart partId up (up.pendingPart ++ more) with
    | .ok up' => Queued env partId up' ∧ up'.pendingPart = [] ∧
        up'.enqueued = up.enqueued ++ [(up.nextPartIndex, up.pendingPart ++ more)]
    | .error (f, up') =>
      up'.enqueued = up.enqueued ∧ Explained env maxParts ends (read ++ more) f := by
  have collected :=
    collectWhile_spec ends (s3MultipartMaxInFlightParts - 1) (read ++ more) kept.queued
  unfold enqueuePart
  split at collected
  · next up₁ free =>
    obtain ⟨queued, same, -⟩ := collected
    rw [free]
    simp only [ensurePartWithinLimit, same.nextPartIndex]
    split_ifs with none long
    · exact ⟨same.enqueued, kept.capacity_lt none some⟩
    · exact absurd ((adaptivePartSize_bounds up.nextPartIndex maxParts).2) (by
        unfold partSizes at fits
        omega)
    · refine ⟨⟨?_, ?_, ?_, queued.known⟩, rfl, by rw [same.enqueued]⟩
      · show (up₁.enqueued ++ [_]).map fst = range (up.nextPartIndex + 1)
        rw [map_append, queued.indices, same.nextPartIndex, range_succ]
        rfl
      · show up.nextPartIndex + 1 ≤ maxParts
        omega
      · rw [map_append, map_append, append_assoc]
        refine (List.Perm.append_left _ perm_append_comm).trans ?_
        rw [← append_assoc]
        exact queued.perm.append_right _
  · next _ _ stopped =>
    rw [stopped]
    exact collected

theorem enqueuePart_full (full : (up.pendingPart ++ more).length = partSizes maxParts up.nextPartIndex) :
    After env partId ends (read ++ more) (enqueuePart partId up (up.pendingPart ++ more)) := by
  have positive := partSizes_pos maxParts up.nextPartIndex
  have some : up.pendingPart ++ more ≠ [] := length_pos_iff.1 (by omega)
  have spec := enqueuePart_spec ends kept some full.le
  split at spec
  · next _ sent =>
    obtain ⟨queued, pending, enqueued⟩ := spec
    rw [sent]
    refine ⟨queued, ?_⟩
    rw [pending, enqueued, map_append]
    refine kept.cut.push ?_ (partSizes_pos maxParts)
    rw [full, length_map, kept.queued.length]
  · next f _ failed =>
    rw [failed]
    exact ⟨(kept.stopped spec.1).append, spec.2⟩

theorem enqueuePart_direct (nothing : up.pendingPart = [])
    (enough : partSizes maxParts up.nextPartIndex ≤ data.length) :
    After env partId ends (read ++ data.take (partSizes maxParts up.nextPartIndex))
      (enqueuePart partId up (data.take (partSizes maxParts up.nextPartIndex))) := by
  have length : (up.pendingPart ++ data.take (partSizes maxParts up.nextPartIndex)).length =
      partSizes maxParts up.nextPartIndex := by
    rw [nothing, nil_append, length_take_of_le enough]
  have full := enqueuePart_full ends kept length
  rwa [nothing, nil_append] at full

end

theorem feed_spec (data : Bytes) (kept : Kept env partId read up) :
    After env partId ends (read ++ data) (feed partId data up) := by
  fun_induction feed partId data up generalizing read with
  | case1 _ =>
    rw [append_nil]
    exact kept
  | case2 _ _ _ _ _ _ _ direct =>
    rename_i failed
    exact (enqueuePart_direct ends kept direct.1 direct.2).error_take failed
  | case3 data up _ partSize _ _ _ direct _ _ success =>
    rename_i ih
    have sent : After env partId ends (read ++ data.take partSize)
        (enqueuePart partId up (data.take partSize)) :=
      enqueuePart_direct ends kept direct.1 direct.2
    rw [success] at sent
    have rest := ih sent
    rwa [append_assoc, take_append_drop] at rest
  | case4 _ _ _ _ _ _ _ _ _ _ _ complete =>
    rename_i failed
    exact (enqueuePart_full ends kept complete).error_take failed
  | case5 data up _ _ _ _ _ _ buffered pending _ complete _ success =>
    rename_i ih
    have sent : After env partId ends (read ++ data.take buffered) (enqueuePart partId up pending) :=
      enqueuePart_full ends kept complete
    rw [success] at sent
    have rest := ih sent
    rwa [append_assoc, take_append_drop] at rest
  | case6 data up _ _ _ _ _ _ buffered _ _ _ short =>
    rename_i ih
    have length : (up.enqueued.map snd).length = up.nextPartIndex := by
      rw [length_map, kept.queued.length]
    have rest := @ih (read ++ data.take buffered) ⟨⟨kept.queued.indices, kept.queued.within,
      kept.queued.perm, kept.queued.known⟩, kept.cut.keep (length ▸ short)⟩
    rwa [append_assoc, take_append_drop] at rest

/-! ### The stream -/

structure Read (env : Env) (partId : ℕ → Bytes → π) (read : Bytes) (reading : Reading π maxParts) :
    Prop where
  kept : Kept env partId read reading.up
  hasher : reading.hasher = read
  total : reading.total = read.length
  created : reading.created = false → read = [] ∧ reading.up.enqueued = []

theorem readStream_spec (stream : Body) {reading : Reading π maxParts}
    (so_far : Read env partId read reading) :
    match readStream partId env.create stream reading with
    | .ok reading' => failure stream = none ∧ Read env partId (read ++ delivered stream) reading'
    | .error e => After env partId (failure stream) (read ++ delivered stream) (.error e) := by
  induction stream generalizing read reading with
  | nil =>
    simp only [delivered_nil, append_nil, failure_nil, true_and]
    exact so_far
  | cons item rest ih =>
    cases item with
    | error e =>
      simp only [delivered_error, append_nil]
      exact ⟨so_far.kept.stopped rfl, rfl⟩
    | ok data =>
      rw [readStream.eq_def, delivered_ok, failure_ok]
      simp only
      by_cases empty : data = []
      · rw [if_pos empty, empty, nil_append]
        exact ih so_far
      · rw [if_neg empty, ← append_assoc]
        cases opened : if reading.created then none else env.create with
        | some reason =>
          have refused : env.create = some reason := by
            split_ifs at opened
            exact opened
          exact ⟨(so_far.kept.stopped rfl).append.append, refused⟩
        | none =>
          have fed := feed_spec (failure rest) data so_far.kept
          cases result : feed partId data reading.up with
          | error e =>
            rw [result] at fed
            exact fed.error_append
          | ok _ =>
            rw [result] at fed
            refine ih ⟨fed, ?_, ?_, nofun⟩
            · rw [so_far.hasher]
            · rw [so_far.total, length_append]

structure Sent (env : Env) (partId : ℕ → Bytes → π) (read : Bytes) (up : Upload π maxParts) :
    Prop where
  queued : Queued env partId up
  sized : Sized (partSizes maxParts) (up.enqueued.map snd)
  whole : (up.enqueued.map snd).flatten = read
  fits : read.length ≤ s3StreamingCapacity maxParts

theorem Kept.sent (kept : Kept env partId read up) (queued : Queued env partId up')
    (parts : up'.enqueued.map snd = finish (up.enqueued.map snd) up.pendingPart) :
    Sent env partId read up' := by
  refine ⟨queued, parts ▸ kept.cut.sized_finish, parts ▸ kept.cut.flatten_finish, ?_⟩
  have length : (finish (up.enqueued.map snd) up.pendingPart).length ≤ maxParts := by
    rw [← parts, length_map, queued.length]
    exact queued.within
  exact kept.cut.length_le.trans (capacity_mono (partSizes maxParts) length)

theorem Sent.stopped (sent : Sent env partId read up) (same : up'.enqueued = up.enqueued) :
    Stopped read up' := by
  refine ⟨?_, same ▸ sent.sized, ?_⟩
  · rw [same, sent.queued.indices, sent.queued.length]
  · rw [same, sent.whole]

theorem drain_spec (sent : Sent env partId read up) :
    match collectWhile partId 0 up with
    | .ok up' => Sent env partId read up' ∧ up'.tasks = []
    | .error e => After env partId ends read (.error e) := by
  have drained := collectWhile_spec ends 0 read sent.queued
  split at drained
  · next _ done =>
    obtain ⟨queued, same, few⟩ := drained
    rw [done]
    refine ⟨⟨queued, ?_, ?_, sent.fits⟩, length_eq_zero_iff.1 (le_zero.1 few)⟩
    · exact same.enqueued ▸ sent.sized
    · exact same.enqueued ▸ sent.whole
  · next f _ failed =>
    rw [failed]
    exact ⟨sent.stopped drained.1, drained.2⟩

theorem flushParts_spec (kept : Kept env partId read up) :
    match flushParts partId up with
    | .ok up' => Sent env partId read up' ∧ up'.tasks = []
    | .error e => After env partId ends read (.error e) := by
  unfold flushParts
  split_ifs with nothing
  · refine drain_spec ends (kept.sent kept.queued ?_)
    rw [finish, if_pos nothing]
  · have pending : up.pendingPart ++ [] = up.pendingPart := append_nil _
    have short : up.pendingPart.length ≤ partSizes maxParts up.nextPartIndex := up.short.le
    have last := enqueuePart_spec ends kept (pending.symm ▸ nothing) (pending.symm ▸ short)
    rw [pending, append_nil] at last
    split at last
    · next _ enqueued =>
      obtain ⟨queued, -, parts⟩ := last
      rw [enqueued]
      refine drain_spec ends (kept.sent queued ?_)
      rw [finish, if_neg nothing, parts, map_append]
      rfl
    · next f _ failed =>
      rw [failed]
      exact ⟨kept.stopped last.1, last.2⟩

theorem sortedIds_eq (queued : Queued env partId up) (drained : up.tasks = []) :
    sortedIds up.parts = up.enqueued.map fun part => partId part.1 part.2 := by
  have perm : up.parts ~ up.enqueued.map (identified partId) := by
    have perm := queued.perm
    rwa [drained, map_nil, nil_append] at perm
  have indices : (up.enqueued.map (identified partId)).map fst = range up.nextPartIndex :=
    (map_map ..).trans queued.indices
  have ordered : (up.enqueued.map (identified partId)).Pairwise fun a b => a.1 ≤ b.1 := by
    rw [← pairwise_map, indices]
    exact pairwise_le_range
  have sorted : (up.parts.insertionSort fun a b => a.1 ≤ b.1).Pairwise fun a b => a.1 ≤ b.1 :=
    pairwise_insertionSort (fun a b : ℕ × π => a.1 ≤ b.1) up.parts
  have same : up.parts.insertionSort (fun a b => a.1 ≤ b.1) = up.enqueued.map (identified partId) := by
    have sort := (perm_insertionSort (fun a b : ℕ × π => a.1 ≤ b.1) up.parts).trans perm
    refine List.Perm.eq_of_pairwise ?_ sorted ordered sort
    intro a b amongParts amongIds ab ba
    refine inj_on_of_nodup_map (indices ▸ nodup_range) (sort.mem_iff.1 amongParts)
      amongIds (le_antisymm ab ba)
  unfold sortedIds
  rw [same, map_map]
  rfl

end

section

variable {π δ : Type*} (maxParts : ℕ) (partId : ℕ → Bytes → π) (sha256 : Bytes → δ) (env : Env)
  (stream : Body)

/-- How an upload can end: before all parts were sent, with the parts handed over, or without a
part. -/
inductive Ended : Report π δ → Prop
  | failed (up : Upload π maxParts) (f : Failure) (stopped : Stopped (delivered stream) up)
    (explained : Explained env maxParts (failure stream) (delivered stream) f) :
    Ended ⟨up.enqueued, none, .error f⟩
  | completed (up : Upload π maxParts) (result : Except Failure (PutStreamResult δ))
    (ends : failure stream = none) (sent : Sent env partId (delivered stream) up)
    (returned : result = .ok ⟨sha256 (delivered stream), (delivered stream).length⟩ ∨
      ∃ reason, result = .error (.complete reason)) :
    Ended ⟨up.enqueued, some (up.enqueued.map fun part => partId part.1 part.2), result⟩
  | empty (result : Except Failure (PutStreamResult δ)) (ends : failure stream = none)
    (nothing : delivered stream = [])
    (returned : result = .ok ⟨sha256 (delivered stream), (delivered stream).length⟩ ∨
      ∃ reason, result = .error (.put reason)) :
    Ended ⟨[], none, result⟩

variable {maxParts partId sha256 env stream} {report : Report π δ}

theorem putStream_ended :
    Ended maxParts partId sha256 env stream (putStream partId maxParts sha256 env stream) := by
  have start : Read env partId [] ⟨false, [], 0, Upload.start π maxParts env.joins⟩ :=
    ⟨Kept.start, rfl, rfl, fun _ => ⟨rfl, rfl⟩⟩
  have read := readStream_spec stream start
  unfold putStream
  split at read
  · next _ done =>
    obtain ⟨ends, read⟩ := read
    rw [done]
    simp only [read.hasher, read.total]
    split_ifs with created
    · have flushed := flushParts_spec (failure stream) read.kept
      split at flushed
      · next up sent =>
        obtain ⟨sent', drained⟩ := flushed
        rw [sent]
        simp only [sortedIds_eq sent'.queued drained]
        split
        · next reason _ => exact .completed up _ ends sent' (.inr ⟨reason, rfl⟩)
        · exact .completed up _ ends sent' (.inl rfl)
      · next e failed =>
        rw [failed]
        exact .failed e.2 e.1 flushed.1 flushed.2
    · obtain ⟨nothing, unsent⟩ := read.created (Bool.eq_false_iff.2 created)
      rw [unsent]
      split
      · next reason _ => exact .empty _ ends nothing (.inr ⟨reason, rfl⟩)
      · exact .empty _ ends nothing (.inl rfl)
  · next e failed =>
    rw [failed]
    exact .failed e.2 e.1 read.1 read.2

section

variable (ended : Ended maxParts partId sha256 env stream report)
include ended

theorem Ended.stopped :
    report.enqueued.map fst = range report.enqueued.length ∧
      Sized (partSizes maxParts) (report.enqueued.map snd) ∧
      (report.enqueued.map snd).flatten <+: delivered stream := by
  cases ended with
  | failed _ f stopped => exact ⟨stopped.indices, stopped.sized, stopped.front⟩
  | completed _ _ _ sent =>
    have stopped := sent.stopped rfl
    exact ⟨stopped.indices, stopped.sized, stopped.front⟩
  | empty => exact ⟨rfl, fun _ inside => absurd inside (not_lt_zero _), nil_prefix⟩

theorem Ended.fits
    (early : ∀ f, report.result = .error f →
      ¬ Explained env maxParts (failure stream) (delivered stream) f) :
    (delivered stream).length ≤ s3StreamingCapacity maxParts := by
  cases ended with
  | failed _ f _ explained => exact absurd explained (early f rfl)
  | completed _ _ _ sent => exact sent.fits
  | empty _ _ nothing => exact nothing ▸ zero_le _

theorem Ended.length_of_partLimit (limit : report.result = .error .partLimit) :
    s3StreamingCapacity maxParts < (delivered stream).length := by
  cases ended with
  | failed _ f _ explained =>
    obtain rfl : f = .partLimit := Except.error.inj limit
    exact explained
  | completed up result ends sent returned | empty result ends nothing returned =>
    obtain rfl : result = .error .partLimit := limit
    rcases returned with ok | ⟨_, refused⟩
    · cases ok
    · cases refused

variable (ends : failure stream = none) (create : env.create = none)
  (joins : ∀ join ∈ env.joins, join.fault = none)
include ends create joins

theorem Ended.partLimit_iff :
    report.result = .error .partLimit ↔
      s3StreamingCapacity maxParts < (delivered stream).length := by
  refine ⟨ended.length_of_partLimit, fun long => ?_⟩
  by_contra other
  refine absurd long (not_lt.2 (ended.fits fun f failed explained => other ?_))
  rw [failed, explained.eq_partLimit ends create joins]

theorem Ended.isSome_completed (short : (delivered stream).length ≤ s3StreamingCapacity maxParts)
    (nonempty : delivered stream ≠ []) : report.completed.isSome := by
  cases ended with
  | failed _ f _ explained =>
    rw [explained.eq_partLimit ends create joins] at explained
    exact absurd explained (not_lt.2 short)
  | completed => rfl
  | empty _ _ nothing => exact absurd nothing nonempty

end

end

end ArtifactKeeper.S3
