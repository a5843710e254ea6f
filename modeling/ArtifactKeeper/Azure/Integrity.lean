import ArtifactKeeper.Library.Base64
import ArtifactKeeper.Library.Protocol
import ArtifactKeeper.Storage
import ArtifactKeeper.Library.Blocks

/-!
# A block blob

The content of one blob and its uncommitted blocks.  Committing a list of blocks replaces the
content and discards all staged blocks; it fails if a named block is missing.  Staged blocks may
also be discarded at any time.  Three parts of the store only observe the run.
-/

namespace ArtifactKeeper.Azure

open List Text Char

/-- A version 4 UUID in its simple form. -/
@[ext]
structure Nonce where
  simple : Text
  length : simple.length = 32
  hex : ∀ c ∈ simple, '0' ≤ c ∧ c ≤ '9' ∨ 'a' ≤ c ∧ c ≤ 'f'
  deriving DecidableEq

def blockId (nonce : Nonce) (index : ℕ) : Text :=
  Base64.encode ((nonce.simple ++ padded 16 index).map toUInt8)

theorem ofNat_toUInt8 {t : Text} (ascii : ∀ c ∈ t, c.toNat < 256) :
    (t.map toUInt8).map (fun byte => ofNat byte.toNat) = t := by
  have same : ∀ c ∈ t, ofNat (toUInt8 c).toNat = c := by
    intro c mem
    have small : (toUInt8 c).toNat = c.toNat := by
      show c.toNat % 256 = c.toNat
      exact Nat.mod_eq_of_lt (ascii c mem)
    rw [small, ofNat_toNat]
  rw [map_map]
  exact (map_congr_left same).trans (map_id' t)

theorem ascii_blockId (nonce : Nonce) (index : ℕ) :
    ∀ c ∈ nonce.simple ++ padded 16 index, c.toNat < 256 := by
  intro c mem
  rcases mem_append.1 mem with drawn | digit
  · have upper : c.toNat ≤ 102 := by
      rcases nonce.hex c drawn with ⟨-, le⟩ | ⟨-, le⟩
      · exact le_trans (show c.toNat ≤ 57 from le) (by decide)
      · exact le
    omega
  · have isDigit := isDigit_of_mem_padded digit
    simp only [Char.isDigit, Bool.and_eq_true, decide_eq_true_eq] at isDigit
    have upper : c.toNat ≤ 57 := isDigit.2
    omega

theorem blockId_inj {nonce nonce' : Nonce} {index index' : ℕ} :
    blockId nonce index = blockId nonce' index' ↔ nonce = nonce' ∧ index = index' := by
  refine ⟨fun same => ?_, fun same => same.1 ▸ same.2 ▸ rfl⟩
  have bytes := Base64.encode_injective same
  have text : nonce.simple ++ padded 16 index = nonce'.simple ++ padded 16 index' := by
    rw [← ofNat_toUInt8 (ascii_blockId nonce index), bytes, ofNat_toUInt8 (ascii_blockId _ _)]
  obtain ⟨simple, digits⟩ := append_inj text (nonce.length.trans nonce'.length.symm)
  exact ⟨Nonce.ext simple, padded_injective 16 digits⟩

structure Blob where
  content : Option Bytes
  staged : List (Text × Bytes)
  past : List (Option Bytes)
  calls : List (Nonce × Body)
  nonces : List Nonce

namespace Blob

def block (blob : Blob) (id : Text) : Option Bytes :=
  (blob.staged.find? fun block => block.1 = id).map Prod.snd

def version (blob : Blob) : ℕ := blob.past.length

def contents (blob : Blob) : List (Option Bytes) := blob.past ++ [blob.content]

end Blob

inductive Effect
  | none
  | start (nonce : Nonce) (stream : Body)
  | stage (id : Text) (content : Bytes)
  | replace (content : Bytes)
  | discard (ids : List Text)

def Effect.apply : Effect → Blob → Blob
  | .none, blob => blob
  | .start nonce stream, blob =>
    { blob with calls := (nonce, stream) :: blob.calls, nonces := nonce :: blob.nonces }
  | .stage id content, blob => { blob with staged := (id, content) :: blob.staged }
  | .replace content, blob =>
    { blob with content := some content, staged := [], past := blob.past ++ [blob.content] }
  | .discard ids, blob => { blob with staged := blob.staged.filter fun block => !ids.any (· == block.1) }

/-! ### Streamed uploads to a block blob -/

open ByteStreams

structure Config where
  key : Text
  blockChunkSize : ℕ
  positive : 0 < blockChunkSize
  maxBlocks : ℕ

def standard (key : Text) : Config := ⟨key, 4 * 1024 * 1024, by decide, 50000⟩

/-! ### Reading the stream -/

variable (cfg : Config)

structure Reading where
  hasher : Bytes
  total : ℕ
  buffer : Bytes
  /-- A block is sent as soon as it is complete. -/
  short : buffer.length < cfg.blockChunkSize
  chunk : Bytes
  blockIds : List Text

def Reading.start : Reading cfg := ⟨[], 0, [], cfg.positive, [], []⟩

inductive Pulled
  | block (content : Bytes) (reading : Reading cfg) (rest : Body)
  | ended (reading : Reading cfg)
  | failed (e : AppError)

/-- Read until a block is complete or the stream ends. -/
def pull : Body → Reading cfg → Pulled cfg
  | stream, reading =>
    let take := min (cfg.blockChunkSize - reading.buffer.length) reading.chunk.length
    let buffer := reading.buffer ++ reading.chunk.take take
    if full : buffer.length = cfg.blockChunkSize then
      .block buffer { reading with
        buffer := [], short := cfg.positive, chunk := reading.chunk.drop take } stream
    else
      -- the chunk is used up
      have short : buffer.length < cfg.blockChunkSize := by
        have before := reading.short
        have length : buffer.length = reading.buffer.length + take := by simp [buffer, take]
        omega
      match stream with
      | [] =>
        if buffer = [] then .ended { reading with buffer := buffer, short := short, chunk := [] }
        else .block buffer { reading with buffer := [], short := cfg.positive, chunk := [] } []
      | .error e :: _ => .failed e
      | .ok chunk :: rest =>
        if chunk = [] then
          pull rest { reading with buffer := buffer, short := short, chunk := [] }
        else
          pull rest
            ⟨reading.hasher ++ chunk, reading.total + chunk.length, buffer, short, chunk,
              reading.blockIds⟩

/-! ### Calls -/

structure Upload where
  nonce : Nonce
  stream : Body
  /-- The number of the content when the call started. -/
  since : ℕ

inductive Request (δ : Type*)
  | idle
  | reading (up : Upload) (reading : Reading cfg) (rest : Body)
  | block (up : Upload) (content : Bytes) (reading : Reading cfg) (rest : Body)
  | staged (up : Upload) (reading : Reading cfg)
  /-- The commit failed because a block was missing. -/
  | lost (up : Upload) (reading : Reading cfg) (e : AppError)
  | sized (up : Upload) (reading : Reading cfg) (e : AppError)
  /-- The call has returned at the content with this number. -/
  | returned (up : Upload) (result : Except AppError (PutStreamResult δ)) (version : ℕ)
  | dropped

/-- What becomes of a request: the blob answers it, or the call sees an error, whether the request
has arrived or not. -/
inductive Fate
  | answered (body : Text)
  | lost (arrived : Bool) (e : AppError)

inductive Action
  | start (nonce : Nonce) (stream : Body)
  | pull
  | putBlock (fate : Fate)
  | commit (fate : Fate)
  | head (fate : Fate)
  | get (fallback : Option Bytes) (reply : Except AppError Body)
  | drop
  | discard (ids : List Text)

def commitLostToConcurrentWriter : AppError → Bool
  | .storage message => containsText message "InvalidBlockList"
  | _ => false

/-- The hash and the length of what a body delivers, if it does not fail. -/
def readBack : Body → Bytes → ℕ → Option (Bytes × ℕ)
  | [], hasher, read => some (hasher, read)
  | .error _ :: _, _, _ => none
  | .ok chunk :: rest, hasher, read => readBack rest (hasher ++ chunk) (read + chunk.length)

section

variable {δ : Type*} [DecidableEq δ] (cfg : Config) (sha256 : Bytes → δ)

abbrev Statement (cfg : Config) (δ : Type*) := Outcome (Request cfg δ) ℕ Effect

variable {cfg} (blob : Blob) (up : Upload) (reading : Reading cfg)

def proceed (next : Request cfg δ) : Statement cfg δ := ⟨[], .none, next⟩

variable (e : AppError)

def fail : Statement cfg δ :=
  proceed (.returned up (.error e) blob.version)

def written : PutStreamResult δ := ⟨sha256 reading.hasher, reading.total⟩

def replace (content : Bytes) : Statement cfg δ :=
  ⟨[], .replace content, .returned up (.ok (written sha256 reading)) (blob.version + 1)⟩

def pullNext (rest : Body) : Statement cfg δ :=
  match pull cfg rest reading with
  | .block content reading rest => proceed (.block up content reading rest)
  | .ended reading => proceed (.staged up reading)
  | .failed e => fail blob up e

def putStreamBlock (content : Bytes) (reading : Reading cfg) (rest : Body) (fate : Fate) :
    Statement cfg δ :=
  if cfg.maxBlocks ≤ reading.blockIds.length then
    fail blob up (.storage ("Azure block blob limit exceeded for '" ++ cfg.key ++
      "': " ++ decimal reading.blockIds.length ++ " blocks staged; maximum is " ++
      decimal cfg.maxBlocks))
  else
    let id := blockId up.nonce reading.blockIds.length
    match fate with
    | .answered _ =>
      ⟨[], .stage id content,
        .reading up { reading with blockIds := reading.blockIds ++ [id] } rest⟩
    | .lost arrived e =>
      ⟨[], if arrived then .stage id content else .none, .returned up (.error e) blob.version⟩

def commitFailed : Request cfg δ :=
  if commitLostToConcurrentWriter e then .lost up reading e
  else .returned up (.error e) blob.version

variable (fate : Fate)

def commitStreamBlocks : Statement cfg δ :=
  match fate, reading.blockIds.mapM blob.block with
  | .answered _, some blocks => replace sha256 blob up reading blocks.flatten
  | .answered body, none =>
    proceed (commitFailed blob up reading (.storage ("Azure Put Block List for '" ++ cfg.key ++
      "' failed with status 400 Bad Request: " ++ body)))
  | .lost true e, some blocks => ⟨[], .replace blocks.flatten, commitFailed blob up reading e⟩
  | .lost _ e, _ => proceed (commitFailed blob up reading e)

def putEmpty : Statement cfg δ :=
  match fate with
  | .answered _ => replace sha256 blob up reading []
  | .lost arrived e =>
    ⟨[], if arrived then .replace [] else .none, .returned up (.error e) blob.version⟩

def size : Statement cfg δ :=
  match fate, blob.content with
  | .answered _, some content =>
    if content.length = reading.total then proceed (.sized up reading e) else fail blob up e
  | _, _ => fail blob up e

/-- The blob is read as it is at one moment; the fallback key is read if there is no blob. -/
def compare (fallback : Option Bytes) (reply : Except AppError Body) : Option (Statement cfg δ) :=
  match reply, blob.content.or fallback with
  | .ok body, some object =>
    if Reads body object then
      match readBack body [] 0 with
      | some (hasher, read) =>
        if read = reading.total ∧ sha256 hasher = sha256 reading.hasher then
          some (proceed (.returned up (.ok (written sha256 reading)) blob.version))
        else some (fail blob up e)
      | none => some (fail blob up e)
    else none
  | _, _ => some (fail blob up e)

def code (q : Request cfg δ) (a : Action) : Option (Statement cfg δ) :=
  match a, q with
  | .discard ids, q => some ⟨[], .discard ids, q⟩
  | .start nonce stream, .idle =>
    some ⟨[], .start nonce stream,
      .reading ⟨nonce, stream, blob.version⟩ (Reading.start cfg) stream⟩
  | .pull, .reading up reading rest => some (pullNext blob up reading rest)
  | .putBlock fate, .block up content reading rest =>
    some (putStreamBlock blob up content reading rest fate)
  | .commit fate, .staged up reading =>
    if reading.blockIds = [] then some (putEmpty sha256 blob up reading fate)
    else some (commitStreamBlocks sha256 blob up reading fate)
  | .head fate, .lost up reading e => some (size blob up reading e fate)
  | .get fallback reply, .sized up reading e => compare sha256 blob up reading e fallback reply
  | .drop, .reading .. | .drop, .block .. | .drop, .staged .. | .drop, .lost .. | .drop, .sized .. =>
    some (proceed .dropped)
  | _, _ => none

def service (cfg : Config) : Protocol Blob (Request cfg δ) ℕ Action Effect where
  holds _ := []
  apply := Effect.apply
  code := code sha256

end

open Blocks StepSystem Option

section

variable {cfg} {δ : Type*} {sha256 : Bytes → δ} {blob : Blob} (up : Upload)
  (reading : Reading cfg) (rest : Body) {initial : Option Bytes} {effect : Effect}

/-! ### Reading the stream -/

structure Progress (count : ℕ) : Prop where
  whole : reading.hasher ++ delivered rest = delivered up.stream
  ends : failure rest = failure up.stream
  total : reading.total = reading.hasher.length
  left : reading.hasher.drop (count * cfg.blockChunkSize) = reading.buffer ++ reading.chunk
  inside : count * cfg.blockChunkSize ≤ reading.hasher.length ∨ rest = []

variable {up reading rest} {count : ℕ}

section

variable (progress : Progress up reading rest count)
include progress

theorem Progress.slice_eq
    (enough : cfg.blockChunkSize ≤ (reading.buffer ++ reading.chunk).length ∨ rest = []) :
    slice cfg.blockChunkSize (delivered up.stream) count =
      (reading.buffer ++ reading.chunk).take cfg.blockChunkSize := by
  have positive := cfg.positive
  unfold Blocks.slice
  rw [← progress.whole]
  rcases enough with enough | rfl
  · have before : count * cfg.blockChunkSize ≤ reading.hasher.length := by
      rcases progress.inside with inside | rfl
      · exact inside
      · by_contra beyond
        have none : reading.hasher.drop (count * cfg.blockChunkSize) = [] :=
          drop_eq_nil_iff.2 (by omega)
        rw [← progress.left, none, length_nil] at enough
        omega
    rw [drop_append_of_le_length before, progress.left, take_append_of_le_length enough]
  · rw [delivered_nil, append_nil, progress.left]

theorem Progress.block {take : ℕ}
    (taken : take = min (cfg.blockChunkSize - reading.buffer.length) reading.chunk.length)
    (full : (reading.buffer ++ reading.chunk.take take).length = cfg.blockChunkSize) :
    reading.buffer ++ reading.chunk.take take =
        slice cfg.blockChunkSize (delivered up.stream) count ∧
      Progress up { reading with
        buffer := [], short := cfg.positive, chunk := reading.chunk.drop take } rest (count + 1) := by
  have length : reading.buffer.length + take = cfg.blockChunkSize := by
    rw [length_append, length_take] at full
    omega
  have enough : cfg.blockChunkSize ≤ (reading.buffer ++ reading.chunk).length := by
    rw [length_append]
    omega
  refine ⟨?_, progress.whole, progress.ends, progress.total, ?_, ?_⟩
  · rw [progress.slice_eq (.inl enough), ← length, take_length_add_append]
  · rw [Nat.succ_mul, ← drop_drop, progress.left, ← length, drop_length_add_append]
    rfl
  · left
    have cut := congrArg List.length progress.left
    rw [length_drop] at cut
    have positive := cfg.positive
    show (count + 1) * cfg.blockChunkSize ≤ reading.hasher.length
    rw [Nat.succ_mul]
    omega

theorem Progress.used {take : ℕ}
    (taken : take = min (cfg.blockChunkSize - reading.buffer.length) reading.chunk.length)
    (more : (reading.buffer ++ reading.chunk.take take).length ≠ cfg.blockChunkSize) :
    reading.hasher.drop (count * cfg.blockChunkSize) =
      reading.buffer ++ reading.chunk.take take := by
  have short := reading.short
  have all : reading.chunk.take take = reading.chunk := by
    rw [length_append, length_take] at more
    exact take_of_length_le (by omega)
  rw [progress.left, all]

theorem pull_spec :
    match pull cfg rest reading with
    | .block content reading' rest' =>
      content = slice cfg.blockChunkSize (delivered up.stream) count ∧
        reading'.blockIds = reading.blockIds ∧ Progress up reading' rest' (count + 1)
    | .ended reading' => failure up.stream = none ∧ reading'.blockIds = reading.blockIds ∧
        reading'.hasher = delivered up.stream ∧ reading'.total = (delivered up.stream).length ∧
        (delivered up.stream).length ≤ count * cfg.blockChunkSize
    | .failed _ => True := by
  fun_induction pull cfg rest reading with
  | case1 _ _ _ _ full =>
    obtain ⟨content, next⟩ := progress.block rfl full
    exact ⟨content, rfl, next⟩
  | case2 reading _ buffer more _ nothing =>
    have whole : reading.hasher = delivered up.stream := by
      rw [← progress.whole, delivered_nil, append_nil]
    have left := progress.used rfl more
    rw [show reading.buffer ++ _ = _ from nothing, drop_eq_nil_iff, whole] at left
    exact ⟨progress.ends.symm, rfl, whole, whole ▸ progress.total, left⟩
  | case3 reading _ buffer more short _ =>
    have left := progress.used rfl more
    have last : reading.buffer ++ reading.chunk = buffer := progress.left.symm.trans left
    refine ⟨?_, rfl, progress.whole, progress.ends, progress.total, ?_, .inr rfl⟩
    · rw [progress.slice_eq (.inr rfl), last, take_of_length_le short.le]
    · show reading.hasher.drop ((count + 1) * cfg.blockChunkSize) = []
      rw [Nat.succ_mul, ← drop_drop, left, drop_of_length_le short.le]
  | case4 => trivial
  | case5 _ _ _ more _ _ ih =>
    refine ih ⟨progress.whole, progress.ends, progress.total, ?_, ?_⟩
    · rw [append_nil]
      exact progress.used rfl more
    · exact .inl (progress.inside.resolve_right (cons_ne_nil _ _))
  | case6 reading _ buffer more _ chunk _ _ ih =>
    have inside := progress.inside.resolve_right (cons_ne_nil _ _)
    refine ih ⟨?_, progress.ends, ?_, ?_, .inl ?_⟩
    · rw [append_assoc]
      exact progress.whole
    · show reading.total + chunk.length = (reading.hasher ++ chunk).length
      rw [progress.total, length_append]
    · show (reading.hasher ++ chunk).drop (count * cfg.blockChunkSize) = buffer ++ chunk
      rw [drop_append_of_le_length inside, progress.used rfl more]
    · show count * cfg.blockChunkSize ≤ (reading.hasher ++ chunk).length
      rw [length_append]
      omega

end

/-! ### The blob -/

/-- The content is that of no upload, or of a complete one. -/
def Genuine (initial : Option Bytes) (calls : List (Nonce × Body)) (content : Option Bytes) : Prop :=
  content = initial ∨ ∃ call ∈ calls, failure call.2 = none ∧ content = some (delivered call.2)

structure Sound (cfg : Config) (initial : Option Bytes) (blob : Blob) : Prop where
  drawn : ∀ call ∈ blob.calls, call.1 ∈ blob.nonces
  single : ∀ call ∈ blob.calls, ∀ call' ∈ blob.calls, call.1 = call'.1 → call = call'
  known : ∀ block ∈ blob.staged, ∃ nonce ∈ blob.nonces, ∃ index, block.1 = blockId nonce index
  blocks : ∀ call ∈ blob.calls, ∀ index content, (blockId call.1 index, content) ∈ blob.staged →
    content = slice cfg.blockChunkSize (delivered call.2) index
  genuine : ∀ content ∈ blob.contents, Genuine initial blob.calls content

/-- What the effects of a call need. -/
def Justified (cfg : Config) (blob : Blob) : Effect → Prop
  | .none | .discard _ => True
  | .start nonce _ => nonce ∉ blob.nonces
  | .stage id content => ∃ call ∈ blob.calls, ∃ index,
      id = blockId call.1 index ∧ content = slice cfg.blockChunkSize (delivered call.2) index
  | .replace content => ∃ call ∈ blob.calls, failure call.2 = none ∧ content = delivered call.2

theorem Sound.apply (sound : Sound cfg initial blob) (justified : Justified cfg blob effect) :
    Sound cfg initial (effect.apply blob) := by
  cases effect with
  | none => exact sound
  | discard =>
    exact ⟨sound.drawn, sound.single,
      fun block among => sound.known block (mem_of_mem_filter among),
      fun call among index content staged =>
        sound.blocks call among index content (mem_of_mem_filter staged), sound.genuine⟩
  | start nonce =>
    have fresh : nonce ∉ blob.nonces := justified
    have other : ∀ call ∈ blob.calls, call.1 ≠ nonce := fun call among same =>
      fresh (same ▸ sound.drawn call among)
    refine ⟨?_, ?_, ?_, ?_, ?_⟩
    · intro call among
      rcases mem_cons.1 among with rfl | among
      · exact mem_cons_self
      · exact mem_cons_of_mem _ (sound.drawn call among)
    · intro call among call' among' same
      rcases mem_cons.1 among with rfl | among <;>
        rcases mem_cons.1 among' with rfl | among'
      · rfl
      · exact absurd same.symm (other call' among')
      · exact absurd same (other call among)
      · exact sound.single call among call' among' same
    · intro block among
      obtain ⟨known, drawn, index, same⟩ := sound.known block among
      exact ⟨known, mem_cons_of_mem _ drawn, index, same⟩
    · intro call among index content staged
      rcases mem_cons.1 among with rfl | among
      · -- no block of a fresh nonce is staged
        obtain ⟨known, drawn, index', same⟩ := sound.known _ staged
        have earlier : nonce = known := (blockId_inj.1 same).1
        exact absurd (earlier ▸ drawn) fresh
      · exact sound.blocks call among index content staged
    · intro content among
      refine (sound.genuine content among).imp_right ?_
      rintro ⟨call, known, whole⟩
      exact ⟨call, mem_cons_of_mem _ known, whole⟩
  | stage id content =>
    obtain ⟨call, among, index, rfl, rfl⟩ := justified
    refine ⟨sound.drawn, sound.single, ?_, ?_, sound.genuine⟩
    · intro block staged
      rcases mem_cons.1 staged with rfl | staged
      · exact ⟨call.1, sound.drawn call among, index, rfl⟩
      · exact sound.known block staged
    · intro call' among' index' content staged
      rcases mem_cons.1 staged with same | staged
      · obtain ⟨id, rfl⟩ := Prod.mk.inj same
        obtain ⟨nonce, rfl⟩ := blockId_inj.1 id
        rw [sound.single call' among' call among nonce]
      · exact sound.blocks call' among' index' content staged
  | replace content =>
    obtain ⟨call, among, ends, rfl⟩ := justified
    refine ⟨sound.drawn, sound.single, nofun, nofun, ?_⟩
    intro content stored
    rcases mem_append.1 stored with past | now
    · exact sound.genuine content past
    · exact .inr ⟨call, among, ends, mem_singleton.1 now⟩

/-! ### Calls -/

variable (sha256 blob up reading)

structure Known : Prop where
  call : (up.nonce, up.stream) ∈ blob.calls
  since : up.since ≤ blob.version

/-- The ids of the blocks that were staged. -/
def Named : Prop :=
  reading.blockIds = (range reading.blockIds.length).map (blockId up.nonce)

structure Complete : Prop where
  ends : failure up.stream = none
  hasher : reading.hasher = delivered up.stream
  total : reading.total = (delivered up.stream).length
  named : Named up reading
  covered : (delivered up.stream).length ≤ reading.blockIds.length * cfg.blockChunkSize

/-- The blob was the stream at some moment between the start of the call and the version. -/
def Stored (version : ℕ) : Prop :=
  ∃ moment, up.since ≤ moment ∧ moment ≤ version ∧
    blob.contents[moment]? = some (some (delivered up.stream))

/-- What is known of a call at each point. -/
def Assertion : Request cfg δ → Prop
  | .idle | .dropped | .returned _ (.error _) _ => True
  | .reading up reading rest =>
    Known blob up ∧ Named up reading ∧ Progress up reading rest reading.blockIds.length
  | .block up content reading rest =>
    Known blob up ∧ Named up reading ∧ Progress up reading rest (reading.blockIds.length + 1) ∧
      content = slice cfg.blockChunkSize (delivered up.stream) reading.blockIds.length
  | .staged up reading | .lost up reading _ => Known blob up ∧ Complete up reading
  | .sized up reading _ => Known blob up ∧ Complete up reading ∧ blob.content.isSome = true
  | .returned up (.ok written) version =>
    failure up.stream = none ∧
      written = ⟨sha256 (delivered up.stream), (delivered up.stream).length⟩ ∧
      Stored blob up version

variable {sha256 blob up reading}

theorem Known.apply (known : Known blob up) : Known (effect.apply blob) up := by
  obtain ⟨call, since⟩ := known
  cases effect with
  | start => exact ⟨mem_cons_of_mem _ call, since⟩
  | replace =>
    refine ⟨call, since.trans ?_⟩
    show blob.past.length ≤ (blob.past ++ [blob.content]).length
    rw [length_append]
    exact Nat.le_add_right ..
  | _ => exact ⟨call, since⟩

theorem contents_apply (effect : Effect) (blob : Blob) :
    blob.contents <+: (effect.apply blob).contents := by
  cases effect with
  | replace => exact prefix_append ..
  | _ => exact prefix_rfl

theorem Assertion.apply {q : Request cfg δ} (holds : Assertion sha256 blob q) :
    Assertion sha256 (effect.apply blob) q := by
  cases q with
  | idle | dropped => trivial
  | reading | block | staged =>
    exact ⟨holds.1.apply, holds.2⟩
  | lost => exact ⟨holds.1.apply, holds.2⟩
  | sized =>
    obtain ⟨known, complete, stored⟩ := holds
    refine ⟨known.apply, complete, ?_⟩
    cases effect with
    | replace => rfl
    | _ => exact stored
  | returned _ result =>
    cases result with
    | error e => trivial
    | ok _ =>
      obtain ⟨ends, same, moment, since, before, content⟩ := holds
      obtain ⟨_, later⟩ := contents_apply effect blob
      have inside := (List.getElem?_eq_some_iff.1 content).1
      refine ⟨ends, same, moment, since, before, ?_⟩
      rw [← later, getElem?_append_left inside, content]

/-! ### Steps -/

theorem eq_map_of_mapM {α β : Type*} {find : α → Option β} {g : α → β} {items : List α}
    {results : List β} (only : ∀ item result, find item = some result → result = g item)
    (found : items.mapM find = some results) : results = items.map g := by
  induction items generalizing results with
  | nil => simpa using found.symm
  | cons item _ ih =>
    rw [mapM_cons] at found
    obtain ⟨first, here, found⟩ := bind_eq_some_iff.1 found
    obtain ⟨_, there, found⟩ := bind_eq_some_iff.1 found
    rw [← some.inj found, only item first here, ih there, map_cons]

theorem Complete.flatten_eq {blocks : List Bytes} (complete : Complete up reading)
    (sound : Sound cfg initial blob) (known : Known blob up)
    (found : reading.blockIds.mapM blob.block = some blocks) :
    blocks.flatten = delivered up.stream := by
  have each : ∀ index content, (blob.block ∘ blockId up.nonce) index = some content →
      content = slice cfg.blockChunkSize (delivered up.stream) index := by
    intro index _ block
    obtain ⟨entry, first, rfl⟩ := map_eq_some_iff.1 block
    have id : entry.1 = blockId up.nonce index := by simpa using find?_some first
    exact sound.blocks _ known.call index entry.2 (id ▸ mem_of_find?_eq_some first)
  rw [complete.named, mapM_map] at found
  have slices := eq_map_of_mapM each found
  rw [slices, flatten_slices, take_of_length_le complete.covered]

theorem readBack_eq (body : Body) (hasher : Bytes) (read : ℕ) :
    readBack body hasher read =
      if failure body = none then some (hasher ++ delivered body, read + (delivered body).length)
      else none := by
  induction body generalizing hasher read with
  | nil => simp [readBack]
  | cons item _ ih =>
    cases item with
    | error e => simp [readBack]
    | ok _ => simp [readBack, ih, Nat.add_assoc]

/-- A statement of a call is justified and leads to what is asserted after it. -/
def Fine (sha256 : Bytes → δ) (blob : Blob) (st : Statement cfg δ) : Prop :=
  Justified cfg blob st.effect ∧ Assertion sha256 (st.effect.apply blob) st.next

variable {e}

theorem fine_fail : Fine sha256 blob (fail blob up e : Statement cfg δ) :=
  ⟨trivial, trivial⟩

theorem Complete.written_eq (complete : Complete up reading) :
    written sha256 reading = ⟨sha256 (delivered up.stream), (delivered up.stream).length⟩ := by
  rw [written, complete.hasher, complete.total]

theorem commitFailed_assertion (known : Known blob up) (complete : Complete up reading)
    (before : Blob) :
    Assertion sha256 blob (commitFailed before up reading e : Request cfg δ) := by
  unfold commitFailed
  split_ifs
  · exact ⟨known, complete⟩
  · trivial

section

variable (known : Known blob up)
include known

theorem replace_fine {content : Bytes} (complete : Complete up reading)
    (whole : content = delivered up.stream) :
    Fine sha256 blob (replace sha256 blob up reading content) := by
  subst whole
  refine ⟨⟨_, known.call, complete.ends, rfl⟩, complete.ends, complete.written_eq,
    blob.version + 1, known.since.trans (Nat.le_succ _), le_rfl, ?_⟩
  have length : blob.version + 1 = (blob.past ++ [blob.content]).length := by
    rw [length_append]
    rfl
  show ((blob.past ++ [blob.content]) ++ [some (delivered up.stream)])[blob.version + 1]? = _
  rw [length, getElem?_concat_length]

theorem pullNext_fine (named : Named up reading)
    (progress : Progress up reading rest reading.blockIds.length) :
    Fine sha256 blob (pullNext blob up reading rest : Statement cfg δ) := by
  have spec := pull_spec progress
  unfold pullNext
  cases pulled : pull cfg rest reading with
  | block content =>
    rw [pulled] at spec
    obtain ⟨content, ids, progress⟩ := spec
    refine ⟨trivial, known, ?_⟩
    unfold Named
    rw [ids]
    exact ⟨named, progress, content⟩
  | ended =>
    rw [pulled] at spec
    obtain ⟨ends, ids, hasher, total, covered⟩ := spec
    refine ⟨trivial, known, ends, hasher, total, ?_, ids ▸ covered⟩
    unfold Named
    rw [ids]
    exact named
  | failed => exact fine_fail

variable {fate}

theorem putStreamBlock_fine {content : Bytes} (named : Named up reading)
    (progress : Progress up reading rest (reading.blockIds.length + 1))
    (next : content = slice cfg.blockChunkSize (delivered up.stream) reading.blockIds.length) :
    Fine sha256 blob (putStreamBlock blob up content reading rest fate : Statement cfg δ) := by
  have justified : Justified cfg blob (.stage (blockId up.nonce reading.blockIds.length) content) :=
    ⟨_, known.call, _, rfl, next⟩
  unfold putStreamBlock
  split_ifs
  · exact fine_fail
  · cases fate with
    | answered =>
      refine ⟨justified, known.apply, ?_, ?_⟩
      · unfold Named at named ⊢
        simp only [length_append, length_singleton, range_succ, map_append, map_singleton]
        rw [← named]
      · rw [length_append]
        exact ⟨progress.whole, progress.ends, progress.total, progress.left, progress.inside⟩
    | lost arrived =>
      cases arrived with
      | true => exact ⟨justified, trivial⟩
      | false => exact ⟨trivial, trivial⟩

variable (complete : Complete up reading)
include complete

theorem commitStreamBlocks_fine (sound : Sound cfg initial blob) :
    Fine sha256 blob (commitStreamBlocks sha256 blob up reading fate) := by
  unfold commitStreamBlocks
  split
  · next _ found => exact replace_fine known complete (complete.flatten_eq sound known found)
  · exact ⟨trivial, commitFailed_assertion known complete _⟩
  · next _ e found =>
    refine ⟨⟨_, known.call, complete.ends, complete.flatten_eq sound known found⟩, ?_⟩
    exact commitFailed_assertion known.apply complete _
  · exact ⟨trivial, commitFailed_assertion known complete _⟩

theorem putEmpty_fine (empty : reading.blockIds = []) :
    Fine sha256 blob (putEmpty sha256 blob up reading fate) := by
  have whole : [] = delivered up.stream := by
    have covered := complete.covered
    rw [empty, length_nil, Nat.zero_mul, Nat.le_zero, length_eq_zero_iff] at covered
    exact covered.symm
  unfold putEmpty
  cases fate with
  | answered => exact replace_fine known complete whole
  | lost arrived =>
    cases arrived with
    | true => exact ⟨⟨_, known.call, complete.ends, whole⟩, trivial⟩
    | false => exact ⟨trivial, trivial⟩

theorem size_fine : Fine sha256 blob (size blob up reading e fate : Statement cfg δ) := by
  unfold size
  split
  · next content stored =>
    have present : blob.content.isSome = true := by
      rw [stored]
      rfl
    split_ifs
    · exact ⟨trivial, known, complete, present⟩
    · exact fine_fail
  · exact fine_fail

variable [DecidableEq δ]

theorem compare_fine {fallback : Option Bytes} {reply : Except AppError Body} {st : Statement cfg δ}
    (identifies : Function.Injective sha256) (stored : blob.content.isSome = true)
    (done : compare sha256 blob up reading e fallback reply = some st) : Fine sha256 blob st := by
  obtain ⟨content, here⟩ := isSome_iff_exists.1 stored
  unfold compare at done
  split at done
  · next _ object found =>
    have same : content = object := by
      rw [here, some_or] at found
      exact some.inj found
    split_ifs at done with reads
    rw [readBack_eq] at done
    split_ifs at done with ends
    · simp only at done
      split_ifs at done with digest
      · obtain rfl := some.inj done
        have whole : content = delivered up.stream := by
          rw [same, ← reads.whole ends, ← complete.hasher]
          exact identifies digest.2
        refine ⟨trivial, complete.ends, complete.written_eq, blob.version, known.since, le_rfl, ?_⟩
        show (blob.past ++ [blob.content])[blob.past.length]? = _
        rw [getElem?_concat_length, here, whole]
      · obtain rfl := some.inj done
        exact fine_fail
    · obtain rfl := some.inj done
      exact fine_fail
  · obtain rfl := some.inj done
    exact fine_fail

end

theorem code_fine [DecidableEq δ] {q : Request cfg δ} {a : Action} {st : Statement cfg δ}
    (identifies : Function.Injective sha256) (sound : Sound cfg initial blob)
    (holds : Assertion sha256 blob q)
    (fresh : ∀ nonce stream, a = .start nonce stream → nonce ∉ blob.nonces)
    (coded : code sha256 blob q a = some st) : Fine sha256 blob st := by
  unfold code at coded
  split at coded
  · obtain rfl := some.inj coded
    exact ⟨trivial, holds.apply⟩
  · next nonce stream =>
    obtain rfl := some.inj coded
    refine ⟨fresh nonce stream rfl, ⟨mem_cons_self, le_rfl⟩, rfl, rfl, rfl, rfl, ?_, .inl ?_⟩
    · exact drop_nil
    · exact (Nat.zero_mul _).le
  · obtain rfl := some.inj coded
    exact pullNext_fine holds.1 holds.2.1 holds.2.2
  · obtain rfl := some.inj coded
    exact putStreamBlock_fine holds.1 holds.2.1 holds.2.2.1 holds.2.2.2
  · split_ifs at coded with empty
    · obtain rfl := some.inj coded
      exact putEmpty_fine holds.1 holds.2 empty
    · obtain rfl := some.inj coded
      exact commitStreamBlocks_fine holds.1 holds.2 sound
  · obtain rfl := some.inj coded
    exact size_fine holds.1 holds.2
  · exact compare_fine holds.1 holds.2.1 identifies holds.2.2 coded
  -- dropped calls
  all_goals cases coded <;> exact ⟨trivial, trivial⟩

end

/-! ### Runs -/

/-- A blob with any content; its staged blocks are those of earlier uploads. -/
structure Boot (δ : Type*) (initial : Option Bytes) (w : World Blob (Request cfg δ) ℕ) : Prop where
  content : w.store.content = initial
  past : w.store.past = []
  calls : w.store.calls = []
  staged : ∀ block ∈ w.store.staged, ∃ nonce ∈ w.store.nonces, ∃ index, block.1 = blockId nonce index
  pool : w.pool = Pool.idle .idle

variable {cfg} {δ : Type*} (w : World Blob (Request cfg δ) ℕ) (e : ℕ × Action)

/-- No nonce is drawn twice. -/
def FreshNonces : Prop :=
  ∀ nonce stream, e.2 = .start nonce stream → nonce ∉ w.store.nonces

/-- The content is at all times the initial one or the whole stream of a call.  A call that returns
success reports the length and the digest of its stream, and the blob was its stream at some moment
from the start of the call to its return. -/
theorem uploads_never_mix {δ : Type*} [DecidableEq δ] (cfg : Config) (sha256 : Bytes → δ)
    (identifies : Function.Injective sha256) (initial : Option Bytes)
    {w}
    (reached : Reach (service sha256 cfg).step (Boot cfg δ initial) FreshNonces w) :
    (w.store.content = initial ∨ ∃ call ∈ w.store.calls,
      failure call.2 = none ∧ w.store.content = some (delivered call.2)) ∧
    ∀ i up written version, w.pool.proc i = .returned up (.ok written) version →
      failure up.stream = none ∧
      written = ⟨sha256 (delivered up.stream), (delivered up.stream).length⟩ ∧
      ∃ moment, up.since ≤ moment ∧ moment ≤ version ∧
        w.store.contents[moment]? = some (some (delivered up.stream)) := by
  have holds : (service sha256 cfg).Holds (Sound cfg initial) (Assertion sha256) w := by
    refine Protocol.invariant ?own ?others ?base reached
    case own =>
      intro w e o before fresh coded
      have fine := code_fine identifies before.store (before.procs e.1) fresh coded
      exact ⟨before.store.apply fine.1, fine.2⟩
    case others =>
      intro w e o j before _ _ _ _
      exact (before.procs j).apply
    case base =>
      intro w boot
      obtain ⟨content, past, calls, staged, pool⟩ := boot
      refine .of_idle pool rfl ⟨?_, ?_, staged, ?_, ?_⟩ trivial
      · simp [calls]
      · simp [calls]
      · simp [calls]
      · simp [Blob.contents, past, content, Genuine]
  refine ⟨holds.store.genuine _ (mem_append_right _ mem_cons_self), ?_⟩
  intro i _ _ _ returned
  have known := holds.procs i
  rw [returned] at known
  exact known

def nonceOf (digit : Char) (hex : '0' ≤ digit ∧ digit ≤ '9') : Nonce where
  simple := replicate 32 digit
  length := length_replicate
  hex _ among := .inl (eq_of_mem_replicate among ▸ hex)

/-- Two uploads of the same bytes; the second finds its blocks discarded and reads the blob back. -/
def lostRace : List (ℕ × Action) :=
  [(0, .start (nonceOf '1' (by decide)) [.ok [1], .ok [2, 3]]),
    (1, .start (nonceOf '2' (by decide)) [.ok [1, 2, 3]]),
    (0, .pull), (0, .putBlock (.answered [])), (1, .pull), (1, .putBlock (.answered [])),
    (0, .pull), (0, .putBlock (.answered [])), (1, .pull), (1, .putBlock (.answered [])),
    (0, .pull), (1, .pull), (0, .commit (.answered [])),
    (1, .commit (.answered "InvalidBlockList")), (1, .head (.answered [])),
    (1, .get none (.ok [.ok [1], .ok [2, 3]]))]

def freshNonces : Bool :=
  match e.2 with
  | .start nonce _ => !w.store.nonces.any (· == nonce)
  | _ => true

theorem fresh_of_check (checked : freshNonces w e = true) : FreshNonces w e := by
  intro nonce _ start drawn
  rw [freshNonces, start, Bool.not_eq_true'] at checked
  exact any_eq_false.1 checked nonce drawn (beq_self_eq_true nonce)

def succeeded {cfg : Config} {δ : Type*} (i : ℕ) (w : World Blob (Request cfg δ) ℕ) : Bool :=
  match w.pool.proc i with
  | .returned _ (.ok _) _ => true
  | _ => false

def pairs : Config := ⟨"k", 2, by decide, 10⟩

theorem uploads_never_mix_race :
    ∃ w, Reach (service id pairs).step (Boot pairs Bytes (some [7])) FreshNonces w ∧
      ∃ up written version, w.pool.proc 1 = .returned up (.ok written) version ∧
        ∃ moment, up.since ≤ moment ∧ moment ≤ version ∧
          w.store.contents[moment]? = some (some (delivered up.stream)) := by
  obtain ⟨w, reached, ends⟩ :=
    Reach.exists_of_start (service id pairs).step (Boot pairs Bytes (some [7])) fresh_of_check
      ⟨⟨some [7], [], [], [], []⟩, Pool.idle .idle⟩ ⟨rfl, rfl, rfl, nofun, rfl⟩
      lostRace (fun w => succeeded 1 w = true) (by decide +kernel)
  unfold succeeded at ends
  split at ends
  · next up written version returned =>
    obtain ⟨-, -, stored⟩ :=
      (uploads_never_mix pairs id Function.injective_id (some [7]) reached).2 1 up written version
        returned
    exact ⟨w, reached, up, written, version, returned, stored⟩
  · cases ends

end ArtifactKeeper.Azure
