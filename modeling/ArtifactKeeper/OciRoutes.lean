import ArtifactKeeper.Library.Text

/-!
# Routes of the OCI registry

`parseOciPath` finds the name of a repository and the operation in a path.  The tag list is found by
the end of the path, but manifests and blobs by the first part that is spelled like one, so a path
is read back exactly when no part before the operation is (`Request.routable`).
-/

namespace ArtifactKeeper.OciRoutes

open Text List

def manifests : Text := "manifests"
def blobs : Text := "blobs"
def uploads : Text := "uploads"
def referrers : Text := "referrers"
def tags : Text := "tags"
def list : Text := "list"

/-! ### Parsing -/

def isOperation (part : Text) : Bool := part = manifests || part = blobs

def parseParts (parts : List Text) : Option (Text × Text × Option Text) :=
  let n := parts.length
  if n ≥ 3 ∧ parts[n - 2]? = some referrers ∧ manifests ∉ parts ∧ blobs ∉ parts then
    some (join '/' (parts.take (n - 2)), referrers, parts[n - 1]?)
  else
    (parts.findIdx? isOperation).bind fun i =>
      let name := join '/' (parts.take i)
      (parts[i]?).map fun operation =>
        if operation = blobs ∧ parts[i + 1]? = some uploads then (name, uploads, parts[i + 2]?)
        else (name, operation, parts[i + 1]?)

def parseOciPath (path : Text) : Option (Text × Text × Option Text) :=
  let path := path.dropWhile (· = '/')
  match stripSuffix path ('/' :: tags ++ '/' :: list) with
  | some name => some (name, tags, some list)
  | none => parseParts (path.splitOn '/')

/-! ### Requests -/

/-- Where a component of a name has been read to. -/
inductive Scan
  | separator
  | alphanumeric
  | underscore
  | dashes
  deriving DecidableEq

def isAlphanumeric (c : Char) : Bool := c.isDigit || c.isLower

def Scan.next (s : Scan) (c : Char) : Option Scan :=
  if isAlphanumeric c then some .alphanumeric
  else
    match s, c with
    | .alphanumeric, '.' => some .separator
    | .alphanumeric, '_' => some .underscore
    | .alphanumeric, '-' => some .dashes
    | .underscore, '_' => some .separator
    | .dashes, '-' => some .dashes
    | _, _ => none

def Scan.run : Scan → Text → Option Scan
  | s, [] => some s
  | s, c :: cs => (s.next c).bind fun s' => s'.run cs

/-- Runs of letters and digits with `.`, `_`, `__` or dashes between them. -/
def isNameComponent (part : Text) : Bool := Scan.separator.run part = some .alphanumeric

structure Name where
  components : List Text
  nonempty : components ≠ []
  valid : ∀ part ∈ components, isNameComponent part = true

inductive Route
  | manifests (reference : Text)
  | blobs (digest : Text)
  | uploads (id : Text)
  | tags
  | referrers (digest : Text)

namespace Route

def operation : Route → Text
  | .manifests _ => OciRoutes.manifests
  | .blobs _ => OciRoutes.blobs
  | .uploads _ => OciRoutes.uploads
  | .tags => OciRoutes.tags
  | .referrers _ => OciRoutes.referrers

def argument : Route → Text
  | .manifests reference => reference
  | .blobs digest => digest
  | .uploads id => id
  | .tags => list
  | .referrers digest => digest

def parts : Route → List Text
  | .uploads id => [OciRoutes.blobs, OciRoutes.uploads, id]
  | r => [r.operation, r.argument]

/-- The argument is spelled like no part of another route, as no digest is. -/
def distinct : Route → Bool
  | .blobs digest => digest ≠ OciRoutes.uploads
  | .referrers digest => !isOperation digest
  | _ => true

end Route

structure Request where
  name : Name
  route : Route
  plain : '/' ∉ route.argument

namespace Request

section

variable (r : Request)

def parts : List Text := r.name.components ++ r.route.parts

def path : Text := join '/' r.parts

def answer : Text × Text × Option Text :=
  (join '/' r.name.components, r.route.operation, some r.route.argument)

/-- No component of the name is spelled like an operation. -/
def named : Bool := r.name.components.all fun part => !isOperation part

/-- No part is taken for the operation, or the request is found by its end. -/
def routable : Bool :=
  match r.route with
  | .tags => true
  | route => r.named && route.distinct

end

end Request

/-! ### The parts of a path -/

variable {part : Text} {r : Request}

theorem Scan.slash_notMem_of_run {s s' : Scan} (h : s.run part = some s') : '/' ∉ part := by
  induction part generalizing s with
  | nil => exact not_mem_nil
  | cons c _ ih =>
    obtain ⟨_, first, rest⟩ := Option.bind_eq_some_iff.1 h
    rintro (_ | ⟨_, inner⟩)
    · cases s <;> cases first
    · exact ih rest inner

theorem slash_notMem_of_isNameComponent (h : isNameComponent part = true) : '/' ∉ part :=
  Scan.slash_notMem_of_run (of_decide_eq_true h)

theorem ne_nil_of_isNameComponent (h : isNameComponent part = true) : part ≠ [] := by
  rintro rfl
  exact absurd h (by decide)

theorem Route.slash_notMem_operation (route : Route) : '/' ∉ route.operation := by
  cases route <;> simp only [Route.operation] <;> decide

theorem Request.slash_notMem (r : Request) : ∀ part ∈ r.parts, '/' ∉ part := by
  intro part mem
  rcases mem_append.1 mem with inName | inRoute
  · exact slash_notMem_of_isNameComponent (r.name.valid part inName)
  · have plain := r.plain
    cases route : r.route with
    | uploads =>
      rw [route] at inRoute plain
      simp only [Route.parts, mem_cons, not_mem_nil, or_false] at inRoute
      rcases inRoute with rfl | rfl | rfl
      · decide
      · decide
      · exact plain
    | _ =>
      rw [route] at inRoute plain
      simp only [Route.parts, mem_cons, not_mem_nil, or_false] at inRoute
      rcases inRoute with rfl | rfl
      · exact Route.slash_notMem_operation _
      · exact plain

theorem Request.parts_ne_nil (r : Request) : r.parts ≠ [] := by
  simp [Request.parts, r.name.nonempty]

theorem Request.splitOn_path (r : Request) : r.path.splitOn '/' = r.parts :=
  splitOn_join r.parts_ne_nil r.slash_notMem

theorem Request.dropWhile_path (r : Request) : r.path.dropWhile (· = '/') = r.path := by
  obtain ⟨first, rest, components⟩ := exists_cons_of_ne_nil r.name.nonempty
  have valid := r.name.valid first (by simp [components])
  obtain ⟨c, _, rfl⟩ := exists_cons_of_ne_nil (ne_nil_of_isNameComponent valid)
  have other : c ≠ '/' := by
    rintro rfl
    exact slash_notMem_of_isNameComponent valid mem_cons_self
  obtain ⟨tail, starts⟩ : ∃ tail, r.path = c :: tail := by
    simp only [Request.path, Request.parts, components, join]
    cases rest ++ r.route.parts <;> simp
  rw [starts, dropWhile_cons, if_neg (by simpa using other)]

theorem join_name_ne_nil (name : Name) : join '/' name.components ≠ [] := by
  obtain ⟨first, rest, components⟩ := exists_cons_of_ne_nil name.nonempty
  have valid := name.valid first (by simp [components])
  rw [components, join]
  cases rest <;> simp [ne_nil_of_isNameComponent valid]

theorem join_take_ne (name : Name) {i : ℕ} (short : i < name.components.length) :
    join '/' (name.components.take i) ≠ join '/' name.components := by
  intro same
  cases i with
  | zero => exact join_name_ne_nil name (by simpa [join] using same.symm)
  | succ i =>
    have front : name.components.take (i + 1) ≠ [] := by
      simp [name.nonempty]
    have back : name.components.drop (i + 1) ≠ [] := by
      simpa [drop_eq_nil_iff] using short
    rw [← take_append_drop (i + 1) name.components, join_append '/' front back,
      take_append_drop] at same
    have lengths := congrArg length same
    simp at lengths

/-! ### The operation of a path -/

variable {front rest : List Text} {op : Text}

theorem findIdx?_isOperation (free : ∀ part ∈ front, isOperation part = false)
    (found : isOperation op = true) :
    (front ++ op :: rest).findIdx? isOperation = some front.length := by
  induction front with
  | nil => simp [findIdx?_cons, found]
  | cons part _ ih =>
    rw [cons_append, findIdx?_cons, free part (by simp),
      ih fun other mem => free other (by simp [mem])]
    simp

theorem findIdx?_isOperation_lt (mem : part ∈ front) (found : isOperation part = true) :
    ∃ i < front.length, (front ++ rest).findIdx? isOperation = some i := by
  induction front with
  | nil => cases mem
  | cons first _ ih =>
    rw [cons_append, findIdx?_cons]
    cases here : isOperation first with
    | true => exact ⟨0, by simp, by simp⟩
    | false =>
      rcases mem_cons.1 mem with rfl | later
      · rw [found] at here; cases here
      · obtain ⟨i, short, at_i⟩ := ih later
        exact ⟨i + 1, by simpa using short, by simp [at_i]⟩

theorem Request.exists_parts_eq (r : Request) :
    ∃ front, r.parts = front ++ [r.route.operation, r.route.argument] := by
  unfold Request.parts
  cases r.route with
  | uploads =>
    exact ⟨r.name.components ++ [blobs], by simp [Route.parts, Route.operation, Route.argument]⟩
  | _ => exact ⟨r.name.components, rfl⟩

theorem Request.parse_tags (route : r.route = .tags) : parseOciPath r.path = some r.answer := by
  have ends : r.path = join '/' r.name.components ++ ('/' :: tags ++ '/' :: list) := by
    rw [Request.path, Request.parts, join_append '/' r.name.nonempty (by simp [route, Route.parts]),
      route]
    rfl
  simp only [parseOciPath]
  rw [r.dropWhile_path, stripSuffix_eq_some.2 ends]
  simp only [Request.answer, route, Route.operation, Route.argument]

theorem Request.parse_parts (route : r.route ≠ .tags) :
    parseOciPath r.path = parseParts r.parts := by
  simp only [parseOciPath]
  rw [r.dropWhile_path, r.splitOn_path]
  cases stripped : stripSuffix r.path ('/' :: tags ++ '/' :: list) with
  | none => rfl
  | some _ =>
    obtain ⟨_, parts⟩ := r.exists_parts_eq
    have split := r.splitOn_path
    rw [stripSuffix_eq_some.1 stripped, cons_append, splitOn_append_cons, splitOn_append_cons,
      parts] at split
    have last := (append_inj_right' split rfl : tags.splitOn '/' ++ list.splitOn '/' = _)
    have operation : r.route.operation = tags := by
      have : [tags, list] = [r.route.operation, r.route.argument] := last
      exact (cons.inj this).1.symm
    cases known : r.route with
    | tags => exact absurd known route
    | _ => rw [known] at operation; exact absurd operation (by simp only [Route.operation]; decide)

theorem not_absent {parts : List Text} (found : isOperation part = true) (mem : part ∈ parts) :
    ¬(manifests ∉ parts ∧ blobs ∉ parts) := by
  rintro ⟨first, second⟩
  simp only [isOperation, Bool.or_eq_true, decide_eq_true_eq] at found
  rcases found with rfl | rfl
  · exact first mem
  · exact second mem

theorem Request.parseParts_ne (mem : part ∈ r.name.components)
    (found : isOperation part = true) : parseParts r.parts ≠ some r.answer := by
  have inParts : part ∈ r.parts := mem_append_left _ mem
  obtain ⟨i, short, at_i⟩ : ∃ i < r.name.components.length,
      (r.name.components ++ r.route.parts).findIdx? isOperation = some i :=
    findIdx?_isOperation_lt mem found
  have blocked := not_absent found inParts
  intro parsed
  simp only [parseParts] at parsed
  rw [if_neg fun all => blocked all.2.2, Request.parts, at_i, Option.bind_some] at parsed
  obtain ⟨_, _, result⟩ := Option.map_eq_some_iff.1 parsed
  have name :
      join '/' ((r.name.components ++ r.route.parts).take i) = join '/' r.name.components := by
    split_ifs at result <;> exact congrArg Prod.fst result
  rw [take_append_of_le_length (Nat.le_of_lt short)] at name
  exact join_take_ne r.name short name

theorem parseParts_name {name : List Text} (free : ∀ part ∈ name, isOperation part = false)
    (found : isOperation op = true) (arguments : List Text)
    (other : (name ++ op :: arguments)[(name ++ op :: arguments).length - 2]? ≠ some referrers) :
    parseParts (name ++ op :: arguments) =
      some (if op = blobs ∧ arguments[0]? = some uploads
        then (join '/' name, uploads, arguments[1]?) else (join '/' name, op, arguments[0]?)) := by
  simp only [parseParts]
  rw [if_neg fun all => other all.2.1, findIdx?_isOperation free found]
  simp [getElem?_append_right]

theorem parseParts_referrers {name : List Text} (nonempty : name ≠ [])
    (free : ∀ part ∈ name, isOperation part = false) (digest : Text) :
    parseParts (name ++ [referrers, digest]) = some (join '/' name, referrers, some digest) ↔
      isOperation digest = false := by
  cases found : isOperation digest with
  | false =>
    have absent : ∀ op, isOperation op = true → op ∉ name ++ [referrers, digest] := by
      intro op isOp mem
      rcases mem_append.1 mem with inName | inRoute
      · rw [free op inName] at isOp; cases isOp
      · simp only [mem_cons, not_mem_nil, or_false] at inRoute
        rcases inRoute with rfl | rfl
        · exact absurd isOp (by decide)
        · rw [found] at isOp; cases isOp
    have long : 0 < name.length := length_pos_iff.2 nonempty
    simp only [parseParts]
    rw [if_pos ⟨by simp; omega, by simp, absent _ (by decide), absent _ (by decide)⟩]
    simp
  | true =>
    have present := not_absent found (show digest ∈ name ++ [referrers, digest] by simp)
    have shift : name ++ [referrers, digest] = (name ++ [referrers]) ++ digest :: [] := by simp
    have free' : ∀ part ∈ name ++ [referrers], isOperation part = false := by
      intro part mem
      rcases mem_append.1 mem with inName | last
      · exact free part inName
      · rw [mem_singleton.1 last]; decide
    simp only [parseParts]
    rw [if_neg fun all => present all.2.2, shift, findIdx?_isOperation free' found]
    simp only [isOperation, Bool.or_eq_true, decide_eq_true_eq] at found
    rcases found with rfl | rfl <;> simp

/-! ### Round trips -/

theorem Request.routable_iff (route : r.route ≠ .tags) :
    r.routable = true ↔ r.named = true ∧ r.route.distinct = true := by
  unfold Request.routable
  split
  · exact absurd (by assumption) route
  · simp

theorem parse_path_iff (r : Request) : parseOciPath r.path = some r.answer ↔ r.routable = true := by
  by_cases listing : r.route = .tags
  · simp [Request.parse_tags listing, Request.routable, listing]
  rw [Request.parse_parts listing, Request.routable_iff listing]
  cases named : r.named with
  | false =>
    obtain ⟨part, mem, found⟩ : ∃ part ∈ r.name.components, isOperation part = true := by
      simpa [Request.named] using named
    simpa using Request.parseParts_ne mem found
  | true =>
    have free : ∀ part ∈ r.name.components, isOperation part = false := by
      simpa [Request.named] using named
    simp only [Request.parts, Request.answer]
    cases route : r.route with simp only [Route.parts, Route.operation, Route.argument, Route.distinct]
    | tags => exact absurd route listing
    | manifests =>
      rw [parseParts_name free (by decide) _ (by simp; decide)]
      simp [show manifests ≠ blobs by decide]
    | blobs digest =>
      rw [parseParts_name free (by decide) _ (by simp; decide)]
      by_cases mistaken : digest = uploads
      · simp [mistaken]
      · simp [mistaken]
    | uploads =>
      rw [parseParts_name free (by decide) _ (by simp; decide)]
      simp
    | referrers =>
      rw [parseParts_referrers r.name.nonempty free]
      simp

theorem Name.eq_of_join_eq {a b : Name} (same : join '/' a.components = join '/' b.components) :
    a = b := by
  have free (name : Name) : ∀ part ∈ name.components, '/' ∉ part :=
    fun part mem => slash_notMem_of_isNameComponent (name.valid part mem)
  have split := congrArg (splitOn '/') same
  rw [splitOn_join a.nonempty (free a), splitOn_join b.nonempty (free b)] at split
  cases a
  cases b
  cases split
  rfl

theorem Route.eq_of_operation_eq {a b : Route} (operation : a.operation = b.operation)
    (argument : a.argument = b.argument) : a = b := by
  cases a <;> cases b <;>
    first
    | rfl
    | exact absurd operation (by simp only [Route.operation]; decide)
    | simpa [Route.argument] using argument

theorem Request.eq_of_answer_eq {s : Request} (same : r.answer = s.answer) : r = s := by
  simp only [Request.answer, Prod.mk.injEq, Option.some.injEq] at same
  obtain ⟨name, operation, argument⟩ := same
  have name := Name.eq_of_join_eq name
  have route := Route.eq_of_operation_eq operation argument
  cases r
  cases s
  cases name
  cases route
  rfl

/-- Exactly the routable requests are read back, so no two of them are confused. -/
theorem routable_requests_read_back (r s : Request) :
    (parseOciPath r.path = some r.answer ↔ r.routable = true) ∧
      (r.routable = true → s.routable = true → parseOciPath r.path = parseOciPath s.path → r = s) := by
  refine ⟨parse_path_iff r, fun first second same => Request.eq_of_answer_eq ?_⟩
  rw [(parse_path_iff r).2 first, (parse_path_iff s).2 second] at same
  exact Option.some.inj same

/-- The repository `library/manifests` at `latest`, and `library` at `manifests`. -/
def latest : Request where
  name := ⟨["library", manifests], by decide, by decide⟩
  route := .manifests "latest"
  plain := by decide

def shadowed : Request where
  name := ⟨["library"], by decide, by decide⟩
  route := .manifests manifests
  plain := by decide

/-- The two requests are confused. -/
theorem requests_confused :
    parseOciPath latest.path ≠ some latest.answer ∧
      parseOciPath latest.path = parseOciPath shadowed.path ∧
      latest.name.components ≠ shadowed.name.components := by
  refine ⟨?_, ?_, ?_⟩ <;> decide

end ArtifactKeeper.OciRoutes
