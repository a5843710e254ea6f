import ArtifactKeeper.Library.Find

/-!
# Filtered simple indexes

The HTML of a simple index is scanned for anchors, each from `<a ` to the next `</a>`, and put
together again without those whose first link has a blocked version.
-/

namespace ArtifactKeeper.AgeGate

open Text List

/-! ### File names -/

def trimEndMatches (s suffix : Text) : Text :=
  match stripSuffix s suffix with
  | some rest => if rest.length < s.length then trimEndMatches rest suffix else s
  | none => s
termination_by s.length

variable (filename : Text)

def parseWheelFilename : Option Text :=
  let parts := (trimEndMatches filename ".whl").splitOn '-'
  if parts.length < 5 then none else parts[1]?

def parseSdistFilename : Option Text :=
  (rsplitOnce '-' (trimEndMatches filename ".tar.gz")).map Prod.snd

def parseSdistZipFilename : Option Text :=
  (rsplitOnce '-' (trimEndMatches filename ".zip")).map Prod.snd

/-- The version in a file name: `parse_filename` of the PyPI format. -/
def pypiFilenameVersion : Option Text :=
  if ".whl".toList.isSuffixOf filename then parseWheelFilename filename
  else if ".tar.gz".toList.isSuffixOf filename then parseSdistFilename filename
  else if ".zip".toList.isSuffixOf filename then parseSdistZipFilename filename
  else none

def hrefOpen : Text := "href=\""

/-- The file name in a link: what is after the last slash and before any `#` or `?`. -/
def hrefFilename (href : Text) : Option Text :=
  let basename := ((href.splitOn '/').getLast?).getD []
  let filename := basename.takeWhile fun c => c != '#' && c != '?'
  if filename.isEmpty then none else some filename

def extractHrefFilename (anchor : Text) : Option Text :=
  (find hrefOpen anchor).bind fun position =>
    (splitOnce '"' (anchor.drop (position + 6))).bind fun (href, _) => hrefFilename href

def pypiAnchorVersion (anchor : Text) : Option Text :=
  (extractHrefFilename anchor).bind pypiFilenameVersion

/-! ### The first pass -/

def anchorOpen : Text := "<a "

def anchorClose : Text := "</a>"

structure PypiAnchorSpan where
  start : ℕ
  stop : ℕ
  version : Option Text

/-- What the first pass has found so far; no time is known for a version yet. -/
structure Scan where
  spans : List PypiAnchorSpan := []
  seen : List Text := []
  versions : List (Text × Option ℤ) := []

section

variable (html : Text)

def nextAnchor (cursor : ℕ) : Option (ℕ × ℕ) :=
  (find anchorOpen (html.drop cursor)).bind fun rel =>
    let start := cursor + rel
    (find anchorClose (html.drop start)).map fun endRel => (start, start + endRel + 4)

def Scan.see (s : Scan) : Option Text → Scan
  | some ver =>
    if s.seen.contains ver then s
    else { s with seen := ver :: s.seen, versions := s.versions ++ [(ver, none)] }
  | none => s

def Scan.record (start stop : ℕ) (s : Scan) : Scan :=
  let version := pypiAnchorVersion (slice html start stop)
  let s := s.see version
  { s with spans := s.spans ++ [⟨start, stop, version⟩] }

theorem anchorOpen_eq : anchorOpen = ['<', 'a', ' '] := rfl

theorem anchorClose_eq : anchorClose = ['<', '/', 'a', '>'] := rfl

def anchor (body : Text) : Text := anchorOpen ++ (body ++ anchorClose)

theorem nextAnchor_eq_some {html : Text} {cursor start stop : ℕ}
    (found : nextAnchor html cursor = some (start, stop)) :
    ∃ text body rest, html.drop cursor = text ++ (anchor body ++ rest) ∧
      ¬anchorOpen <:+: text ∧ ¬anchorClose <:+: body ∧
      start = cursor + text.length ∧ stop = start + (anchor body).length := by
  obtain ⟨_, opens, found⟩ := Option.bind_eq_some_iff.1 found
  obtain ⟨_, closes, same⟩ := Option.map_eq_some_iff.1 found
  cases same
  obtain ⟨text, back, split, rfl, first⟩ := find_eq_some (by decide) opens
  have here : html.drop (cursor + text.length) = anchorOpen ++ back := by
    rw [← drop_drop, split, drop_left]
  rw [here] at closes
  obtain ⟨front, rest, split', rfl, none⟩ := find_eq_some (by decide) closes
  -- The closing tag is behind the opening one: they share no characters but at their starts.
  obtain ⟨body, rfl⟩ : ∃ body, front = anchorOpen ++ body := by
    rw [anchorOpen_eq, anchorClose_eq] at split'
    rcases front with _ | ⟨c, _ | ⟨d, _ | ⟨e, body⟩⟩⟩ <;>
      simp only [cons_append, nil_append, cons.injEq, Char.reduceEq, and_false, false_and] at split'
    obtain ⟨rfl, rfl, rfl, -⟩ := split'
    exact ⟨body, rfl⟩
  refine ⟨text, body, rest, ?_, first, fun occurs => none ?_, rfl, ?_⟩
  · rw [split, split']
    simp [anchor]
  · exact occurs.trans (suffix_append anchorOpen body).isInfix
  · simp only [anchor, anchorClose_eq, length_append, length_cons, length_nil]
    omega

theorem nextAnchor_lt {html : Text} {cursor start stop : ℕ}
    (found : nextAnchor html cursor = some (start, stop)) :
    html.length - stop < html.length - cursor := by
  obtain ⟨_, body, _, split, -, -, rfl, rfl⟩ := nextAnchor_eq_some found
  have length := congrArg length split
  simp only [length_drop, length_append] at length
  have positive : 0 < (anchor body).length := by simp [anchor, anchorOpen_eq]
  omega

def scanFrom (html : Text) (cursor : ℕ) (s : Scan) : Scan :=
  match _ : nextAnchor html cursor with
  | some (start, stop) => scanFrom html stop (s.record html start stop)
  | none => s
termination_by html.length - cursor
decreasing_by exact nextAnchor_lt ‹_›

def parsePypiSimpleIndexAnchors : List PypiAnchorSpan × List (Text × Option ℤ) :=
  let s := scanFrom html 0 {}
  (s.spans, s.versions)

/-! ### The second pass -/

variable (blocked : Text → Bool)

def keeps : Option Text → Bool
  | none => true
  | some ver => !blocked ver

def rebuildSpan (s : ℕ × Text) (span : PypiAnchorSpan) : ℕ × Text :=
  let out := s.2 ++ slice html s.1 span.start
  (span.stop, if keeps blocked span.version then out ++ slice html span.start span.stop else out)

def finishRebuild (s : ℕ × Text) : Text := s.2 ++ html.drop s.1

def rebuildPypiSimpleIndexHtml (spans : List PypiAnchorSpan) (blocked : Text → Bool) : Text :=
  finishRebuild html (spans.foldl (rebuildSpan html blocked) (0, []))

def filterSimpleIndex : Text :=
  rebuildPypiSimpleIndexHtml html (parsePypiSimpleIndexAnchors html).1 blocked

end

/-! ### The two passes as one -/

variable (blocked : Text → Bool)

def passed (body : Text) : Text :=
  if keeps blocked (pypiAnchorVersion (anchor body)) then anchor body else []

/-- The text is read from the front, anchor by anchor. -/
inductive Filtered : Text → Text → Prop
  | tail {text : Text} (none : ∀ front body back, text ≠ front ++ (anchor body ++ back)) :
    Filtered text text
  | piece {text body rest out : Text} (first : ¬anchorOpen <:+: text)
    (closed : ¬anchorClose <:+: body) (next : Filtered rest out) :
    Filtered (text ++ (anchor body ++ rest)) (text ++ (passed blocked body ++ out))

variable {blocked}

theorem nextAnchor_eq_none {html : Text} {cursor : ℕ} (missing : nextAnchor html cursor = none)
    (front body back : Text) : html.drop cursor ≠ front ++ (anchor body ++ back) := by
  intro split
  unfold nextAnchor at missing
  cases opens : find anchorOpen (html.drop cursor) with
  | none =>
    refine find_eq_none opens ⟨front, body ++ (anchorClose ++ back), ?_⟩
    simp [split, anchor]
  | some _ =>
    rw [opens] at missing
    have unclosed := find_eq_none (Option.map_eq_none_iff.1 missing)
    obtain ⟨text, after, split', rfl, first⟩ := find_eq_some (by decide) opens
    rw [← drop_drop, split', drop_left] at unclosed
    -- The first opening tag is not behind the one of this anchor.
    have early : text <+: front ++ anchorOpen := by
      have left : text <+: html.drop cursor := ⟨_, split'.symm⟩
      have right : front ++ anchorOpen <+: html.drop cursor :=
        ⟨body ++ (anchorClose ++ back), by simp [split, anchor]⟩
      rcases prefix_or_prefix_of_prefix left right with early | ⟨more, late⟩
      · exact early
      · exact absurd ⟨front, more, late⟩ first
    obtain ⟨more, early⟩ := early
    have same : text ++ (anchorOpen ++ after) = text ++ (more ++ (body ++ (anchorClose ++ back))) := by
      rw [← split', ← append_assoc, early, split]
      simp [anchor]
    rw [append_cancel_left same] at unclosed
    exact unclosed ⟨more ++ body, back, by simp⟩

theorem rebuild_scanFrom (html : Text) (blocked : Text → Bool) (cursor : ℕ) (s : Scan) :
    ∃ spans kept, (scanFrom html cursor s).spans = s.spans ++ spans ∧
      Filtered blocked (html.drop cursor) kept ∧
      ∀ out, finishRebuild html (spans.foldl (rebuildSpan html blocked) (cursor, out)) =
        out ++ kept := by
  fun_induction scanFrom html cursor s with
  | case1 cursor s start _ found ih =>
    obtain ⟨text, body, rest, split, first, closed, rfl, rfl⟩ := nextAnchor_eq_some found
    obtain ⟨spans, kept, eq, next, rebuilt⟩ := ih
    have before : slice html cursor (cursor + text.length) = text := slice_of_drop split
    have here : html.drop (cursor + text.length) = anchor body ++ rest := by
      rw [← drop_drop, split, drop_left]
    have whole := slice_of_drop here
    have after : html.drop (cursor + text.length + (anchor body).length) = rest := by
      rw [← drop_drop, here, drop_left]
    rw [after] at next
    set start := cursor + text.length
    refine ⟨⟨start, start + (anchor body).length, pypiAnchorVersion (anchor body)⟩ :: spans,
      text ++ (passed blocked body ++ kept), ?_, ?_, ?_⟩
    · rw [eq, Scan.record, whole]
      cases pypiAnchorVersion (anchor body) with
      | none => simp [Scan.see]
      | some _ =>
        simp only [Scan.see]
        split_ifs <;> simp
    · rw [split]
      exact .piece first closed next
    · intro _
      rw [foldl_cons, rebuildSpan, rebuilt]
      simp only [before, whole, passed]
      split_ifs <;> simp
  | case2 cursor s missing =>
    exact ⟨[], html.drop cursor, by simp, .tail (nextAnchor_eq_none missing), fun out => rfl⟩

theorem filtered_filterSimpleIndex (html : Text) (blocked : Text → Bool) :
    Filtered blocked html (filterSimpleIndex html blocked) := by
  obtain ⟨_, kept, eq, filtered, rebuilt⟩ := rebuild_scanFrom html blocked 0 {}
  have out : filterSimpleIndex html blocked = kept := by
    simp only [filterSimpleIndex, parsePypiSimpleIndexAnchors, eq]
    exact rebuilt []
  rw [out]
  exact filtered

/-- The second text is the first one without some complete anchors. -/
inductive AnchorsRemoved : Text → Text → Prop
  | same (text : Text) : AnchorsRemoved text text
  | remove (text : Text) {body rest out : Text} (closed : ¬anchorClose <:+: body)
    (next : AnchorsRemoved rest out) : AnchorsRemoved (text ++ (anchor body ++ rest)) (text ++ out)

theorem AnchorsRemoved.append (front : Text) {text out : Text} (removed : AnchorsRemoved text out) :
    AnchorsRemoved (front ++ text) (front ++ out) := by
  cases removed with
  | same => exact .same _
  | remove text closed next =>
    have removed := AnchorsRemoved.remove (front ++ text) closed next
    simpa only [append_assoc] using removed

theorem Filtered.anchorsRemoved {text out : Text} (filtered : Filtered blocked text out) :
    AnchorsRemoved text out := by
  induction filtered with
  | tail => exact .same _
  | @piece text _ _ _ _ closed _ ih =>
    unfold passed
    split_ifs
    · exact (ih.append _).append _
    · exact .remove text closed ih

/-! ### Links -/

def linkVersion (value : Text) : Option Text := (hrefFilename value).bind pypiFilenameVersion

variable (blocked)

/-- The text begins with a tag `<a ` that has, before it ends, an attribute `href="value"` with a
blocked version. -/
def OpensBlocked (text : Text) : Prop :=
  ∃ tag value after version,
    text = anchorOpen ++ (tag ++ (hrefOpen ++ (value ++ '"' :: after))) ∧ '>' ∉ tag ∧ '"' ∉ value ∧
      linkVersion value = some version ∧ blocked version = true

def HasBlocked (html : Text) : Prop := ∃ link, link <:+ html ∧ OpensBlocked blocked link

/-- How a blocked link gets from the first text into the second one. -/
inductive Leaks : Text → Text → Prop
  /-- It is behind the last complete anchor. -/
  | tail {text : Text} (none : ∀ front body back, text ≠ front ++ (anchor body ++ back))
    (link : HasBlocked blocked text) : Leaks text text
  /-- It begins in an anchor whose own version is not blocked. -/
  | kept {text body rest out part : Text} (first : ¬anchorOpen <:+: text)
    (closed : ¬anchorClose <:+: body) (keep : passed blocked body = anchor body)
    (next : Filtered blocked rest out) (some : part ≠ []) (inside : part <:+ anchor body)
    (link : OpensBlocked blocked (part ++ out)) :
    Leaks (text ++ (anchor body ++ rest)) (text ++ (anchor body ++ out))
  /-- What is before a removed anchor ends in a beginning of `<a `, and what follows completes it. -/
  | joined {text body rest out part : Text} (first : ¬anchorOpen <:+: text)
    (closed : ¬anchorClose <:+: body) (remove : passed blocked body = [])
    (next : Filtered blocked rest out) (some : part ≠ []) (ends : part <:+ text)
    (starts : part <+: anchorOpen) (link : OpensBlocked blocked (part ++ out)) :
    Leaks (text ++ (anchor body ++ rest)) (text ++ out)
  | later {text body rest out : Text} (first : ¬anchorOpen <:+: text)
    (closed : ¬anchorClose <:+: body) (next : Leaks rest out) :
    Leaks (text ++ (anchor body ++ rest)) (text ++ (passed blocked body ++ out))

variable {blocked}

theorem suffix_append_iff {link front back : Text} : link <:+ front ++ back ↔
    link <:+ back ∨ ∃ part, part ≠ [] ∧ part <:+ front ∧ link = part ++ back := by
  constructor
  · rintro ⟨before, same⟩
    rcases append_eq_append_iff.1 same with ⟨part, rfl, rfl⟩ | ⟨more, rfl, rfl⟩
    · by_cases empty : part = []
      · exact .inl (by simp [empty])
      · exact .inr ⟨part, empty, suffix_append _ _, rfl⟩
    · exact .inl (suffix_append _ _)
  · rintro (behind | ⟨part, -, ⟨before, rfl⟩, rfl⟩)
    · exact suffix_append_of_suffix behind
    · exact ⟨before, by simp⟩

/-- A tag that begins before an anchor and is not complete there does not go on with the anchor. -/
theorem passed_of_opens {part text body out : Text} (some : part ≠ []) (ends : part <:+ text)
    (first : ¬anchorOpen <:+: text) (opens : OpensBlocked blocked (part ++ (passed blocked body ++ out))) :
    passed blocked body = [] ∧ part <+: anchorOpen := by
  obtain ⟨tag, value, after, -, split, -⟩ := opens
  have starts : part <+: anchorOpen := by
    rcases prefix_or_prefix_of_prefix (prefix_append part _) (split ▸ prefix_append anchorOpen _) with
      starts | whole
    · exact starts
    · exact absurd (whole.isInfix.trans ends.isInfix) first
  refine ⟨?_, starts⟩
  unfold passed at split ⊢
  split_ifs at split ⊢ with keep
  · -- The anchor begins with `<`, which is neither of the other characters of `<a `.
    simp only [anchor, anchorOpen_eq] at split
    rcases part with _ | ⟨c, _ | ⟨d, _ | ⟨e, _⟩⟩⟩ <;> simp at split
    · exact absurd rfl some
    · obtain ⟨rfl, rfl, rfl, -⟩ := split
      exact absurd ((prefix_append anchorOpen _).isInfix.trans ends.isInfix) first
  · rfl

theorem Filtered.hasBlocked_iff {html out : Text} (filtered : Filtered blocked html out) :
    HasBlocked blocked out ↔ Leaks blocked html out := by
  constructor
  · intro link
    induction filtered with
    | tail none => exact .tail none link
    | @piece text body rest out first closed next ih =>
      obtain ⟨link, ends, opens⟩ := link
      rcases suffix_append_iff.1 ends with behind | ⟨part, some, before, rfl⟩
      · rcases suffix_append_iff.1 behind with behind | ⟨part, some, inside, rfl⟩
        · exact .later first closed (ih ⟨link, behind, opens⟩)
        · unfold passed at inside ⊢
          split_ifs at inside ⊢ with keep
          · exact .kept first closed (if_pos keep) next some inside opens
          · exact absurd (suffix_nil.1 inside) some
      · obtain ⟨remove, starts⟩ := passed_of_opens some before first opens
        rw [remove] at opens ⊢
        exact .joined first closed remove next some before starts opens
  · intro leaks
    clear filtered
    induction leaks with
    | tail _ link => exact link
    | kept _ _ _ _ some inside link =>
      exact ⟨_, suffix_append_of_suffix (suffix_append_iff.2 (.inr ⟨_, some, inside, rfl⟩)), link⟩
    | joined _ _ _ _ some ends _ link => exact ⟨_, suffix_append_iff.2 (.inr ⟨_, some, ends, rfl⟩), link⟩
    | later _ _ _ ih =>
      obtain ⟨link, ends, opens⟩ := ih
      exact ⟨link, suffix_append_of_suffix (suffix_append_of_suffix ends), opens⟩

end ArtifactKeeper.AgeGate
