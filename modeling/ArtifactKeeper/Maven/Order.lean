import ArtifactKeeper.Library.Parts
import ArtifactKeeper.Library.Comparisons

/-!
# Maven versions

`parseItems` reads a version into nested lists of numbers and qualifiers, and `cmpList` compares two
of them position by position; a version that has ended is compared by the null rule
`cmpItemWithNull`.  `Lowercase` is any function that agrees with lower-casing on ASCII.
-/

namespace ArtifactKeeper.Maven

structure Lowercase where
  map : Text → Text
  ascii : ∀ s, (∀ c ∈ s, c.toNat < 128) → map s = s.map Char.toLower

def asciiLowercase : Lowercase := ⟨List.map Char.toLower, fun _ _ => rfl⟩

inductive Item
  | int (n : ℕ)
  | string (s : Text)
  | list (items : List Item)

def qualifierRank (s : Text) : Option ℕ :=
  if s = "alpha" ∨ s = "a" then some 0
  else if s = "beta" ∨ s = "b" then some 1
  else if s = "milestone" ∨ s = "m" then some 2
  else if s = "rc" ∨ s = "cr" then some 3
  else if s = "snapshot" then some 4
  else if s = [] ∨ s = "ga" ∨ s = "final" ∨ s = "release" then some 5
  else if s = "sp" then some 6
  else none

/-! ### Parsing -/

def value (run : Text) : ℕ := run.foldl (fun n c => 10 * n + (c.toNat - '0'.toNat)) 0

/-- What is made of a number that may not fit. -/
def reading (n : ℕ) : ℕ := if n < 2 ^ 64 then n else 0

/-- `token.parse::<u64>().unwrap_or(0)`, for a token of digits. -/
def parseU64 (token : Text) : ℕ := reading (value token)

def makeItem (isDigit : Bool) (token : Text) : Item :=
  if isDigit then .int (parseU64 token)
  else if token = "a" then .string "alpha"
  else if token = "b" then .string "beta"
  else if token = "m" then .string "milestone"
  else if token = "cr" then .string "rc"
  else if token = "ga" ∨ token = "final" ∨ token = "release" then .string []
  else .string token

/-- An item that `trim_trailing_nulls` removes. -/
def Item.isNull : Item → Bool
  | .int n => n = 0
  | .string s => s.isEmpty
  | .list items => items.isEmpty

def trimTrailingNulls (items : List Item) : List Item := items.rdropWhile Item.isNull

/-- The state of `parse_items`: the open lists, innermost first, and the current token. -/
structure Parser where
  top : List Item
  below : List (List Item)
  current : Text
  isDigit : Bool

namespace Parser

def push (p : Parser) (item : Item) : Parser := { p with top := p.top ++ [item] }

/-- Push the current token, if there is one. -/
def flush (p : Parser) : Parser :=
  if p.current.isEmpty then p
  else { p.push (makeItem p.isDigit p.current) with current := [] }

def openList (p : Parser) : Parser := { p with top := [], below := p.top :: p.below }

def step (p : Parser) (ch : Char) : Parser :=
  if ch = '.' then
    if p.current.isEmpty then p.push (.int 0) else p.flush
  else if ch = '-' then p.flush.openList
  else
    let p' :=
      if !p.current.isEmpty && ch.isDigit != p.isDigit then
        if ch.isDigit then p.flush else p.flush.openList
      else p
    { p' with isDigit := ch.isDigit, current := p'.current ++ [ch] }

def close : List Item → List (List Item) → List Item
  | top, [] => trimTrailingNulls top
  | top, list :: below => close (list ++ [.list (trimTrailingNulls top)]) below

end Parser

def parseItems (version : Text) : List Item :=
  let p := (version.foldl Parser.step ⟨[], [], [], false⟩).flush
  Parser.close p.top p.below

/-! ### Comparison -/

def cmpString (a b : Text) : Ordering :=
  match qualifierRank a, qualifierRank b with
  | some ar, some br => compare ar br
  | some _, none => .lt
  | none, some _ => .gt
  | none, none => compare a b

def cmpItemWithNull : Item → Ordering
  | .int n => compare n 0
  | .string s =>
    match qualifierRank s with
    | some r => compare r 5
    | none => .gt
  | .list [] => .eq
  | .list (first :: _) => cmpItemWithNull first

/-- `cmp_list` against a version that has ended. -/
def cmpNulls : List Item → Ordering
  | [] => .eq
  | a :: as => (cmpItemWithNull a).then (cmpNulls as)

mutual

def cmpItem : Item → Item → Ordering
  | .int a, .int b => compare a b
  | .string a, .string b => cmpString a b
  | .list a, .list b => cmpList a b
  | .int _, .string _ => .gt
  | .string _, .int _ => .lt
  | .int _, .list _ => .gt
  | .list _, .int _ => .lt
  | .string _, .list _ => .lt
  | .list _, .string _ => .gt

def cmpList : List Item → List Item → Ordering
  | [], bs => (cmpNulls bs).swap
  | a :: as, [] => cmpNulls (a :: as)
  | a :: as, b :: bs => (cmpItem a b).then (cmpList as bs)

end

/-- A parsed version; its canonical text plays no part in the order. -/
structure MavenVersion where
  items : List Item

def MavenVersion.parse (lower : Lowercase) (version : Text) : MavenVersion :=
  ⟨parseItems (lower.map version)⟩

def MavenVersion.cmp (a b : MavenVersion) : Ordering := cmpList a.items b.items

open Orders List MavenVersion

/-! ### Reflexivity and antisymmetry -/

theorem cmpString_self (a : Text) : cmpString a a = .eq := by
  unfold cmpString
  cases qualifierRank a with
  | none | some r => simp only [Std.ReflOrd.compare_self]

theorem cmpString_swap (a b : Text) : cmpString a b = (cmpString b a).swap := by
  unfold cmpString
  cases qualifierRank a <;> cases qualifierRank b
  · exact Std.OrientedOrd.eq_swap
  · rfl
  · rfl
  · exact Std.OrientedOrd.eq_swap

mutual

theorem cmpItem_self : ∀ a, cmpItem a a = .eq
  | .int _ => by rw [cmpItem]; exact Std.ReflCmp.compare_self
  | .string s => by rw [cmpItem]; exact cmpString_self s
  | .list items => by rw [cmpItem]; exact cmpList_self items

theorem cmpList_self : ∀ as, cmpList as as = .eq
  | [] => rfl
  | a :: as => by rw [cmpList, cmpItem_self a, cmpList_self as]; rfl

end

mutual

theorem cmpItem_swap : ∀ a b, cmpItem a b = (cmpItem b a).swap
  | .int _, .int _ => by simp only [cmpItem]; exact Std.OrientedCmp.eq_swap
  | .string a, .string b => by simp only [cmpItem]; exact cmpString_swap a b
  | .list a, .list b => by simp only [cmpItem]; exact cmpList_swap a b
  | .int _, .string _ | .string _, .int _ | .int _, .list _ | .list _, .int _ => by
    simp only [cmpItem, Ordering.swap]
  | .string _, .list _ | .list _, .string _ => by simp only [cmpItem, Ordering.swap]

theorem cmpList_swap : ∀ as bs, cmpList as bs = (cmpList bs as).swap
  | [], [] => rfl
  | [], b :: bs => by simp only [cmpList]
  | a :: as, [] => by simp only [cmpList, Ordering.swap_swap]
  | a :: as, b :: bs => by
    simp only [cmpList]
    rw [cmpItem_swap a b, cmpList_swap as bs, Ordering.swap_then]

end

/-! ### Nesting

The parser opens a list as the last item of the one before, so no item follows a list.  A list it has
closed does not end in a null item. -/

def Item.isList : Item → Bool
  | .list _ => true
  | .int _ | .string _ => false

/-- The spellings that `make_item` replaces. -/
def spellings : List Text := ["a", "b", "m", "cr", "ga", "final", "release"]

/-- A number, or a qualifier that is spelt in one way and has no separator. -/
def Item.leaf : Item → Bool
  | .int _ => true
  | .string s => '.' ∉ s && s ∉ spellings
  | .list _ => false

def flat (items : List Item) : Bool := items.all Item.leaf

def trimmed (items : List Item) : Bool := items.getLast?.all fun a => !a.isNull

mutual

def Item.nested : Item → Bool
  | .list items => nested items && trimmed items
  | .int n => (Item.int n).leaf
  | .string s => (Item.string s).leaf

def nested : List Item → Bool
  | [] => true
  | a :: as => a.nested && (!a.isList || as.isEmpty) && nested as

end

variable {as bs : List Item}

theorem nested_cons {a : Item} (h : nested (a :: as) = true) :
    a.nested = true ∧ (a.isList = true → as = []) ∧ nested as = true := by
  simp only [nested, Bool.and_eq_true, Bool.or_eq_true, List.isEmpty_iff] at h
  refine ⟨h.1.1, fun list => ?_, h.2⟩
  rcases h.1.2 with leaf | last
  · rw [list] at leaf; cases leaf
  · exact last

theorem nested_of_prefix (h : as <+: bs) (outer : nested bs = true) : nested as = true := by
  induction as generalizing bs with
  | nil => rfl
  | cons a as ih =>
    obtain ⟨rest, rfl⟩ := h
    simp only [List.cons_append, nested, Bool.and_eq_true, Bool.or_eq_true, List.isEmpty_iff,
      append_eq_nil_iff] at outer ⊢
    obtain ⟨⟨item, last⟩, tail⟩ := outer
    exact ⟨⟨item, last.imp_right And.left⟩, ih (List.prefix_append as rest) tail⟩

theorem nested_append (first : flat as = true) (last : nested bs = true) :
    nested (as ++ bs) = true := by
  induction as with
  | nil => exact last
  | cons a _ ih =>
    simp only [flat, all_cons, Bool.and_eq_true] at first
    cases a with
    | list => exact absurd first.1 (by simp [Item.leaf])
    | int | string => simpa [nested, Item.nested, Item.isList, first.1] using ih first.2

theorem nested_trimTrailingNulls {items : List Item} (h : nested items = true) :
    nested (trimTrailingNulls items) = true :=
  nested_of_prefix ( rdropWhile_prefix _ _) h

theorem trimmed_trimTrailingNulls (items : List Item) : trimmed (trimTrailingNulls items) = true := by
  simp only [trimmed, Option.all_eq_true, Bool.not_eq_true', ← Bool.not_eq_true]
  intro a last
  obtain ⟨some, rfl⟩ := mem_getLast?_eq_getLast last
  exact rdropWhile_last_not _ _ some

namespace Parser

/-- The open lists hold no list yet, and there is no separator in the token. -/
structure Flat (p : Parser) : Prop where
  top : flat p.top = true
  below : ∀ list ∈ p.below, flat list = true
  token : '.' ∉ p.current

variable {p : Parser}

theorem Flat.push (h : p.Flat) {item : Item} (leaf : item.leaf = true) : (p.push item).Flat :=
  ⟨by simpa [Parser.push, flat, leaf] using h.top, h.below, h.token⟩

theorem leaf_makeItem (isDigit : Bool) {token : Text} (plain : '.' ∉ token) :
    (makeItem isDigit token).leaf = true := by
  unfold makeItem
  split_ifs
  case neg => simp_all [Item.leaf, spellings]
  all_goals rfl

theorem Flat.flush (h : p.Flat) : p.flush.Flat := by
  unfold Parser.flush
  split
  · exact h
  · exact { h.push (leaf_makeItem _ h.token) with token := by simp }

theorem Flat.openList (h : p.Flat) : p.openList.Flat :=
  ⟨rfl, forall_mem_cons.2 ⟨h.top, h.below⟩, h.token⟩

theorem Flat.append (h : p.Flat) {ch : Char} (dot : ch ≠ '.') (isDigit : Bool) :
    Flat { p with isDigit, current := p.current ++ [ch] } :=
  { h with token := by simp [h.token, dot.symm] }

theorem Flat.step (h : p.Flat) (ch : Char) : (p.step ch).Flat := by
  unfold Parser.step
  split_ifs with dot empty dash change digit
  · exact h.push rfl
  · exact h.flush
  · exact h.flush.openList
  · exact h.flush.append dot _
  · exact h.flush.openList.append dot _
  · exact h.append dot _

theorem Flat.foldl (h : p.Flat) (version : Text) : (version.foldl Parser.step p).Flat := by
  induction version generalizing p with
  | nil => exact h
  | cons ch _ ih => exact ih (h.step ch)

theorem nested_close {top : List Item} {below : List (List Item)} (h : nested top = true)
    (outer : ∀ list ∈ below, flat list = true) : nested (close top below) = true := by
  induction below generalizing top with
  | nil => exact nested_trimTrailingNulls h
  | cons list _ ih =>
    refine ih (nested_append (outer list (by simp)) ?_) fun l mem => outer l (by simp [mem])
    simpa [nested, Item.nested, trimmed_trimTrailingNulls] using nested_trimTrailingNulls h

theorem trimmed_close (top : List Item) (below : List (List Item)) :
    trimmed (close top below) = true := by
  induction below generalizing top with
  | nil => exact trimmed_trimTrailingNulls top
  | cons list _ ih => exact ih _

end Parser

theorem nested_parseItems (version : Text) : nested (parseItems version) = true := by
  have start : Parser.Flat ⟨[], [], [], false⟩ := ⟨rfl, by simp, by simp⟩
  have done := (start.foldl version).flush
  have top := nested_append done.top (show nested [] = true from rfl)
  rw [append_nil] at top
  exact Parser.nested_close top done.below

/-! ### Transitivity -/

mutual

/-- The same items, and null ones where one of two lists has ended. -/
def Item.alike : Item → Item → Bool
  | .int n, .int m => n = m
  | .string s, .string t => s = t
  | .list as, .list bs => alike as bs
  | _, _ => false

def alike : List Item → List Item → Bool
  | [], bs => cmpNulls bs = .eq
  | a :: as, [] => cmpNulls (a :: as) = .eq
  | a :: as, b :: bs => a.alike b && alike as bs

end

/-- Qualifiers come before lists and lists before numbers. -/
def Item.kind : Item → ℕ
  | .string _ => 0
  | .list _ => 1
  | .int _ => 2

/-- The side of null that the items are on; of an inner list only the first one counts. -/
def side (outer : Bool) : List Item → Ordering
  | [] => .eq
  | a :: as => (cmpItemWithNull a).then (if outer then cmpNulls as else .eq)

mutual

def Item.inOrder : Item → Item → Bool
  | .list as, .list bs => inOrder false as bs
  | _, _ => true

/-- What remains of two versions next to one that has ended is in the order of the sides.  Where the
first items that are not both null are of one kind it is, unless they are lists; where they are of
different kinds, the sides are the same or in the order of the kinds. -/
def inOrder (outer : Bool) : List Item → List Item → Bool
  | a :: as, b :: bs =>
    if a.kind ≠ b.kind then
      Sided (side outer (a :: as)) (side outer (b :: bs)) (compare a.kind b.kind)
    else if a.isList then a.inOrder b
    else cmpItemWithNull a ≠ .eq || cmpItemWithNull b ≠ .eq ||
      if outer then inOrder outer as bs else alike as bs
  | as, bs => outer || cmpNulls as = side false as && cmpNulls bs = side false bs

end

mutual

def settledItem : Item → Item → Item → Bool
  | .list a, .list b, .list c => settled a b c
  | _, _, _ => true

/-- Where one of three versions has ended, the other two are in order.  Positions after the first at
which the three differ do not count. -/
def settled : List Item → List Item → List Item → Bool
  | [], bs, cs => inOrder true bs cs
  | a :: as, [], cs => inOrder true (a :: as) cs
  | a :: as, b :: bs, [] => inOrder true (a :: as) (b :: bs)
  | a :: as, b :: bs, c :: cs =>
    settledItem a b c && (!a.alike b || !b.alike c || settled as bs cs)

end

theorem eq_of_qualifierRank {s t : Text} {r : ℕ} (left : s ∉ spellings) (right : t ∉ spellings)
    (rank : qualifierRank s = some r) (rank' : qualifierRank t = some r) : s = t := by
  have spelt {s : Text} (normal : s ∉ spellings) (rank : qualifierRank s = some r) :
      s ∈ ((["alpha", "beta", "milestone", "rc", "snapshot", "", "sp"] : List Text)[r]?) := by
    unfold qualifierRank at rank
    simp only [spellings, mem_cons, not_or] at normal
    split_ifs at rank <;> cases rank <;> simp_all
  have same := (spelt left rank).symm.trans (spelt right rank')
  exact Option.some.inj same

theorem cmpString_eq_iff {s t : Text} (left : s ∉ spellings) (right : t ∉ spellings) :
    cmpString s t = .eq ↔ s = t := by
  constructor
  · intro same
    unfold cmpString at same
    split at same
    · next ranked ranked' =>
      obtain rfl := Nat.compare_eq_eq.1 same
      exact eq_of_qualifierRank left right ranked ranked'
    · cases same
    · cases same
    · exact Std.LawfulEqOrd.eq_of_compare same
  · rintro rfl
    exact cmpString_self s

mutual

theorem Item.alike_iff : ∀ a b : Item, a.nested = true → b.nested = true →
    (a.alike b = true ↔ cmpItem a b = .eq)
  | .int _, .int _, _, _ => by simp [Item.alike, cmpItem]
  | .string s, .string t, left, right => by
    simp only [Item.nested, Item.leaf, Bool.and_eq_true, decide_eq_true_eq] at left right
    simp [Item.alike, cmpItem, cmpString_eq_iff left.2 right.2]
  | .list as, .list bs, left, right => by
    simp only [Item.nested, Bool.and_eq_true] at left right
    rw [Item.alike, cmpItem, alike_iff as bs left.1 right.1]
  | .int _, .string _, _, _ | .string _, .int _, _, _ | .int _, .list _, _, _ => by
    simp [Item.alike, cmpItem]
  | .list _, .int _, _, _ | .string _, .list _, _, _ | .list _, .string _, _, _ => by
    simp [Item.alike, cmpItem]

theorem alike_iff : ∀ as bs : List Item, nested as = true → nested bs = true →
    (alike as bs = true ↔ cmpList as bs = .eq)
  | [], bs, _, _ => by simp [alike, cmpList]
  | a :: as, [], _, _ => by simp [alike, cmpList]
  | a :: as, b :: bs, left, right => by
    obtain ⟨itemA, -, tailA⟩ := nested_cons left
    obtain ⟨itemB, -, tailB⟩ := nested_cons right
    rw [alike, cmpList, Bool.and_eq_true, Ordering.then_eq_eq, Item.alike_iff a b itemA itemB,
      alike_iff as bs tailA tailB]

end

theorem lawful_cmpString (a b c : Text) :
    Lawful (cmpString a b) (cmpString b c) (cmpString a c) := by
  unfold cmpString
  cases qualifierRank a <;> cases qualifierRank b <;> cases qualifierRank c <;>
    first | exact lawful_compare _ _ _ | simp

variable {a b c : Item}

theorem lawful_cmpItem (leaf : ¬(a.isList ∧ b.isList ∧ c.isList)) :
    Lawful (cmpItem a b) (cmpItem b c) (cmpItem a c) := by
  cases a <;> cases b <;> cases c <;> simp only [cmpItem]
  all_goals first
    | exact lawful_compare _ _ _
    | exact lawful_cmpString _ _ _
    | simp
    | exact absurd ⟨rfl, rfl, rfl⟩ leaf

theorem settledItem_of_leaf (leaf : ¬(a.isList ∧ b.isList ∧ c.isList)) :
    settledItem a b c = true := by
  cases a <;> cases b <;> cases c <;>
    first | rfl | exact absurd ⟨rfl, rfl, rfl⟩ leaf

/-! ### Sides -/

theorem cmpItem_of_kind_ne (differ : a.kind ≠ b.kind) : cmpItem a b = compare a.kind b.kind := by
  cases a <;> cases b <;> first | exact absurd rfl differ | simp only [cmpItem, Item.kind]; rfl

/-- Null is the number zero and the empty qualifier. -/
theorem sided_leaf (same : a.kind = b.kind) (leaf : a.isList = false) :
    Sided (cmpItemWithNull a) (cmpItemWithNull b) (cmpItem a b) := by
  have null (s : Text) : cmpItemWithNull (.string s) = cmpString s [] := by
    simp only [cmpItemWithNull, cmpString]
    cases qualifierRank s <;> rfl
  cases a <;> cases b <;> cases same
  · rw [cmpItem, cmpItemWithNull, cmpItemWithNull, ← lawful_last_iff]
    exact lawful_compare _ _ _
  · rw [cmpItem, null, null, ← lawful_last_iff]
    exact lawful_cmpString _ _ _
  · cases leaf

theorem cmpNulls_eq (as : List Item) : side true as = cmpNulls as := by
  cases as <;> rfl

theorem side_list (outer : Bool) (as : List Item) : side outer [.list as] = side false as := by
  cases outer <;> cases as <;> simp [side, cmpItemWithNull, cmpNulls]

theorem sided_ended (outer : Bool) (bs : List Item) :
    Sided .eq (side outer bs) (cmpNulls bs).swap ↔
      (outer || decide (cmpNulls bs = side false bs)) = true := by
  cases outer with
  | true =>
    rw [cmpNulls_eq]
    simp [Sided]
  | false => simp [Sided, Ordering.swap_inj]

mutual

theorem Item.sided_iff : ∀ (outer : Bool) (a b : Item), a.nested = true → b.nested = true →
    a.isList = true → b.isList = true →
    (Sided (side outer [a]) (side outer [b]) (cmpItem a b) ↔ a.inOrder b = true)
  | outer, .list as, .list bs, left, right, _, _ => by
    simp only [Item.nested, Bool.and_eq_true] at left right
    rw [side_list, side_list, cmpItem, Item.inOrder]
    exact sided_iff false as bs left.1 right.1

theorem sided_iff : ∀ (outer : Bool) (as bs : List Item), nested as = true → nested bs = true →
    (Sided (side outer as) (side outer bs) (cmpList as bs) ↔ inOrder outer as bs = true)
  | outer, [], bs, _, _ => by
    rw [cmpList, side, sided_ended]
    simp [inOrder, side, cmpNulls]
  | outer, a :: as, [], _, _ => by
    rw [← sided_swap, ← cmpList_swap, cmpList, side, sided_ended]
    simp [inOrder, side, cmpNulls]
  | outer, a :: as, b :: bs, left, right => by
    obtain ⟨itemA, lastA, tailA⟩ := nested_cons left
    obtain ⟨itemB, lastB, tailB⟩ := nested_cons right
    rw [inOrder]
    by_cases kinds : a.kind = b.kind
    rotate_left
    · have decided : cmpList (a :: as) (b :: bs) = compare a.kind b.kind := by
        rw [cmpList, cmpItem_of_kind_ne kinds, then_of_ne (mt Nat.compare_eq_eq.1 kinds)]
      rw [if_pos kinds, decided, decide_eq_true_eq]
    rw [if_neg (not_not.2 kinds)]
    cases list : a.isList with
    | true =>
      -- Nothing follows the lists.
      have list' : b.isList = true := by
        cases a <;> cases b <;> first | rfl | cases kinds
        all_goals cases list
      rw [lastA list, lastB list', cmpList, cmpList, cmpNulls, Ordering.swap, Ordering.then_eq]
      exact Item.sided_iff outer a b itemA itemB list list'
    | false =>
      have heads := sided_leaf kinds list
      by_cases null : cmpItemWithNull a = .eq ∧ cmpItemWithNull b = .eq
      · have equal : cmpItem a b = .eq := by simpa [Sided, null] using heads
        cases outer with
        | false => simp [side, cmpList, null, equal, Sided, alike_iff as bs tailA tailB]
        | true =>
          have tails := sided_iff true as bs tailA tailB
          rw [cmpNulls_eq, cmpNulls_eq] at tails
          simpa [side, cmpList, null, equal] using tails
      · refine iff_of_true (heads.then null _ _ _) ?_
        rcases not_and_or.1 null with some | some <;> simp [some]

end

mutual

theorem lawful_cmpItem_iff : ∀ a b c, a.nested = true → b.nested = true → c.nested = true →
    (Lawful (cmpItem a b) (cmpItem b c) (cmpItem a c) ↔ settledItem a b c = true)
  | .list as, .list bs, .list cs, ha, hb, hc => by
    simp only [Item.nested, Bool.and_eq_true] at ha hb hc
    exact lawful_cmpList_iff as bs cs ha.1 hb.1 hc.1
  | .int _, _, _, _, _, _ | .string _, _, _, _, _, _ | .list _, .int _, _, _, _, _
  | .list _, .string _, _, _, _, _ | .list _, .list _, .int _, _, _, _
  | .list _, .list _, .string _, _, _, _ =>
    iff_of_true (lawful_cmpItem (by simp [Item.isList]))
      (settledItem_of_leaf (by simp [Item.isList]))

theorem lawful_cmpList_iff : ∀ as bs cs, nested as = true → nested bs = true →
    nested cs = true →
      (Lawful (cmpList as bs) (cmpList bs cs) (cmpList as cs) ↔ settled as bs cs = true)
  | [], bs, cs, _, hb, hc => by
    simp only [cmpList, settled, ← sided_iff true bs cs hb hc, cmpNulls_eq]
    exact lawful_first_iff _ _ _
  | a :: as, [], cs, ha, _, hc => by
    simp only [cmpList, settled, ← sided_iff true (a :: as) cs ha hc, cmpNulls_eq]
    exact lawful_middle_iff _ _ _
  | a :: as, b :: bs, [], ha, hb, _ => by
    simp only [settled, ← sided_iff true (a :: as) (b :: bs) ha hb, cmpNulls_eq]
    exact lawful_last_iff _ _ _
  | a :: as, b :: bs, c :: cs, ha, hb, hc => by
    obtain ⟨itemA, lastA, tailA⟩ := nested_cons ha
    obtain ⟨itemB, lastB, tailB⟩ := nested_cons hb
    obtain ⟨itemC, lastC, tailC⟩ := nested_cons hc
    have heads := lawful_cmpItem_iff a b c itemA itemB itemC
    have tails := lawful_cmpList_iff as bs cs tailA tailB tailC
    by_cases lists : a.isList ∧ b.isList ∧ c.isList
    · -- Nothing follows the lists.
      have none : cmpList as bs = .eq ∧ cmpList bs cs = .eq ∧ cmpList as cs = .eq := by
        rw [lastA lists.1, lastB lists.2.1, lastC lists.2.2]
        simp [cmpList, cmpNulls]
      have rest : settled as bs cs = true := tails.1 (by rw [none.1, none.2.1, none.2.2]; decide)
      simp only [cmpList, settled, none, rest, Ordering.then_eq, heads, Bool.or_true, Bool.and_true]
    · have leaf := settledItem_of_leaf lists
      simp only [cmpList, settled, leaf, (lawful_cmpItem lists).lex_iff, tails, Bool.true_and,
        Bool.or_eq_true, Bool.not_eq_true', ← Bool.not_eq_true, Item.alike_iff a b itemA itemB,
        Item.alike_iff b c itemB itemC, imp_iff_not_or, or_assoc]

end

/-- The order of three versions is lawful exactly if they are settled. -/
theorem versions_ordered_iff (lower : Lowercase) (a b c : Text) :
    let A := parse lower a
    let B := parse lower b
    let C := parse lower c
    A.cmp A = .eq ∧ A.cmp B = (B.cmp A).swap ∧
      (Lawful (A.cmp B) (B.cmp C) (A.cmp C) ↔ settled A.items B.items C.items = true) :=
  ⟨cmpList_self _, cmpList_swap _ _,
    lawful_cmpList_iff _ _ _ (nested_parseItems _) (nested_parseItems _) (nested_parseItems _)⟩

/-- Three versions in a cycle.  Next to `1` the second item of `1.0-beta` is zero and the one of
`1-1` is above zero, but every number comes after every list. -/
theorem versions_cycle :
    let A := parse asciiLowercase "1.0-beta"
    let B := parse asciiLowercase "1"
    let C := parse asciiLowercase "1-1"
    A.cmp B = .lt ∧ B.cmp C = .lt ∧ A.cmp C = .gt := by
  decide

/-! ### Numbers -/

/-- Runs of digits between dots. -/
abbrev Numeric (version : Text) : Prop :=
  ∀ run ∈ version.splitOn '.', run ≠ [] ∧ run.all Char.isDigit = true

def components (version : Text) : List ℕ := (version.splitOn '.').map value

variable {version : Text}

theorem Numeric.map (h : Numeric version) (lower : Lowercase) : lower.map version = version := by
  have low : ∀ c ∈ version, c.toNat < 65 := by
    intro c mem
    rw [← Text.join_splitOn '.' version] at mem
    rcases Text.mem_join mem with rfl | ⟨run, among, mem⟩
    · decide
    · exact (Text.toNat_of_isDigit (all_eq_true.1 (h run among).2 c mem)).2.trans_lt (by decide)
  rw [lower.ascii _ fun c mem => (low c mem).trans (by decide)]
  exact Text.toAsciiLowercase_of_lower fun c mem =>
    Text.toLower_of_not_upper fun upper => (low c mem).not_ge upper.1

namespace Parser

variable {run : Text} {runs : List Text} {top : List Item} {current : Text} {isDigit : Bool}

theorem foldl_run (nonempty : run ≠ []) (digits : ∀ c ∈ run, c.isDigit = true)
    (within : current = [] ∨ isDigit = true) :
    run.foldl step ⟨top, [], current, isDigit⟩ = ⟨top, [], current ++ run, true⟩ := by
  induction run generalizing current isDigit with
  | nil => exact absurd rfl nonempty
  | cons c run ih =>
    obtain ⟨digit, digits⟩ := forall_mem_cons.1 digits
    have dot : c ≠ '.' := by rintro rfl; cases digit
    have dash : c ≠ '-' := by rintro rfl; cases digit
    have next : step ⟨top, [], current, isDigit⟩ c = ⟨top, [], current ++ [c], true⟩ := by
      rcases within with rfl | rfl <;> simp [step, dot, dash, digit]
    rw [foldl_cons, next]
    cases run with
    | nil => rfl
    | cons d _ => rw [ih (cons_ne_nil _ _) digits (.inr rfl), append_assoc, singleton_append]

theorem foldl_join (some : runs ≠ [])
    (digits : ∀ run ∈ runs, run ≠ [] ∧ run.all Char.isDigit = true) :
    ((Text.join '.' runs).foldl step ⟨top, [], [], isDigit⟩).flush =
      ⟨top ++ runs.map fun run => .int (parseU64 run), [], [], true⟩ := by
  induction runs generalizing top isDigit with
  | nil => exact absurd rfl some
  | cons run runs ih =>
    obtain ⟨⟨nonempty, here⟩, digits⟩ := forall_mem_cons.1 digits
    have read : run.foldl step ⟨top, [], [], isDigit⟩ = ⟨top, [], run, true⟩ :=
      foldl_run nonempty (all_eq_true.1 here) (.inl rfl)
    have flushed : flush ⟨top, [], run, true⟩ = ⟨top ++ [.int (parseU64 run)], [], [], true⟩ := by
      simp [flush, push, makeItem, nonempty]
    by_cases last : runs = []
    · rw [last, Text.join_singleton, read, flushed]
      rfl
    · have dot : step ⟨top, [], run, true⟩ '.' = flush ⟨top, [], run, true⟩ := by
        simp [step, nonempty]
      rw [Text.join_cons _ last, foldl_append, read, foldl_cons, dot, flushed, ih last digits,
        append_assoc]
      rfl

end Parser

theorem Numeric.items_parse (h : Numeric version) (lower : Lowercase) :
    (parse lower version).items =
      trimTrailingNulls (((components version).map reading).map .int) := by
  have read : (version.foldl Parser.step ⟨[], [], [], false⟩).flush =
      ⟨(version.splitOn '.').map fun run => .int (parseU64 run), [], [], true⟩ := by
    conv_lhs => rw [← Text.join_splitOn '.' version]
    exact Parser.foldl_join (splitOn_ne_nil _ _) h
  rw [parse, h.map, parseItems, read, components, map_map, map_map]
  rfl

theorem trimTrailingNulls_cons (a : Item) (as : List Item) : trimTrailingNulls (a :: as) =
    if a.isNull = true ∧ trimTrailingNulls as = [] then [] else a :: trimTrailingNulls as := by
  simp only [trimTrailingNulls, rdropWhile, reverse_cons, dropWhile_append, List.isEmpty_iff,
    reverse_eq_nil_iff]
  by_cases rest : dropWhile Item.isNull as.reverse = []
  · cases null : a.isNull <;> simp [rest, null, dropWhile]
  · simp [rest]

theorem cmpList_nil (as : List Item) : cmpList as [] = cmpNulls as := by
  cases as <;> rfl

/-- Trailing zeros do not count. -/
theorem cmpList_ints : ∀ {xs ys : List ℕ}, xs.length = ys.length →
    cmpList (trimTrailingNulls (xs.map .int)) (trimTrailingNulls (ys.map .int)) = compare xs ys
  | [], [], _ => rfl
  | x :: xs, y :: ys, same => by
    rw [List.compare_cons_cons, ← cmpList_ints (Nat.succ.inj same), map_cons, map_cons,
      trimTrailingNulls_cons, trimTrailingNulls_cons]
    simp only [Item.isNull, decide_eq_true_eq]
    split_ifs with left right right
    · obtain ⟨⟨rfl, first⟩, rfl, second⟩ := And.intro left right
      rw [first, second]
      rfl
    · obtain ⟨rfl, ended⟩ := left
      rw [ended, Std.OrientedOrd.eq_swap (a := 0)]
      exact Ordering.swap_then _ _
    · obtain ⟨rfl, ended⟩ := right
      rw [ended, cmpList_nil, cmpList_nil]
      rfl
    · rfl

/-- Where two numbers differ, they fit, or both are read as zero and what follows is in their order. -/
def fits : List ℕ → List ℕ → Bool
  | x :: xs, y :: ys =>
    if x = y then fits xs ys
    else max x y < 2 ^ 64 ||
      reading x = 0 && reading y = 0 && compare (xs.map reading) (ys.map reading) = compare x y
  | _, _ => true

theorem fits_iff : ∀ {xs ys : List ℕ}, xs.length = ys.length →
    (compare (xs.map reading) (ys.map reading) = compare xs ys ↔ fits xs ys = true)
  | [], [], _ => by simp [fits]
  | x :: xs, y :: ys, same => by
    have tails := fits_iff (Nat.succ.inj same)
    rw [map_cons, map_cons, List.compare_cons_cons, List.compare_cons_cons, fits]
    by_cases equal : x = y
    · subst equal
      simpa [Std.ReflOrd.compare_self] using tails
    have decided := then_of_ne (mt Nat.compare_eq_eq.1 equal)
    rw [if_neg equal, decided]
    by_cases small : max x y < 2 ^ 64
    · obtain ⟨smallX, smallY⟩ := max_lt_iff.1 small
      simp only [reading, smallX, smallY, if_true, small, decide_true, Bool.true_or, decided]
    rw [decide_eq_false small, Bool.false_or]
    by_cases zero : reading x = 0 ∧ reading y = 0
    · simp [zero]
    -- One of the two is above all that fit, and is read as the smaller one.
    refine iff_of_false ?_ (by simpa using fun h h' => absurd ⟨h, h'⟩ zero)
    rcases Nat.lt_or_gt_of_ne equal with less | greater
    · have great : reading y = 0 := if_neg (by omega)
      have some : 0 < reading x := Nat.pos_of_ne_zero fun none => zero ⟨none, great⟩
      rw [great, Nat.compare_eq_gt.2 some, Nat.compare_eq_lt.2 less]
      nofun
    · have great : reading x = 0 := if_neg (by omega)
      have some : 0 < reading y := Nat.pos_of_ne_zero fun none => zero ⟨great, none⟩
      rw [great, Nat.compare_eq_lt.2 some, Nat.compare_eq_gt.2 greater]
      nofun

/-- Versions of equally many numbers are compared number by number, those that do not fit as zero. -/
theorem numbers_by_value (lower : Lowercase) {a b : Text} (ha : Numeric a) (hb : Numeric b)
    (same : (components a).length = (components b).length) :
    (parse lower a).cmp (parse lower b) =
      compare ((components a).map reading) ((components b).map reading) ∧
    ((parse lower a).cmp (parse lower b) = compare (components a) (components b) ↔
      fits (components a) (components b) = true) := by
  have read : (parse lower a).cmp (parse lower b) =
      compare ((components a).map reading) ((components b).map reading) := by
    rw [MavenVersion.cmp, ha.items_parse, hb.items_parse, cmpList_ints (by simpa using same)]
  exact ⟨read, by rw [read, fits_iff same]⟩

/-- A number that does not fit, behind the first difference. -/
theorem numbers_by_value_behind :
    let great := "1.18446744073709551616"
    (parse asciiLowercase great).cmp (parse asciiLowercase "2.0") =
      compare (components great) (components "2.0") :=
  (numbers_by_value asciiLowercase (a := "1.18446744073709551616") (b := "2.0") (by decide)
    (by decide) (by decide)).2.2 (by decide)

/-- A number that does not fit is read as zero. -/
theorem great_number_first :
    let great := "18446744073709551616"
    Numeric great ∧ Numeric "1" ∧ (parse asciiLowercase great).cmp (parse asciiLowercase "1") = .lt ∧
      compare (components great) (components "1") = .gt := by
  decide

/-! ### Equality -/

mutual

def Item.display : Item → Text
  | .int n => Text.decimal n
  | .string s => s
  | .list items => '(' :: (Text.join '.' (displays items) ++ [')'])

def displays : List Item → List Text
  | [] => []
  | a :: as => a.display :: displays as

end

def MavenVersion.canonical (v : MavenVersion) : Text := Text.join '.' (displays v.items)

def MavenVersion.eq (a b : MavenVersion) : Bool := a.canonical == b.canonical

mutual

/-- The texts between the separators, with `front` and `back` at the ends. -/
def Item.pieces (front back : Text) : Item → List Text
  | .int n => [front ++ (Text.decimal n ++ back)]
  | .string s => [front ++ (s ++ back)]
  | .list items => pieces (front ++ ['(']) (')' :: back) items

def pieces (front back : Text) : List Item → List Text
  | [] => [front ++ back]
  | [a] => a.pieces front back
  | a :: b :: rest => a.pieces front [] ++ pieces [] back (b :: rest)

end

mutual

theorem Item.pieces_ne_nil (front back : Text) : ∀ a : Item, a.pieces front back ≠ []
  | .int _ | .string _ => by simp [Item.pieces]
  | .list items => by rw [Item.pieces]; exact pieces_ne_nil _ _ items

theorem pieces_ne_nil (front back : Text) : ∀ as, pieces front back as ≠ []
  | [] => by simp [pieces]
  | [a] => by rw [pieces]; exact a.pieces_ne_nil front back
  | a :: b :: rest => by simp [pieces, a.pieces_ne_nil front []]

end

mutual

theorem Item.join_pieces (front back : Text) : ∀ a : Item,
    Text.join '.' (a.pieces front back) = front ++ (a.display ++ back)
  | .int _ | .string _ => by simp [Item.pieces, Item.display]
  | .list items => by simp [Item.pieces, Item.display, join_pieces _ _ items]

theorem join_pieces (front back : Text) : ∀ as,
    Text.join '.' (pieces front back as) = front ++ (Text.join '.' (displays as) ++ back)
  | [] => by simp [pieces, displays, Text.join]
  | [a] => by simp [pieces, displays, a.join_pieces front back]
  | a :: b :: rest => by
    have more : displays (b :: rest) ≠ [] := by simp [displays]
    rw [pieces, Text.join_append '.' (a.pieces_ne_nil _ _) (pieces_ne_nil _ _ _),
      a.join_pieces front [], join_pieces [] back (b :: rest), displays.eq_2 a, Text.join_cons _ more]
    simp

end

mutual

theorem Item.notMem_pieces {front back : Text} (first : '.' ∉ front) (last : '.' ∉ back) : ∀ a : Item,
    a.nested = true → ∀ piece ∈ a.pieces front back, '.' ∉ piece
  | .int n, _ => by simpa [Item.pieces, first, last] using Text.notMem_decimal rfl n
  | .string s, leaf => by
    simp only [Item.nested, Item.leaf, Bool.and_eq_true, decide_eq_true_eq] at leaf
    simp [Item.pieces, first, last, leaf]
  | .list items, inner => by
    simp only [Item.nested, Bool.and_eq_true] at inner
    exact notMem_pieces (by simp [first]) (by simp [last]) items inner.1

theorem notMem_pieces {front back : Text} (first : '.' ∉ front) (last : '.' ∉ back) : ∀ as,
    nested as = true → ∀ piece ∈ pieces front back as, '.' ∉ piece
  | [], _ => by simp [pieces, first, last]
  | [a], h => by
    exact a.notMem_pieces first last (nested_cons h).1
  | a :: b :: rest, h => by
    obtain ⟨item, -, tail⟩ := nested_cons h
    rw [pieces, forall_mem_append]
    exact ⟨a.notMem_pieces first (by simp) item, notMem_pieces (by simp) last (b :: rest) tail⟩

end

theorem canonical_eq_iff {a b : MavenVersion} (left : nested a.items = true)
    (right : nested b.items = true) :
    a.eq b = true ↔ pieces [] [] a.items = pieces [] [] b.items := by
  have text (v : MavenVersion) : v.canonical = Text.join '.' (pieces [] [] v.items) := by
    rw [join_pieces, append_nil]
    rfl
  rw [MavenVersion.eq, beq_iff_eq, text, text]
  refine ⟨fun same => ?_, congrArg _⟩
  have parts := congrArg (splitOn '.') same
  rwa [Text.splitOn_join (pieces_ne_nil _ _ _) (notMem_pieces (by simp) (by simp) _ left),
    Text.splitOn_join (pieces_ne_nil _ _ _) (notMem_pieces (by simp) (by simp) _ right)] at parts

/-! ### Lengths -/

theorem length_cons (a : Item) (as : List Item) : (Text.join '.' (displays (a :: as))).length =
    a.display.length + if as = [] then 0 else (Text.join '.' (displays as)).length + 1 := by
  cases as with
  | nil => simp [displays]
  | cons b rest => simp [displays, Text.join_cons]

theorem length_pos {a : Item} {as : List Item} (h : trimmed (a :: as) = true) :
    0 < (Text.join '.' (displays (a :: as))).length := by
  rw [length_cons]
  split_ifs with last
  · cases a <;> simp_all [trimmed, Item.isNull, Item.display, Text.decimal, length_pos_iff]
  · omega

theorem trimmed_tail {a : Item} {as : List Item} (h : trimmed (a :: as) = true) :
    trimmed as = true := by
  cases as with
  | nil => rfl
  | cons b rest => simpa [trimmed] using h

mutual

theorem Item.eq_of_length : ∀ a b : Item, a.nested = true → b.nested = true → a.alike b = true →
    a.display.length = b.display.length → a = b
  | .list as, .list bs, left, right, same, length => by
    simp only [Item.nested, Bool.and_eq_true] at left right
    rw [eq_of_length as bs left.1 right.1 left.2 right.2 same (by simpa [Item.display] using length)]
  | .int _, b, _, _, same, _ | .string _, b, _, _, same, _ => by cases b <;> simp_all [Item.alike]
  | .list _, .int _, _, _, same, _ | .list _, .string _, _, _, same, _ => by cases same

/-- Of two lists that are alike and differ one has the longer text. -/
theorem eq_of_length : ∀ as bs : List Item, nested as = true → nested bs = true →
    trimmed as = true → trimmed bs = true → alike as bs = true →
    (Text.join '.' (displays as)).length = (Text.join '.' (displays bs)).length → as = bs
  | [], [], _, _, _, _, _, _ => rfl
  | [], b :: bs, _, _, _, right, _, length => absurd length (length_pos right).ne
  | a :: as, [], _, _, left, _, _, length => absurd length (length_pos left).ne'
  | a :: as, b :: bs, left, right, trimA, trimB, same, length => by
    obtain ⟨itemA, lastA, tailA⟩ := nested_cons left
    obtain ⟨itemB, lastB, tailB⟩ := nested_cons right
    obtain ⟨heads, tails⟩ := Bool.and_eq_true_iff.1 same
    have kind : b.isList = a.isList := by cases a <;> cases b <;> first | rfl | cases heads
    rw [length_cons, length_cons] at length
    cases list : a.isList with
    | true =>
      -- Nothing follows the lists.
      obtain rfl := lastA list
      obtain rfl := lastB (kind.trans list)
      rw [a.eq_of_length b itemA itemB heads (by simpa using length)]
    | false =>
      obtain rfl : a = b := by cases a <;> cases b <;> simp_all [Item.alike, Item.isList]
      have rest := eq_of_length as bs tailA tailB (trimmed_tail trimA) (trimmed_tail trimB) tails
      split_ifs at length with endA endB endB
      · rw [endA, endB]
      · omega
      · omega
      · rw [rest (by omega)]

end

theorem trimmed_parseItems (version : Text) : trimmed (parseItems version) = true :=
  Parser.trimmed_close _ _

end ArtifactKeeper.Maven
