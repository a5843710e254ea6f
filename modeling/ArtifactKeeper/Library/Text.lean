import Mathlib.Algebra.Order.Ring.Int
import Mathlib.Data.List.DropRight
import Mathlib.Data.List.Infix

/-!
# Text

Text is a list of characters, and the functions of this file are the ones a standard library has for
it.  The lemmas say what each result means in terms of appending and splitting.
-/

abbrev Text := List Char

instance : Coe String Text := ⟨String.toList⟩

namespace Text

instance : LawfulBEq Text := inferInstance

def stripSuffix (s suffix : Text) : Option Text :=
  if suffix.isSuffixOf s then some (s.take (s.length - suffix.length)) else none

variable {s front part : Text} {c sep : Char}

theorem stripSuffix_eq_some {suffix rest : Text} :
    stripSuffix s suffix = some rest ↔ s = rest ++ suffix := by
  unfold stripSuffix
  split_ifs with ends
  · obtain ⟨_, rfl⟩ := List.isSuffixOf_iff_suffix.1 ends
    simp
  · simp only [false_iff]
    rintro rfl
    exact ends (List.isSuffixOf_iff_suffix.2 (List.suffix_append _ _))

def stripPrefix (s front : Text) : Option Text :=
  if front.isPrefixOf s then some (s.drop front.length) else none

theorem stripPrefix_eq_some {rest : Text} :
    stripPrefix s front = some rest ↔ s = front ++ rest := by
  unfold stripPrefix
  split_ifs with starts
  · obtain ⟨_, rfl⟩ := List.isPrefixOf_iff_prefix.1 starts
    simp
  · simp only [false_iff]
    rintro rfl
    exact starts (List.isPrefixOf_iff_prefix.2 (List.prefix_append _ _))

/-- The order of texts by code points, which is that of their bytes. -/
def le : Text → Text → Bool
  | [], _ => true
  | _ :: _, [] => false
  | a :: s, b :: t => if a = b then le s t else a.toNat < b.toNat

def containsText (s part : Text) : Bool := s.tails.any fun rest => part.isPrefixOf rest

theorem containsText_iff : containsText s part = true ↔ part <:+: s := by
  simp only [containsText, List.any_eq_true, List.mem_tails, List.isPrefixOf_iff_prefix,
    List.infix_iff_prefix_suffix, and_comm]

/-- The text before the first separator and after it. -/
def splitOnce (sep : Char) : Text → Option (Text × Text)
  | [] => none
  | c :: s => if c = sep then some ([], s) else (splitOnce sep s).map fun (a, b) => (c :: a, b)

theorem splitOnce_eq_some {a b : Text} :
    splitOnce sep s = some (a, b) ↔ s = a ++ sep :: b ∧ sep ∉ a := by
  induction s generalizing a with
  | nil => simp [splitOnce]
  | cons c s ih =>
    unfold splitOnce
    split_ifs with found
    · cases a with
      | nil => simp [found]
      | cons d a => simp [found]; rintro rfl; simp
    · cases a with
      | nil => simp [found]
      | cons d a => simp [ih]; grind

theorem splitOnce_eq_none : splitOnce sep s = none ↔ sep ∉ s := by
  induction s with
  | nil => simp [splitOnce]
  | cons c s ih =>
    unfold splitOnce
    split_ifs with found
    · simp [found]
    · simp [ih, Ne.symm found]

theorem append_cons_inj {a b t : Text} (left : sep ∉ a) (right : sep ∉ b)
    (same : a ++ sep :: s = b ++ sep :: t) : a = b ∧ s = t := by
  have first : splitOnce sep (a ++ sep :: s) = some (a, s) := splitOnce_eq_some.2 ⟨rfl, left⟩
  have second : splitOnce sep (a ++ sep :: s) = some (b, t) := splitOnce_eq_some.2 ⟨same, right⟩
  simpa using first.symm.trans second

/-- The text before the last separator and after it. -/
def rsplitOnce (sep : Char) (s : Text) : Option (Text × Text) :=
  (splitOnce sep s.reverse).map fun (b, a) => (a.reverse, b.reverse)

/-- The characters with the property `White_Space`. -/
def isWhitespace (c : Char) : Bool :=
  let n := c.toNat
  9 ≤ n && n ≤ 13 || n == 0x20 || n == 0x85 || n == 0xa0 || n == 0x1680 || 0x2000 ≤ n && n ≤ 0x200a ||
    n == 0x2028 || n == 0x2029 || n == 0x202f || n == 0x205f || n == 0x3000

def trim (s : Text) : Text := (s.dropWhile isWhitespace).rdropWhile isWhitespace

theorem trim_of_no_whitespace (none : ∀ c ∈ s, isWhitespace c = false) : trim s = s := by
  have front : s.dropWhile isWhitespace = s := by
    cases s with
    | nil => rfl
    | cons c s => simp [none c (by simp)]
  unfold trim
  rw [front, List.rdropWhile_eq_self_iff]
  intro nonempty
  simp [none _ (List.getLast_mem nonempty)]

theorem rdropWhile_append {p : Char → Bool} (solid : front.rdropWhile p = front) (back : Text) :
    (front ++ back).rdropWhile p = front ++ back.rdropWhile p := by
  induction back using List.reverseRecOn with
  | nil => simp [solid]
  | append_singleton _ c ih =>
    rw [← List.append_assoc, List.rdropWhile_concat, List.rdropWhile_concat, ih]
    split_ifs
    · rfl
    · rw [List.append_assoc]

def toAsciiLowercase (s : Text) : Text := s.map Char.toLower

def eqIgnoreAsciiCase (s t : Text) : Bool := toAsciiLowercase s == toAsciiLowercase t

/-! ### Numbers -/

def digitValue (radix : ℕ) (c : Char) : Option ℕ :=
  let value :=
    if '0' ≤ c ∧ c ≤ '9' then some (c.toNat - '0'.toNat)
    else if 'a' ≤ c ∧ c ≤ 'z' then some (c.toNat - 'a'.toNat + 10)
    else if 'A' ≤ c ∧ c ≤ 'Z' then some (c.toNat - 'A'.toNat + 10)
    else none
  value.filter (· < radix)

def digitsValue (radix : ℕ) (digits : Text) : Option ℕ :=
  digits.foldlM (fun n c => (digitValue radix c).map (n * radix + ·)) 0

/-- An unsigned decimal number, with or without a plus sign. -/
def parseUnsigned (bound : ℕ) (s : Text) : Option ℕ :=
  let digits := if s.head? = some '+' then s.tail else s
  if digits.isEmpty then none else (digitsValue 10 digits).filter (· < bound)

def decimal (n : ℕ) : Text := Nat.toDigits 10 n

variable {n : ℕ}

theorem isDigit_of_mem_decimal (mem : c ∈ decimal n) : c.isDigit = true :=
  Nat.isDigit_of_mem_toDigits (by decide) (by decide) mem

theorem notMem_decimal (other : c.isDigit = false) (n : ℕ) : c ∉ decimal n := fun mem => by
  simp [isDigit_of_mem_decimal mem] at other

theorem toNat_of_isDigit (digit : c.isDigit = true) : 48 ≤ c.toNat ∧ c.toNat ≤ 57 := by
  simp only [Char.isDigit, Bool.and_eq_true, decide_eq_true_eq] at digit
  exact digit

theorem isWhitespace_of_isDigit (h : c.isDigit = true) : isWhitespace c = false := by
  have range := toNat_of_isDigit h
  simp [isWhitespace]
  omega

theorem digitValue_of_isDigit (h : c.isDigit = true) :
    digitValue 10 c = some (c.toNat - '0'.toNat) := by
  simp only [Char.isDigit, Bool.and_eq_true, decide_eq_true_eq] at h
  have range : '0' ≤ c ∧ c ≤ '9' := h
  have small : c.toNat ≤ 57 := h.2
  have below : c.toNat - '0'.toNat < 10 := by
    simp only [Char.reduceToNat]
    omega
  simp only [digitValue, if_pos range, Option.filter_some, below, decide_true, if_true]

theorem foldlM_digits (digits : ∀ c ∈ s, c.isDigit = true) (start : ℕ) :
    s.foldlM (fun n c => (digitValue 10 c).map (n * 10 + ·)) start =
      some (Nat.ofDigitChars 10 s start) := by
  induction s generalizing start with
  | nil => simp
  | cons c s ih =>
    obtain ⟨first, rest⟩ := List.forall_mem_cons.1 digits
    rw [List.foldlM_cons, digitValue_of_isDigit first, Nat.ofDigitChars_cons]
    simp only [Option.map_some, Option.bind_eq_bind, Option.bind_some]
    rw [ih rest, Nat.mul_comm]

theorem digitsValue_decimal (n : ℕ) : digitsValue 10 (decimal n) = some n := by
  rw [digitsValue, foldlM_digits fun c mem => isDigit_of_mem_decimal mem, decimal,
    Nat.ofDigitChars_ten_toDigits]

theorem decimal_injective : Function.Injective decimal := fun n m same =>
  Option.some.inj (digitsValue_decimal n ▸ digitsValue_decimal m ▸ congrArg (digitsValue 10) same)

/-- A number that fits is read back from its digits. -/
theorem parseUnsigned_decimal (n bound : ℕ) :
    parseUnsigned bound (decimal n) = if n < bound then some n else none := by
  have unsigned : (decimal n).head? ≠ some '+' := fun plus =>
    notMem_decimal rfl n (List.mem_of_head? plus)
  have nonempty : (decimal n).isEmpty = false := by simp [decimal]
  simp [parseUnsigned, unsigned, nonempty, digitsValue_decimal, Option.filter_some]

theorem parseUnsigned_of_some {bound : ℕ} (parsed : parseUnsigned bound s = some n) (bound' : ℕ) :
    parseUnsigned bound' s = if n < bound' then some n else none := by
  unfold parseUnsigned at parsed ⊢
  generalize (if s.head? = some '+' then s.tail else s) = digits at parsed ⊢
  cases empty : digits.isEmpty with
  | true => simp [empty] at parsed
  | false =>
    simp only [empty, Bool.false_eq_true, if_false] at parsed ⊢
    obtain ⟨value, -⟩ := Option.filter_eq_some_iff.1 parsed
    rw [value, Option.filter_some]
    simp only [decide_eq_true_eq]

theorem ne_nil_of_parseUnsigned {bound : ℕ} (parsed : parseUnsigned bound s = some n) : s ≠ [] := by
  rintro rfl
  simp [parseUnsigned] at parsed

def intText (n : ℤ) : Text := if n < 0 then '-' :: decimal n.natAbs else decimal n.natAbs

theorem notMem_intText (other : c.isDigit = false) (sign : c ≠ '-') (n : ℤ) : c ∉ intText n := by
  unfold intText
  split_ifs <;> simp [sign, notMem_decimal other]

theorem intText_injective : Function.Injective intText := by
  have unsigned (n m : ℕ) : '-' :: decimal n ≠ decimal m := fun same =>
    notMem_decimal (c := '-') rfl m (same ▸ List.mem_cons_self)
  intro n m same
  unfold intText at same
  split_ifs at same
  · have abs := decimal_injective (List.cons.inj same).2
    omega
  · exact absurd same (unsigned _ _)
  · exact absurd same.symm (unsigned _ _)
  · have abs := decimal_injective same
    omega

/-- The digits of a number with leading zeros up to a width. -/
def padded (width n : ℕ) : Text := List.replicate (width - (decimal n).length) '0' ++ decimal n

theorem digitsValue_padded (width n : ℕ) : digitsValue 10 (padded width n) = some n := by
  have zeros (k : ℕ) :
      (List.replicate k '0').foldlM (fun n c => (digitValue 10 c).map (n * 10 + ·)) 0 = some 0 := by
    induction k with
    | zero => rfl
    | succ k ih => exact ih
  unfold digitsValue padded
  rw [List.foldlM_append, zeros]
  exact digitsValue_decimal n

theorem padded_injective (width : ℕ) : Function.Injective (padded width) := fun n m same =>
  Option.some.inj (digitsValue_padded width n ▸ digitsValue_padded width m ▸
    congrArg (digitsValue 10) same)

theorem isDigit_of_mem_padded {width : ℕ} (mem : c ∈ padded width n) : c.isDigit = true := by
  rcases List.mem_append.1 mem with zero | digit
  · rw [List.eq_of_mem_replicate zero]
    rfl
  · exact isDigit_of_mem_decimal digit

/-- The parts between the separators. -/
def join (sep : Char) (parts : List Text) : Text := [sep].intercalate parts

@[simp] theorem join_singleton (sep : Char) (part : Text) : join sep [part] = part := by
  simp [join]

theorem splitOn_join {parts : List Text} (some : parts ≠ [])
    (free : ∀ part ∈ parts, sep ∉ part) : (join sep parts).splitOn sep = parts :=
  List.splitOn_intercalate sep free some

theorem splitOn_of_not_mem (free : sep ∉ s) : s.splitOn sep = [s] := by
  have parts := splitOn_join (List.cons_ne_nil s []) fun part mem => List.mem_singleton.1 mem ▸ free
  rwa [join_singleton] at parts

theorem mem_join {parts : List Text} (mem : c ∈ join sep parts) :
    c = sep ∨ ∃ part ∈ parts, c ∈ part := by
  induction parts with
  | nil => simp [join] at mem
  | cons part rest ih =>
    cases rest with
    | nil => exact .inr ⟨part, by simp, by simpa [join] using mem⟩
    | cons _ _ =>
      simp only [join, List.intercalate_cons_cons, List.mem_append, List.mem_singleton] at mem ih
      rcases mem with (inPart | isSep) | inRest
      · exact .inr ⟨part, by simp, inPart⟩
      · exact .inl isSep
      · exact (ih inRest).imp_right fun ⟨part', mem, inside⟩ => ⟨part', .tail _ mem, inside⟩

theorem splitOn_append_cons (sep : Char) (front back : Text) :
    (front ++ sep :: back).splitOn sep = front.splitOn sep ++ back.splitOn sep :=
  List.splitOn_append_cons_of_beq _ _ (beq_self_eq_true sep)

theorem mem_of_mem_splitOnP {p : Char → Bool} (mem : part ∈ s.splitOnP p) :
    ∀ c ∈ part, c ∈ s ∧ p c = false := by
  induction s generalizing part with
  | nil => simp_all
  | cons d s ih =>
    rw [List.splitOnP_cons_eq_if_modifyHead] at mem
    split_ifs at mem with found
    · rcases List.mem_cons.1 mem with rfl | rest
      · simp
      · exact fun c inside => (ih rest c inside).imp_left (List.mem_cons_of_mem d)
    · cases parts : s.splitOnP p with
      | nil => simp [parts] at mem
      | cons _ _ =>
        simp only [parts, List.modifyHead_cons, List.mem_cons] at mem ih
        rcases mem with rfl | later
        · intro c inside
          rcases List.mem_cons.1 inside with rfl | inside
          · exact ⟨by simp, by simpa using found⟩
          · exact (ih (.inl rfl) c inside).imp_left (List.mem_cons_of_mem d)
        · exact fun c inside => (ih (.inr later) c inside).imp_left (List.mem_cons_of_mem d)

theorem mem_of_mem_splitOn (mem : part ∈ s.splitOn sep) :
    ∀ c ∈ part, c ∈ s ∧ c ≠ sep := fun c inside =>
  (mem_of_mem_splitOnP mem c inside).imp_right beq_eq_false_iff_ne.1

theorem join_append (sep : Char) {front back : List Text} (first : front ≠ []) (last : back ≠ []) :
    join sep (front ++ back) = join sep front ++ sep :: join sep back := by
  induction front with
  | nil => exact absurd rfl first
  | cons _ rest ih =>
    cases rest with
    | nil =>
      cases back with
      | nil => exact absurd rfl last
      | cons => simp [join]
    | cons _ _ =>
      have tail := ih (by simp)
      simp only [join, List.cons_append, List.intercalate_cons_cons] at tail ⊢
      rw [tail]
      simp

/-! ### Bytes -/

def byteLength (s : Text) : ℕ := (s.map Char.utf8Size).sum

@[simp] theorem byteLength_nil : byteLength [] = 0 := rfl

@[simp] theorem byteLength_cons (c : Char) (s : Text) :
    byteLength (c :: s) = c.utf8Size + byteLength s := rfl

@[simp] theorem byteLength_append (s t : Text) :
    byteLength (s ++ t) = byteLength s + byteLength t := by
  simp [byteLength]

theorem byteLength_of_ascii (ascii : ∀ c ∈ s, c.toNat < 128) : byteLength s = s.length := by
  induction s with
  | nil => rfl
  | cons c s ih =>
    obtain ⟨first, rest⟩ := List.forall_mem_cons.1 ascii
    have single : c.utf8Size = 1 := Char.utf8Size_eq_one_iff.2 (Nat.le_of_lt_succ first)
    rw [byteLength_cons, ih rest, single, List.length_cons, Nat.add_comm]

/-- The first `n` bytes, where they end at a character boundary of the text. -/
def sliceTo (n : ℕ) : Text → Option Text
  | [] => if n = 0 then some [] else none
  | c :: s =>
    if n = 0 then some []
    else if c.utf8Size ≤ n then (sliceTo (n - c.utf8Size) s).map (c :: ·)
    else none

@[simp] theorem sliceTo_zero (s : Text) : sliceTo 0 s = some [] := by
  cases s <;> rfl

theorem sliceTo_append (front rest : Text) :
    sliceTo (byteLength front) (front ++ rest) = some front := by
  induction front with
  | nil => simp
  | cons c _ ih =>
    have size := c.utf8Size_pos
    rw [List.cons_append, sliceTo, if_neg (by simp only [byteLength_cons]; omega),
      if_pos (by simp), byteLength_cons, Nat.add_sub_cancel_left, ih, Option.map_some]

theorem sliceTo_eq_some : sliceTo n s = some front ↔ front <+: s ∧ byteLength front = n := by
  constructor
  · intro found
    induction s generalizing n front with
    | nil =>
      simp only [sliceTo, Option.ite_none_right_eq_some, Option.some.injEq] at found
      obtain ⟨rfl, rfl⟩ := found
      exact ⟨List.prefix_rfl, rfl⟩
    | cons c s ih =>
      unfold sliceTo at found
      split_ifs at found with zero fits
      · cases found
        exact ⟨List.nil_prefix, zero.symm⟩
      · obtain ⟨_, tailFound, rfl⟩ := Option.map_eq_some_iff.1 found
        obtain ⟨starts, length⟩ := ih tailFound
        exact ⟨List.cons_prefix_cons.2 ⟨rfl, starts⟩, by rw [byteLength_cons, length]; omega⟩
  · rintro ⟨⟨rest, rfl⟩, rfl⟩
    exact sliceTo_append front rest

/-! ### Case -/

open List Char

theorem toNat_toLower (c : Char) :
    c.toLower.toNat = if 65 ≤ c.toNat ∧ c.toNat ≤ 90 then c.toNat + 32 else c.toNat := by
  have upper : (c.val ≥ 'A'.val ∧ c.val ≤ 'Z'.val) ↔ 65 ≤ c.toNat ∧ c.toNat ≤ 90 := Iff.rfl
  unfold toLower
  simp only [upper]
  split_ifs with h
  · show (c.val + 32).toNat = c.val.toNat + 32
    simp
    omega
  · rfl

theorem eq_of_toLower_eq {d : Char} (same : c.toLower = d)
    (other : ¬(97 ≤ d.toNat ∧ d.toNat ≤ 122)) : c = d := by
  have number := toNat_toLower c
  rw [same] at number
  apply toNat_inj.1
  split_ifs at number with upper
  · omega
  · exact number.symm

theorem toLower_of_not_upper (other : ¬(65 ≤ c.toNat ∧ c.toNat ≤ 90)) : c.toLower = c :=
  toNat_inj.1 (by rw [toNat_toLower, if_neg other])

theorem toLower_toLower (c : Char) : c.toLower.toLower = c.toLower := by
  apply toLower_of_not_upper
  rw [toNat_toLower]
  split_ifs <;> omega

theorem toAsciiLowercase_of_lower (lower : ∀ c ∈ s, c.toLower = c) : toAsciiLowercase s = s := by
  rw [toAsciiLowercase, map_congr_left lower, map_id']

theorem toAsciiLowercase_append (s t : Text) :
    toAsciiLowercase (s ++ t) = toAsciiLowercase s ++ toAsciiLowercase t := map_append

theorem toAsciiLowercase_take (n : ℕ) (s : Text) :
    toAsciiLowercase (s.take n) = (toAsciiLowercase s).take n := map_take

theorem eqIgnoreAsciiCase_iff {t : Text} :
    s.eqIgnoreAsciiCase t = true ↔ s.toAsciiLowercase = t.toAsciiLowercase := beq_iff_eq

end Text
