import ArtifactKeeper.Library.Text

/-!
# Network addresses

IPv4 and IPv6 addresses as bit vectors, the reader for their text forms and network prefixes.
-/

namespace Network

open Text Bool List
open BitVec hiding replicate

abbrev Ipv4Addr := BitVec 32

abbrev Ipv6Addr := BitVec 128

inductive IpAddr
  | v4 (ip : Ipv4Addr)
  | v6 (ip : Ipv6Addr)
  deriving DecidableEq

def IpAddr.width : IpAddr → ℕ
  | .v4 _ => 32
  | .v6 _ => 128

/-! ### Prefixes -/

section Prefixes

variable {w p : ℕ}

/-- The first `p` bits agree. -/
def Agree (p : ℕ) (a b : BitVec w) : Prop := ∀ i < p, a.getMsbD i = b.getMsbD i

instance (p : ℕ) (a b : BitVec w) : Decidable (Agree p a b) :=
  inferInstanceAs (Decidable (∀ i < p, a.getMsbD i = b.getMsbD i))

/-- All ones shifted left by `w - p`, or zero if that shifts every bit out. -/
def prefixMask (w p : ℕ) : BitVec w :=
  if w - p < w then allOnes w <<< (w - p) else 0

theorem getMsbD_prefixMask (bound : p ≤ w) (i : ℕ) :
    (prefixMask w p).getMsbD i = decide (i < p) := by
  unfold prefixMask
  split_ifs with shift
  · simp only [getMsbD_shiftLeft, getMsbD_allOnes]
    exact decide_eq_decide.2 (by omega)
  · have zero : p = 0 := by omega
    simp [zero]

theorem and_prefixMask_eq_iff (bound : p ≤ w) (a b : BitVec w) :
    a &&& prefixMask w p = b &&& prefixMask w p ↔ Agree p a b := by
  constructor
  · intro same i inside
    have bit := congrArg (getMsbD · i) same
    simpa [getMsbD_prefixMask bound, inside] using bit
  · intro agree
    refine eq_of_getMsbD_eq fun i _ => ?_
    simp only [getMsbD_and, getMsbD_prefixMask bound]
    by_cases inside : i < p
    · rw [agree i inside]
    · simp [inside]

/-- A test of the first `p` bits against a constant. -/
theorem and_eq_iff_agree (bound : p ≤ w) {mask value : BitVec w} (ones : prefixMask w p = mask)
    (fits : value &&& mask = value) (a : BitVec w) :
    a &&& mask = value ↔ Agree p a value := by
  rw [← and_prefixMask_eq_iff bound, ones, fits]

theorem agree_iff_div (bound : p ≤ w) (a b : BitVec w) :
    Agree p a b ↔ a.toNat / 2 ^ (w - p) = b.toNat / 2 ^ (w - p) := by
  have shifted (x : BitVec w) : x.toNat / 2 ^ (w - p) = (x >>> (w - p)).toNat := by
    rw [toNat_ushiftRight, Nat.shiftRight_eq_div_pow]
  rw [shifted, shifted, toNat_inj]
  constructor
  · intro agree
    refine eq_of_getLsbD_eq fun j _ => ?_
    simp only [getLsbD_ushiftRight]
    by_cases inside : j < p
    · have bit := agree (p - 1 - j) (by omega)
      simp only [getMsbD_eq_getLsbD, show p - 1 - j < w by omega,
        show w - 1 - (p - 1 - j) = w - p + j by omega] at bit
      exact bit
    · rw [getLsbD_of_ge _ _ (by omega), getLsbD_of_ge _ _ (by omega)]
  · intro same i _
    have bit := congrArg (getLsbD · (p - 1 - i)) same
    simp only [getLsbD_ushiftRight, show w - p + (p - 1 - i) = w - 1 - i by omega] at bit
    simp only [getMsbD_eq_getLsbD, bit]

theorem agree_width_iff (a b : BitVec w) : Agree w a b ↔ a = b :=
  ⟨fun h => eq_of_getMsbD_eq h, fun h _ _ => h ▸ rfl⟩

/-- The addresses that share the first `p` bits of `net`. -/
def Within (net : IpAddr) (p : ℕ) (ip : IpAddr) : Prop :=
  match net, ip with
  | .v4 net, .v4 ip => p ≤ 32 ∧ Agree p net ip
  | .v6 net, .v6 ip => p ≤ 128 ∧ Agree p net ip
  | _, _ => False

instance (net : IpAddr) (p : ℕ) (ip : IpAddr) : Decidable (Within net p ip) :=
  match net, ip with
  | .v4 net, .v4 ip => inferInstanceAs (Decidable (p ≤ 32 ∧ Agree p net ip))
  | .v6 net, .v6 ip => inferInstanceAs (Decidable (p ≤ 128 ∧ Agree p net ip))
  | .v4 _, .v6 _ => inferInstanceAs (Decidable False)
  | .v6 _, .v4 _ => inferInstanceAs (Decidable False)

theorem within_width_iff (net ip : IpAddr) : Within net net.width ip ↔ net = ip := by
  cases net <;> cases ip <;> simp [Within, IpAddr.width, agree_width_iff]

end Prefixes

/-! ### Ranges -/

variable (ip : Ipv4Addr)

def octet (i : ℕ) : BitVec 8 := ip.extractLsb' (8 * (3 - i)) 8

def segment (ip : Ipv6Addr) (i : ℕ) : BitVec 16 := ip.extractLsb' (16 * (7 - i)) 16

theorem toNat_octet (i : ℕ) : (octet ip i).toNat = ip.toNat / 2 ^ (8 * (3 - i)) % 2 ^ 8 := by
  rw [octet, extractLsb'_toNat, Nat.shiftRight_eq_div_pow]

theorem toNat_segment (ip : Ipv6Addr) (i : ℕ) :
    (segment ip i).toNat = ip.toNat / 2 ^ (16 * (7 - i)) % 2 ^ 16 := by
  rw [segment, extractLsb'_toNat, Nat.shiftRight_eq_div_pow]

def isLoopback : Bool := octet ip 0 == 127

def isLinkLocal : Bool := octet ip 0 == 169 && octet ip 1 == 254

def isUnspecified : Bool := ip == 0

def isBroadcast : Bool := ip == allOnes 32

def isPrivate : Bool :=
  octet ip 0 == 10 || octet ip 0 == 172 && decide (16 ≤ octet ip 1) && decide (octet ip 1 ≤ 31) ||
    octet ip 0 == 192 && octet ip 1 == 168

def isLoopbackV6 (ip : Ipv6Addr) : Bool := ip == 1

def isUnspecifiedV6 (ip : Ipv6Addr) : Bool := ip == 0

/-- The IPv4 address of an IPv6 address `::ffff:a.b.c.d`. -/
def toIpv4Mapped (ip : Ipv6Addr) : Option Ipv4Addr :=
  if (range 5).all (segment ip · == 0) && segment ip 5 == 0xffff then
    some (ip.extractLsb' 0 32)
  else none

/-- The IPv4 address of an IPv6 address `::a.b.c.d` or `::ffff:a.b.c.d`. -/
def toIpv4 (ip : Ipv6Addr) : Option Ipv4Addr :=
  if (range 5).all (segment ip · == 0) && (segment ip 5 == 0 || segment ip 5 == 0xffff) then
    some (ip.extractLsb' 0 32)
  else none

def mapped : Ipv6Addr := BitVec.ofNat 128 (0xffff * 2 ^ 32 + ip.toNat)

def compatible : Ipv6Addr := BitVec.ofNat 128 ip.toNat

theorem toNat_mapped : (mapped ip).toNat = 0xffff * 2 ^ 32 + ip.toNat := by
  rw [mapped, BitVec.toNat_ofNat]
  omega

theorem toNat_compatible : (compatible ip).toNat = ip.toNat := by
  rw [compatible, BitVec.toNat_ofNat]
  omega

theorem octet_eq_iff (i : ℕ) (value : BitVec 8) :
    octet ip i = value ↔ ip.toNat / 2 ^ (8 * (3 - i)) % 2 ^ 8 = value.toNat := by
  rw [← toNat_inj, toNat_octet]

theorem segment_eq_iff (ip : Ipv6Addr) (i : ℕ) (value : BitVec 16) :
    segment ip i = value ↔ ip.toNat / 2 ^ (16 * (7 - i)) % 2 ^ 16 = value.toNat := by
  rw [← toNat_inj, toNat_segment]

theorem all_segment_iff (ip : Ipv6Addr) :
    (range 5).all (segment ip · == 0) = true ↔ ip.toNat < 2 ^ 48 := by
  simp [range_succ, segment_eq_iff]
  omega

theorem extractLsb_eq_iff (ip6 : Ipv6Addr) (ip : Ipv4Addr) :
    ip6.extractLsb' 0 32 = ip ↔ ip6.toNat % 2 ^ 32 = ip.toNat := by
  rw [← toNat_inj, extractLsb'_toNat, Nat.shiftRight_zero]

theorem toIpv4Mapped_eq_some {ip6 : Ipv6Addr} {ip : Ipv4Addr} :
    toIpv4Mapped ip6 = some ip ↔ ip6 = mapped ip := by
  rw [← toNat_inj, toNat_mapped]
  unfold toIpv4Mapped
  split_ifs with h
  all_goals simp only [and_eq_true, all_segment_iff, beq_iff_eq, segment_eq_iff] at h
  · simp only [Option.some.injEq, extractLsb_eq_iff]
    simp at h
    omega
  · simp at h ⊢
    omega

theorem toIpv4_eq_some {ip6 : Ipv6Addr} {ip : Ipv4Addr} :
    toIpv4 ip6 = some ip ↔ ip6 = mapped ip ∨ ip6 = compatible ip := by
  rw [← toNat_inj, ← toNat_inj, toNat_mapped, toNat_compatible]
  unfold toIpv4
  split_ifs with h
  all_goals
    simp only [and_eq_true, or_eq_true, all_segment_iff, beq_iff_eq, segment_eq_iff] at h
  · simp only [Option.some.injEq, extractLsb_eq_iff]
    simp at h
    omega
  · simp at h ⊢
    omega

/-! ### Text forms -/

/-- A number of at most `max` digits, and the text after it. -/
def readNumber (radix max : ℕ) (zeroPrefix : Bool) (bound : ℕ) (s : Text) : Option (ℕ × Text) :=
  let digits := s.takeWhile fun c => (digitValue radix c).isSome
  if max < digits.length ∨ digits.isEmpty ∨
      !zeroPrefix ∧ digits.head? = some '0' ∧ 1 < digits.length then none
  else
    ((digitsValue radix digits).filter (· < bound)).map fun n => (n, s.drop digits.length)

def readSeparator (sep : Char) (first : Bool) (s : Text) : Option Text :=
  if first then some s else if s.head? = some sep then some s.tail else none

/-- Octets of an IPv4 address, with a separator before each but the first. -/
def readOctets : ℕ → Bool → Text → Option (List ℕ × Text)
  | 0, _, s => some ([], s)
  | n + 1, first, s =>
    ((readSeparator '.' first s).bind (readNumber 10 3 false 256)).bind fun (octet, s) =>
      (readOctets n false s).map fun (octets, s) => (octet :: octets, s)

/-- The number whose digits to the base `2 ^ bits` are given, highest first. -/
def ofGroups (bits w : ℕ) (groups : List ℕ) : BitVec w :=
  BitVec.ofNat w (groups.foldl (fun n group => n * 2 ^ bits + group) 0)

def readIpv4Addr (s : Text) : Option (Ipv4Addr × Text) :=
  (readOctets 4 true s).map fun (octets, s) => (ofGroups 8 32 octets, s)

/-- Up to `n` groups of an IPv6 address, and whether they end in an IPv4 address. -/
def readGroups : ℕ → Bool → Text → List ℕ × Bool × Text
  | 0, _, s => ([], false, s)
  | n + 1, first, s =>
    -- An IPv4 address takes two groups.
    match if n = 0 then none else (readSeparator ':' first s).bind readIpv4Addr with
    | some (ip, s) => ([ip.toNat / 2 ^ 16, ip.toNat % 2 ^ 16], true, s)
    | none =>
      match (readSeparator ':' first s).bind (readNumber 16 4 true (2 ^ 16)) with
      | some (group, s) =>
        let (groups, ended, s) := readGroups n false s
        (group :: groups, ended, s)
      | none => ([], false, s)

def readIpv6Addr (s : Text) : Option (Ipv6Addr × Text) :=
  let (head, ended, s) := readGroups 8 true s
  if head.length = 8 then some (ofGroups 16 128 head, s)
  else if ended then none
  else if s.take 2 = "::" then
    let (tail, _, s) := readGroups (7 - head.length) true (s.drop 2)
    let zeros := replicate (8 - head.length - tail.length) 0
    some (ofGroups 16 128 (head ++ zeros ++ tail), s)
  else none

def parseIpAddr (s : Text) : Option IpAddr :=
  match readIpv4Addr s with
  | some (ip, rest) => if rest.isEmpty then some (.v4 ip) else none
  | none =>
    match readIpv6Addr s with
    | some (ip, rest) => if rest.isEmpty then some (.v6 ip) else none
    | none => none

theorem parseIpAddr_nil : parseIpAddr [] = none := by decide

example : parseIpAddr "10.1.2.3" = some (.v4 0x0a010203) := by decide

example : parseIpAddr "fd00:ec2::254" = some (.v6 0xfd000ec2000000000000000000000254) := by
  decide

example : parseIpAddr "::ffff:10.0.0.1" = some (.v6 0xffff0a000001) := by decide

example : parseIpAddr "10.0.0.01" = none := by decide

end Network
