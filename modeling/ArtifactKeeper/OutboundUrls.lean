import ArtifactKeeper.Library.Network

/-!
# Addresses of outbound requests

The guard against server-side request forgery.  `isBlockedIpIn` decides for an address and the
context of the request; the environment holds the operator's relaxations, a list of networks and a
switch for each context.
-/

namespace ArtifactKeeper.OutboundUrls

open Network Text List Bool

abbrev Env := Text → Option Text

inductive OutboundUrlContext
  | upstream
  | webhook
  | ssoDiscovery
  | trustedInternal
  deriving DecidableEq

def OutboundUrlContext.envVar : OutboundUrlContext → Text
  | .upstream => "UPSTREAM_ALLOW_PRIVATE_IPS"
  | .webhook => "WEBHOOK_ALLOW_PRIVATE_IPS"
  | .ssoDiscovery => "SSO_ALLOW_PRIVATE_IPS"
  | .trustedInternal => "AK_TRUSTED_INTERNAL_ALLOW_PRIVATE_IPS"

/-! ### The list of networks -/

def ipv4InPrefix (net ip : Ipv4Addr) (p : ℕ) : Bool :=
  if p = 0 then true else net &&& prefixMask 32 p == ip &&& prefixMask 32 p

def ipv6InPrefix (net ip : Ipv6Addr) (p : ℕ) : Bool :=
  if p = 0 then true else net &&& prefixMask 128 p == ip &&& prefixMask 128 p

/-- The entry's address against `ip`, once both have been read. -/
def inNetwork (net ip : IpAddr) (p : ℕ) : Except String Bool :=
  if p = 0 then .error "prefix 0 (all-IPs) is not permitted in the allowlist"
  else
    match net, ip with
    | .v4 net, .v4 ip =>
      if 32 < p then .error "ipv4 prefix > 32" else .ok (ipv4InPrefix net ip p)
    | .v6 net, .v6 ip =>
      if 128 < p then .error "ipv6 prefix > 128" else .ok (ipv6InPrefix net ip p)
    | _, _ => .ok false

def cidrContains (entry : Text) (ip : IpAddr) : Except String Bool :=
  match splitOnce '/' entry with
  | none =>
    match parseIpAddr entry with
    | none => .error "invalid IP"
    | some net => .ok (net == ip)
  | some (addr, prefixText) =>
    match parseIpAddr addr with
    | none => .error "invalid IP"
    | some net =>
      match parseUnsigned 256 prefixText with
      | none => .error "invalid prefix"
      | some p => inNetwork net ip p

/-- An entry that cannot be read is skipped. -/
def cidrListContains (list : Text) (ip : IpAddr) : Bool :=
  (list.splitOn ',').any fun raw =>
    let entry := trim raw
    !entry.isEmpty &&
      match cidrContains entry ip with
      | .ok contains => contains
      | .error _ => false

/-! ### The guard -/

variable (env : Env)

def privateCidrAllowlistValue : Option Text :=
  ["AK_SSRF_ALLOW_PRIVATE_CIDRS", "UPSTREAM_PRIVATE_IP_ALLOWLIST"].findSome? fun name =>
    (env name.toList).bind fun v => if (trim v).isEmpty then none else some (trim v)

variable (ctx : OutboundUrlContext)

def allowPrivateIpsEnabled : Bool :=
  match env ctx.envVar with
  | some v => trim v == "1" || eqIgnoreAsciiCase (trim v) "true"
  | none => false

def privateIpAllowedBy (ip : IpAddr) (ctx : OutboundUrlContext) (cidrList : Option Text)
    (toggleEnabled : Bool) : Bool :=
  match ctx with
  | .webhook | .ssoDiscovery => toggleEnabled || cidrList.any (cidrListContains · ip)
  | .upstream | .trustedInternal =>
    match cidrList with
    | some list => cidrListContains list ip
    | none => toggleEnabled

def privateIpAllowed (ip : IpAddr) : Bool :=
  if ctx = .trustedInternal then true
  else privateIpAllowedBy ip ctx (privateCidrAllowlistValue env) (allowPrivateIpsEnabled env ctx)

def cloudMetadataIps : List (List (BitVec 8)) := [[192, 0, 0, 192], [100, 100, 100, 200]]

variable (ip : Ipv4Addr)

def isHardBlockedIpv4 : Bool :=
  isLoopback ip || isLinkLocal ip || isUnspecified ip || isBroadcast ip ||
    cloudMetadataIps.contains [octet ip 0, octet ip 1, octet ip 2, octet ip 3]

def isCgnatIpv4 : Bool := octet ip 0 == 100 && octet ip 1 &&& 0xc0 == 0x40

def isBlockedIpv4 : Bool :=
  if isHardBlockedIpv4 ip then true
  else if isPrivate ip then !privateIpAllowed env ctx (.v4 ip)
  else if isCgnatIpv4 ip then !privateIpAllowed env ctx (.v4 ip)
  else false

/-- The metadata service of EC2. -/
def cloudMetadataIpsV6 : List (List (BitVec 16)) := [[0xfd00, 0x0ec2, 0, 0, 0, 0, 0, 0x0254]]

def isHardBlockedIpv6 (ip : Ipv6Addr) : Bool :=
  cloudMetadataIpsV6.contains ((List.range 8).map (segment ip))

def isBlockedIpv6 (ip : Ipv6Addr) : Bool :=
  if isLoopbackV6 ip || isUnspecifiedV6 ip then true
  else if isHardBlockedIpv6 ip then true
  else if segment ip 0 &&& 0xffc0 == 0xfe80 then true
  else if segment ip 0 &&& 0xfe00 == 0xfc00 then !privateIpAllowed env ctx (.v6 ip)
  else
    match toIpv4Mapped ip with
    | some ip4 => isBlockedIpv4 env ctx ip4
    | none =>
      match toIpv4 ip with
      | some ip4 => isBlockedIpv4 env ctx ip4
      | none => false

def isBlockedIpIn : IpAddr → Bool
  | .v4 ip => isBlockedIpv4 env ctx ip
  | .v6 ip => isBlockedIpv6 env ctx ip

/-! ### What an entry of the list means -/

/-- The network that an entry names: an address with a prefix length, or one address. -/
def Names (entry : Text) (net : IpAddr) (p : ℕ) : Prop :=
  ('/' ∉ entry ∧ parseIpAddr entry = some net ∧ p = net.width) ∨
    ∃ addr prefixText, entry = addr ++ '/' :: prefixText ∧ '/' ∉ addr ∧
      parseIpAddr addr = some net ∧ parseUnsigned 256 prefixText = some p

theorem inNetwork_eq_ok {net ip : IpAddr} {p : ℕ} :
    inNetwork net ip p = .ok true ↔ 0 < p ∧ Within net p ip := by
  by_cases zero : p = 0
  · simp [inNetwork, zero]
  · have positive : 0 < p := Nat.pos_of_ne_zero zero
    unfold inNetwork
    rw [if_neg zero]
    cases net <;> cases ip
    case v4.v4 net ip =>
      by_cases bound : p ≤ 32
      · simp [Within, bound, Nat.not_lt.2 bound, positive, ipv4InPrefix, zero,
          and_prefixMask_eq_iff]
      · simp [Within, Nat.lt_of_not_le bound]
    case v6.v6 net ip =>
      by_cases bound : p ≤ 128
      · simp [Within, bound, Nat.not_lt.2 bound, positive, ipv6InPrefix, zero,
          and_prefixMask_eq_iff]
      · simp [Within, Nat.lt_of_not_le bound]
    all_goals simp [Within]

theorem names_address_iff {entry : Text} (bare : '/' ∉ entry) (net : IpAddr) (p : ℕ) :
    Names entry net p ↔ parseIpAddr entry = some net ∧ p = net.width := by
  constructor
  · rintro (⟨-, h⟩ | ⟨_, _, rfl, -⟩)
    · exact h
    · simp at bare
  · exact fun h => .inl ⟨bare, h⟩

theorem names_network_iff {addr : Text} (first : '/' ∉ addr) (prefixText : Text) (net : IpAddr)
    (p : ℕ) : Names (addr ++ '/' :: prefixText) net p ↔
      parseIpAddr addr = some net ∧ parseUnsigned 256 prefixText = some p := by
  constructor
  · rintro (⟨bare, -⟩ | ⟨_, _, same, first', h⟩)
    · simp at bare
    · have split : splitOnce '/' (addr ++ '/' :: prefixText) = some (addr, prefixText) :=
        splitOnce_eq_some.2 ⟨rfl, first⟩
      rw [splitOnce_eq_some.2 ⟨same, first'⟩] at split
      cases split
      exact h
  · exact fun h => .inr ⟨addr, prefixText, rfl, first, h⟩

theorem cidrContains_eq_ok {entry : Text} {ip : IpAddr} :
    cidrContains entry ip = .ok true ↔ ∃ net p, Names entry net p ∧ 0 < p ∧ Within net p ip := by
  unfold cidrContains
  cases split : splitOnce '/' entry with
  | none =>
    simp only [names_address_iff (splitOnce_eq_none.1 split)]
    cases parseIpAddr entry with
    | none => simp
    | some net =>
      have positive : 0 < net.width := by cases net <;> simp [IpAddr.width]
      simp [within_width_iff, positive]
  | some parts =>
    obtain ⟨addr, prefixText⟩ := parts
    obtain ⟨rfl, first⟩ := splitOnce_eq_some.1 split
    simp only [names_network_iff first]
    cases parseIpAddr addr with
    | none => simp
    | some _ =>
      cases parseUnsigned 256 prefixText with
      | none => simp
      | some p => simp [inNetwork_eq_ok]

theorem cidrContains_nil (ip : IpAddr) : cidrContains [] ip ≠ .ok true := by
  simp [cidrContains, splitOnce, parseIpAddr_nil]

theorem cidrListContains_iff {list : Text} {ip : IpAddr} :
    cidrListContains list ip = true ↔
      ∃ raw ∈ list.splitOn ',', cidrContains (trim raw) ip = .ok true := by
  simp only [cidrListContains, any_eq_true, and_eq_true, not_eq_true', isEmpty_eq_false_iff]
  refine exists_congr fun raw => and_congr_right fun _ => ?_
  constructor
  · rintro ⟨-, admitted⟩
    split at admitted
    · simp_all
    · cases admitted
  · intro admitted
    refine ⟨fun empty => cidrContains_nil ip (empty ▸ admitted), ?_⟩
    simp [admitted]

/-! ### What is blocked -/

/-- Addresses that no setting opens. -/
def Forbidden : Prop :=
  Agree 8 0x7f000000#32 ip ∨ Agree 16 0xa9fe0000#32 ip ∨ ip = 0 ∨ ip = 0xffffffff#32 ∨
    ip = 0xa9fea9fe#32 ∨ ip = 0xc00000c0#32 ∨ ip = 0x646464c8#32

/-- The private and the carrier-grade networks. -/
def Internal : Prop :=
  Agree 8 0x0a000000#32 ip ∨ Agree 12 0xac100000#32 ip ∨ Agree 16 0xc0a80000#32 ip ∨
    Agree 10 0x64400000#32 ip

/-- The internal networks of both families; an IPv6 address can hold an IPv4 one. -/
def InternalIp : IpAddr → Prop
  | .v4 ip => Internal ip
  | .v6 ip =>
    Agree 7 0xfc000000000000000000000000000000#128 ip ∨
      ∃ ip4, (ip = mapped ip4 ∨ ip = compatible ip4) ∧ Internal ip4

variable {ip}

theorem isHardBlockedIpv4_of_forbidden (h : Forbidden ip) : isHardBlockedIpv4 ip = true := by
  rcases h with loopback | linkLocal | rfl | rfl | rfl | rfl | rfl
  · rw [agree_iff_div (by decide)] at loopback
    have : isLoopback ip = true := by
      simp only [isLoopback, beq_iff_eq, octet_eq_iff]
      simp at loopback ⊢
      omega
    simp [isHardBlockedIpv4, this]
  · rw [agree_iff_div (by decide)] at linkLocal
    have : isLinkLocal ip = true := by
      simp only [isLinkLocal, and_eq_true, beq_iff_eq, octet_eq_iff]
      simp at linkLocal ⊢
      omega
    simp [isHardBlockedIpv4, this]
  all_goals decide

theorem isCgnatIpv4_iff : isCgnatIpv4 ip = true ↔ Agree 10 0x64400000#32 ip := by
  have mask : octet ip 1 &&& 0xc0 = 0x40 ↔ Agree 2 (octet ip 1) 0x40 :=
    and_eq_iff_agree (by decide) (by decide) (by decide) _
  simp only [isCgnatIpv4, and_eq_true, beq_iff_eq, mask, octet_eq_iff]
  rw [agree_iff_div (by decide), agree_iff_div (by decide), toNat_octet]
  simp
  omega

theorem isPrivate_iff : isPrivate ip = true ↔
    Agree 8 0x0a000000#32 ip ∨ Agree 12 0xac100000#32 ip ∨ Agree 16 0xc0a80000#32 ip := by
  simp only [isPrivate, or_eq_true, and_eq_true, beq_iff_eq,
    octet_eq_iff, BitVec.le_def, toNat_octet]
  rw [agree_iff_div (by decide), agree_iff_div (by decide), agree_iff_div (by decide)]
  simp
  omega

theorem isBlockedIpv4_eq (h : ¬Internal ip) (env : Env) (ctx : OutboundUrlContext) :
    isBlockedIpv4 env ctx ip = isHardBlockedIpv4 ip := by
  have notPrivate : isPrivate ip = false := by
    by_contra some
    rcases isPrivate_iff.1 (eq_true_of_not_eq_false some) with inside | inside | inside
    · exact h (.inl inside)
    · exact h (.inr (.inl inside))
    · exact h (.inr (.inr (.inl inside)))
  have notCgnat : isCgnatIpv4 ip = false := by
    by_contra some
    exact h (.inr (.inr (.inr (isCgnatIpv4_iff.1 (eq_true_of_not_eq_false some)))))
  cases hard : isHardBlockedIpv4 ip <;> simp [isBlockedIpv4, hard, notPrivate, notCgnat]

theorem isUniqueLocal_iff {ip : Ipv6Addr} :
    segment ip 0 &&& 0xfe00 = 0xfc00 ↔ Agree 7 0xfc000000000000000000000000000000#128 ip := by
  rw [and_eq_iff_agree (p := 7) (by decide) (by decide) (by decide), agree_iff_div (by decide),
    agree_iff_div (by decide), toNat_segment]
  simp
  omega

theorem isBlockedIpIn_eq {ip : IpAddr} (h : ¬InternalIp ip) (env env' : Env)
    (ctx ctx' : OutboundUrlContext) : isBlockedIpIn env ctx ip = isBlockedIpIn env' ctx' ip := by
  cases ip with
  | v4 => simp only [isBlockedIpIn, isBlockedIpv4_eq h]
  | v6 ip =>
    have notUnique : (segment ip 0 &&& 0xfe00 == 0xfc00) = false := by
      rw [beq_eq_false_iff_ne, ne_eq, isUniqueLocal_iff]
      exact fun inside => h (.inl inside)
    have held {ip4 : Ipv4Addr} (holds : ip = mapped ip4 ∨ ip = compatible ip4) :
        isBlockedIpv4 env ctx ip4 = isBlockedIpv4 env' ctx' ip4 := by
      have outside : ¬Internal ip4 := fun inside => h (.inr ⟨ip4, holds, inside⟩)
      rw [isBlockedIpv4_eq outside, isBlockedIpv4_eq outside]
    simp only [isBlockedIpIn, isBlockedIpv6, notUnique, false_eq_true, if_false]
    cases first : toIpv4Mapped ip with
    | some _ => simp only [held (.inl (toIpv4Mapped_eq_some.1 first))]
    | none =>
      cases second : toIpv4 ip with
      | some _ => simp only [held (toIpv4_eq_some.1 second)]
      | none => rfl

theorem isBlockedIpv6_low {ip : Ipv6Addr} (low : ip.toNat < 2 ^ 48) {ip4 : Ipv4Addr}
    (held : toIpv4 ip = some ip4) (env : Env) (ctx : OutboundUrlContext) :
    isBlockedIpv6 env ctx ip =
      (isLoopbackV6 ip || isUnspecifiedV6 ip || isBlockedIpv4 env ctx ip4) := by
  have zero : segment ip 0 = 0 := by
    rw [segment_eq_iff]
    simp
    omega
  have notHard : isHardBlockedIpv6 ip = false := by
    simp [isHardBlockedIpv6, cloudMetadataIpsV6, range_succ, zero]
  have same : ∀ found ∈ toIpv4Mapped ip, found = ip4 := by
    intro _ mem
    have := toIpv4_eq_some.2 (.inl (toIpv4Mapped_eq_some.1 mem))
    rw [held] at this
    exact (Option.some.inj this).symm
  unfold isBlockedIpv6
  cases isLoopbackV6 ip || isUnspecifiedV6 ip with
  | true => simp
  | false =>
    cases first : toIpv4Mapped ip with
    | some found => simp [notHard, zero, same found first]
    | none => simp [notHard, zero, held]

theorem isBlockedIpv6_mapped (env : Env) (ctx : OutboundUrlContext) (ip : Ipv4Addr) :
    isBlockedIpv6 env ctx (mapped ip) = isBlockedIpv4 env ctx ip := by
  have value := toNat_mapped ip
  have plain : (isLoopbackV6 (mapped ip) || isUnspecifiedV6 (mapped ip)) = false := by
    simp only [isLoopbackV6, isUnspecifiedV6, or_eq_false_iff, beq_eq_false_iff_ne, ne_eq,
      ← BitVec.toNat_inj]
    simp
    omega
  rw [isBlockedIpv6_low (by omega) (toIpv4_eq_some.2 (.inl rfl)), plain, Bool.false_or]

theorem isBlockedIpv6_compatible {env : Env} {ctx : OutboundUrlContext}
    (h : isBlockedIpv4 env ctx ip = true) : isBlockedIpv6 env ctx (compatible ip) = true := by
  have value := toNat_compatible ip
  rw [isBlockedIpv6_low (by omega) (toIpv4_eq_some.2 (.inr rfl)), h, Bool.or_true]

/-- Forbidden addresses stay blocked; an IPv4-mapped address is treated as the address it holds;
only internal addresses depend on the settings; and an entry of the list admits the addresses that
agree with it in its prefix, which must not be empty. -/
theorem outbound_addresses_guarded :
    (∀ ip, Forbidden ip → isBlockedIpIn env ctx (.v4 ip) = true ∧
      isBlockedIpIn env ctx (.v6 (mapped ip)) = true ∧
      isBlockedIpIn env ctx (.v6 (compatible ip)) = true) ∧
    (∀ ip, isBlockedIpIn env ctx (.v6 (mapped ip)) = isBlockedIpIn env ctx (.v4 ip)) ∧
    (∀ strict strictCtx ip, isBlockedIpIn strict strictCtx ip = true →
      isBlockedIpIn env ctx ip = false → InternalIp ip) ∧
    (∀ entry ip, cidrContains entry ip = .ok true ↔
      ∃ net p, Names entry net p ∧ 0 < p ∧ Within net p ip) ∧
    ∀ list ip, cidrListContains list ip = true ↔
      ∃ raw ∈ list.splitOn ',', ∃ net p, Names (trim raw) net p ∧ 0 < p ∧ Within net p ip := by
  refine ⟨fun ip forbidden => ?_, isBlockedIpv6_mapped env ctx, ?_,
    fun entry ip => cidrContains_eq_ok, fun list ip => ?_⟩
  · have blocked : isBlockedIpv4 env ctx ip = true := by
      simp [isBlockedIpv4, isHardBlockedIpv4_of_forbidden forbidden]
    exact ⟨blocked, (isBlockedIpv6_mapped env ctx ip).trans blocked,
      isBlockedIpv6_compatible blocked⟩
  · intro strict strictCtx _ blocked opened
    by_contra outside
    rw [isBlockedIpIn_eq outside strict env strictCtx ctx, opened] at blocked
    cases blocked
  · simp only [cidrListContains_iff, cidrContains_eq_ok]

/-- The first zero bits of any two addresses agree, but the entry admits none. -/
theorem empty_prefix_admits_none :
    Names "0.0.0.0/0" (.v4 0) 0 ∧ Within (.v4 0) 0 (.v4 0x0a000001) ∧
      cidrContains "0.0.0.0/0" (.v4 0x0a000001) ≠ .ok true := by
  refine ⟨.inr ⟨"0.0.0.0", "0", ?_⟩, ⟨by decide, by simp [Agree]⟩, by decide⟩
  decide

end ArtifactKeeper.OutboundUrls
