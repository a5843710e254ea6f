import ArtifactKeeper.Library.Network

/-!
# The client's address

Behind trusted proxies the address of a client is read off the `X-Forwarded-For` lines, from the
right, up to the first address outside the trusted ranges.  What the client wrote stands left of
what the proxies appended.
-/

namespace ArtifactKeeper.ClientAddress

open Network Text List Char

/-! ### Ranges -/

structure CidrRange where
  network : IpAddr
  prefixLen : ℕ
  valid : prefixLen ≤ network.width

/-- The messages of the errors are left out. -/
def CidrRange.parse (s : Text) : Option CidrRange :=
  (splitOnce '/' s).bind fun (addr, prefixText) =>
    (parseIpAddr addr).bind fun network =>
      (parseUnsigned 256 prefixText).bind fun prefixLen =>
        if valid : prefixLen ≤ network.width then some ⟨network, prefixLen, valid⟩ else none

def CidrRange.contains (range : CidrRange) (ip : IpAddr) : Bool :=
  match range.network, ip with
  | .v4 net, .v4 ip =>
    let mask := if range.prefixLen = 0 then 0 else prefixMask 32 range.prefixLen
    net &&& mask == ip &&& mask
  | .v6 net, .v6 ip =>
    let mask := if range.prefixLen = 0 then 0 else prefixMask 128 range.prefixLen
    net &&& mask == ip &&& mask
  | _, _ => false

/-! ### Header lines -/

abbrev HeaderValue := List UInt8

/-- Names are in lower case, and the values of one name in the order of their lines. -/
abbrev HeaderMap := List (Text × HeaderValue)

variable (headers : HeaderMap)

def getAll (name : Text) : List HeaderValue :=
  (headers.filter (·.1 = name)).map (·.2)

def xForwardedFor : Text := "x-forwarded-for"

/-- Visible ASCII, space or tab. -/
def isText (b : UInt8) : Bool := 32 ≤ b && b < 127 || b == 9

def toStr (value : HeaderValue) : Option Text :=
  if value.all isText then some (value.map fun b => ofNat b.toNat) else none

def normalizeXffToken (token : Text) : Text :=
  let t := trim token
  if t.head? = some '[' then
    match splitOnce ']' t.tail with
    | some (inside, _) => inside
    | none => t
  else if t.count ':' = 1 then
    match rsplitOnce ':' t with
    | some (host, _) => host
    | none => t
  else t

variable (trusted : List CidrRange)

def walk : List Text → Option IpAddr
  | [] => none
  | token :: rest =>
    if (normalizeXffToken token).isEmpty then walk rest
    else
      match parseIpAddr (normalizeXffToken token) with
      | some ip => if trusted.any (·.contains ip) then walk rest else some ip
      | none => none

def rightmostUntrustedXffToken : Option IpAddr :=
  let lines := (getAll headers xForwardedFor).filterMap toStr
  if lines.isEmpty then none
  else walk trusted (lines.reverse.flatMap fun line => (line.splitOn ',').reverse)

def firstXffTokenIn : Option Text :=
  ((getAll headers xForwardedFor).head?.bind toStr).bind fun line =>
    ((line.splitOn ',').head?.map trim).filter (!·.isEmpty)

def resolveClientIpAddr (peer : Option IpAddr) (trusted : List CidrRange) : Option IpAddr :=
  match peer with
  | some peer =>
    if trusted.any (·.contains peer) then
      match rightmostUntrustedXffToken headers trusted with
      | some ip => some ip
      | none => some peer
    else some peer
  | none => (firstXffTokenIn headers).bind parseIpAddr

example : normalizeXffToken " [2001:db8::1]:443 " = "2001:db8::1" := by decide

/-! ### Trusted addresses -/

def Trusted (ip : IpAddr) : Prop :=
  ∃ range ∈ trusted, Within range.network range.prefixLen ip

theorem CidrRange.contains_iff (range : CidrRange) (ip : IpAddr) :
    range.contains ip = true ↔ Within range.network range.prefixLen ip := by
  obtain ⟨network, p, valid⟩ := range
  have mask (w : ℕ) : (if p = 0 then 0#w else prefixMask w p) = prefixMask w p := by
    split_ifs with zero
    · simp [prefixMask, zero]
    · rfl
  unfold CidrRange.contains
  cases network <;> cases ip <;> simp only [IpAddr.width] at valid
  case v4.v4 net ip => simp [Within, mask, and_prefixMask_eq_iff valid, valid]
  case v6.v6 net ip => simp [Within, mask, and_prefixMask_eq_iff valid, valid]
  all_goals simp [Within]

variable {ip : IpAddr} {value : HeaderValue} {written : Option HeaderValue} {token : Text}

variable {trusted}

theorem any_contains_iff :
    (trusted.any fun range => range.contains ip) = true ↔ Trusted trusted ip := by
  simp only [any_eq_true, CidrRange.contains_iff, Trusted]

/-! ### What the proxies append -/

/-- A character that a header line can hold. -/
def IsText (c : Char) : Prop := c = '\t' ∨ 32 ≤ c.toNat ∧ c.toNat < 127

instance (c : Char) : Decidable (IsText c) := inferInstanceAs (Decidable (_ ∨ _))

structure Names (token : Text) (ip : IpAddr) : Prop where
  text : ∀ c ∈ token, IsText c
  single : ',' ∉ token
  address : parseIpAddr (normalizeXffToken token) = some ip

def encode (s : Text) : HeaderValue := s.map fun c => UInt8.ofNat c.toNat

/-- A line that ends in `token` and the tokens of the hops after it; what the client wrote, if
anything, stands before a comma. -/
def lastLine (written : Option HeaderValue) (token : Text) (hops : List Text) : HeaderValue :=
  match written with
  | none => encode (join ',' (token :: hops))
  | some bytes => bytes ++ encode (',' :: join ',' (token :: hops))

/-- All bytes of the client in the last line are text. -/
def readable (written : Option HeaderValue) : Bool := written.all (·.all isText)

theorem IsText.toNat_ofNat {c : Char} (h : IsText c) : (UInt8.ofNat c.toNat).toNat = c.toNat := by
  refine UInt8.toNat_ofNat_of_lt' ?_
  rcases h with rfl | ⟨-, high⟩
  · decide
  · exact high.trans (by decide)

theorem IsText.isText {c : Char} (h : IsText c) : isText (UInt8.ofNat c.toNat) = true := by
  have value := h.toNat_ofNat
  rcases h with rfl | range
  · decide
  · simp only [ClientAddress.isText, Bool.or_eq_true, Bool.and_eq_true, decide_eq_true_eq,
      UInt8.le_iff_toNat_le, UInt8.lt_iff_toNat_lt, value]
    exact .inl range

theorem isText_ofNat {b : UInt8} (h : isText b = true) : IsText (ofNat b.toNat) := by
  have all : ∀ n < 128, isText (UInt8.ofNat n) = true → IsText (ofNat n) := by decide
  have small : b.toNat < 128 := by
    simp only [isText, Bool.or_eq_true, Bool.and_eq_true, decide_eq_true_eq, beq_iff_eq] at h
    rcases h with ⟨-, high⟩ | rfl
    · exact high.trans (by decide)
    · decide
  exact all b.toNat small (by rwa [UInt8.ofNat_toNat])

theorem all_isText_encode {s : Text} (h : ∀ c ∈ s, IsText c) : (encode s).all isText = true := by
  simp only [encode, all_map, all_eq_true]
  exact fun c mem => (h c mem).isText

theorem map_encode {s : Text} (h : ∀ c ∈ s, IsText c) :
    ((encode s).map fun b => ofNat b.toNat) = s := by
  simp only [encode, map_map]
  refine (map_congr_left fun c mem => ?_).trans (map_id s)
  simp [(h c mem).toNat_ofNat]

theorem Names.not_isEmpty (h : Names token ip) : (normalizeXffToken token).isEmpty = false := by
  cases empty : normalizeXffToken token with
  | nil =>
    have address := h.address
    rw [empty, parseIpAddr_nil] at address
    cases address
  | cons => rfl

theorem walk_trusted (h : Names token ip) (inside : Trusted trusted ip) (rest : List Text) :
    walk trusted (token :: rest) = walk trusted rest := by
  simp [walk, h.address, any_contains_iff.2 inside]

theorem walk_untrusted (h : Names token ip) (outside : ¬Trusted trusted ip) (rest : List Text) :
    walk trusted (token :: rest) = some ip := by
  simp [walk, h.not_isEmpty, h.address, mt any_contains_iff.1 outside]

theorem walk_hops {hops : List Text}
    (inside : ∀ hop ∈ hops, ∃ ip, Names hop ip ∧ Trusted trusted ip) (rest : List Text) :
    walk trusted (hops ++ rest) = walk trusted rest := by
  induction hops with
  | nil => rfl
  | cons hop _ ih =>
    obtain ⟨_, names, trustedIp⟩ := inside hop (by simp)
    rw [cons_append, walk_trusted names trustedIp]
    exact ih fun hop mem => inside hop (.tail _ mem)

theorem of_walk_eq_some {tokens : List Text} (h : walk trusted tokens = some ip) :
    ∃ token ∈ tokens, parseIpAddr (normalizeXffToken token) = some ip ∧ ¬Trusted trusted ip := by
  induction tokens with
  | nil => cases h
  | cons token rest ih =>
    have later (h : walk trusted rest = some ip) :
        ∃ token' ∈ token :: rest,
          parseIpAddr (normalizeXffToken token') = some ip ∧ ¬Trusted trusted ip := by
      obtain ⟨token', mem, found⟩ := ih h
      exact ⟨token', .tail _ mem, found⟩
    unfold walk at h
    split_ifs at h with empty
    · exact later h
    · split at h
      · split_ifs at h with inside
        · exact later h
        · cases h
          exact ⟨token, by simp, by assumption, mt any_contains_iff.2 inside⟩
      · cases h

/-! ### The last line -/

theorem toStr_eq_some {line : Text} (h : toStr value = some line) : ∀ c ∈ line, IsText c := by
  unfold toStr at h
  split_ifs at h with all
  cases h
  intro c mem
  obtain ⟨b, inside, rfl⟩ := mem_map.1 mem
  exact isText_ofNat (all_eq_true.1 all b inside)

section LastLine

variable {t : IpAddr}  {hops : List Text}
  (client : Names token t) (inside : ∀ hop ∈ hops, ∃ ip, Names hop ip ∧ Trusted trusted ip)
include client inside

theorem isText_join : ∀ c ∈ join ',' (token :: hops), IsText c := by
  intro c mem
  rcases mem_join mem with rfl | ⟨part, isPart, inPart⟩
  · exact .inr (by decide)
  · rcases mem_cons.1 isPart with rfl | isHop
    · exact client.text c inPart
    · obtain ⟨_, names, -⟩ := inside part isHop
      exact names.text c inPart

theorem splitOn_join_hops : (join ',' (token :: hops)).splitOn ',' = token :: hops := by
  refine splitOn_join (by simp) fun part mem => ?_
  rcases mem_cons.1 mem with rfl | isHop
  · exact client.single
  · obtain ⟨_, names, -⟩ := inside part isHop
    exact names.single

theorem toStr_lastLine (readable : readable written = true) :
    ∃ line front, toStr (lastLine written token hops) = some line ∧
      line.splitOn ',' = front ++ token :: hops := by
  have text := isText_join client inside
  have split := splitOn_join_hops client inside
  cases written with
  | none =>
    refine ⟨join ',' (token :: hops), [], ?_, split⟩
    simp only [lastLine, toStr, all_isText_encode text, map_encode text, if_true]
  | some bytes =>
    have text' : ∀ c ∈ ',' :: join ',' (token :: hops), IsText c :=
      forall_mem_cons.2 ⟨.inr (by decide), text⟩
    have all : bytes.all isText = true := readable
    refine ⟨(bytes.map fun b => ofNat b.toNat) ++ ',' :: join ',' (token :: hops), _, ?_,
      (splitOn_append_cons _ _ _).trans (congrArg _ split)⟩
    simp only [lastLine, toStr, all_append, all, all_isText_encode text', Bool.and_self,
      if_true, map_append, map_encode text']

omit client inside in
theorem toStr_lastLine_none (unreadable : readable written = false) :
    toStr (lastLine written token hops) = none := by
  cases written with
  | none => cases unreadable
  | some bytes =>
    have some : bytes.all isText = false := unreadable
    simp [lastLine, toStr, some]

end LastLine

/-! ### The resolved address -/

theorem resolve_untrusted {peer : IpAddr} (outside : ¬Trusted trusted peer) (headers : HeaderMap) :
    resolveClientIpAddr headers (some peer) trusted = some peer := by
  simp [resolveClientIpAddr, mt any_contains_iff.1 outside]

def tokens (lines : List HeaderValue) : List Text :=
  (lines.filterMap toStr).reverse.flatMap fun line => (line.splitOn ',').reverse

theorem rightmost_eq_walk (headers : HeaderMap) (trusted : List CidrRange) :
    rightmostUntrustedXffToken headers trusted =
      walk trusted (tokens (getAll headers xForwardedFor)) := by
  unfold rightmostUntrustedXffToken tokens
  cases (getAll headers xForwardedFor).filterMap toStr with
  | nil | cons => rfl

theorem resolve_trusted {peer : IpAddr} (inside : Trusted trusted peer)
    (headers : HeaderMap) : resolveClientIpAddr headers (some peer) trusted =
      some ((walk trusted (tokens (getAll headers xForwardedFor))).getD peer) := by
  simp only [resolveClientIpAddr, any_contains_iff.2 inside, rightmost_eq_walk]
  cases walk trusted _ <;> rfl

theorem tokens_append_some {line : Text} (h : toStr value = some line)
    (earlier : List HeaderValue) :
    tokens (earlier ++ [value]) = (line.splitOn ',').reverse ++ tokens earlier := by
  simp [tokens, h]

theorem tokens_append_none (h : toStr value = none)
    (earlier : List HeaderValue) : tokens (earlier ++ [value]) = tokens earlier := by
  simp [tokens, h]

theorem names_of_mem_tokens {lines : List HeaderValue} (mem : token ∈ tokens lines)
    (address : parseIpAddr (normalizeXffToken token) = some ip) :
    Names token ip := by
  obtain ⟨_, isLine, inLine⟩ := mem_flatMap.1 mem
  obtain ⟨_, -, text⟩ := mem_filterMap.1 (mem_reverse.1 isLine)
  have chars := mem_of_mem_splitOn (mem_reverse.1 inLine)
  exact ⟨fun c mem => toStr_eq_some text c (chars c mem).1, fun comma => (chars _ comma).2 rfl,
    address⟩

theorem walk_readable {t : IpAddr} {hops : List Text}
    (client : Names token t) (outside : ¬Trusted trusted t)
    (inside : ∀ hop ∈ hops, ∃ ip, Names hop ip ∧ Trusted trusted ip)
    (readable : readable written = true) (earlier : List HeaderValue) :
    walk trusted (tokens (earlier ++ [lastLine written token hops])) = some t := by
  obtain ⟨_, _, text, split⟩ := toStr_lastLine client inside readable
  rw [tokens_append_some text, split, reverse_append, reverse_cons, append_assoc,
    append_assoc, walk_hops fun hop mem => inside hop (mem_reverse.1 mem)]
  exact walk_untrusted client outside _

theorem walk_unreadable
    {other : Text} (names : Names other ip) (outside : ¬Trusted trusted ip)
    (unreadable : readable written = false) (token : Text) (hops : List Text) :
    walk trusted (tokens [encode other, lastLine written token hops]) = some ip := by
  have text : toStr (encode other) = some other := by
    simp only [toStr, all_isText_encode names.text, map_encode names.text, if_true]
  have dropped : toStr (lastLine written token hops) = none := toStr_lastLine_none unreadable
  have split : other.splitOn ',' = [other] := splitOn_eq_singleton names.single
  simp [tokens, text, dropped, split, walk_untrusted names outside]

/-- For an untrusted peer the headers play no part.  For a trusted one, what the client wrote does
not matter, whatever lines it sent before the last, exactly if its part of the last line is text or
no other address can be named. -/
theorem client_address_noninterference (trusted : List CidrRange) :
    (∀ peer, ¬Trusted trusted peer → ∀ headers,
      resolveClientIpAddr headers (some peer) trusted = some peer) ∧
    ∀ peer t written token hops, Trusted trusted peer → ¬Trusted trusted t → Names token t →
      (∀ hop ∈ hops, ∃ ip, Names hop ip ∧ Trusted trusted ip) →
      ((∀ headers earlier,
        getAll headers xForwardedFor = earlier ++ [lastLine written token hops] →
          resolveClientIpAddr headers (some peer) trusted ∈ [some t, some peer]) ↔
        readable written = true ∨ ∀ other ip, Names other ip → Trusted trusted ip ∨ ip = t) := by
  refine ⟨fun peer outside headers => resolve_untrusted outside headers, ?_⟩
  intro _ t written token hops peerTrusted outside client inside
  constructor
  · intro all
    by_contra failing
    simp only [not_or, not_forall, Bool.not_eq_true] at failing
    obtain ⟨unreadable, other, _, names, untrusted, differs⟩ := failing
    have result := all [(xForwardedFor, encode other), (xForwardedFor, lastLine written token hops)]
      [encode other] (by simp [getAll])
    have lines : getAll [(xForwardedFor, encode other),
        (xForwardedFor, lastLine written token hops)] xForwardedFor =
          [encode other, lastLine written token hops] := by simp [getAll]
    rw [resolve_trusted peerTrusted, lines, walk_unreadable names untrusted unreadable] at result
    simp only [Option.getD_some, mem_cons, Option.some.injEq, not_mem_nil, or_false] at result
    rcases result with same | same
    · exact differs same
    · exact untrusted (same ▸ peerTrusted)
  · intro condition _ earlier lines
    rw [resolve_trusted peerTrusted, lines]
    cases read : readable written with
    | true => simp [walk_readable client outside inside read]
    | false =>
      rw [tokens_append_none (toStr_lastLine_none read)]
      cases found : walk trusted (tokens earlier) with
      | none => simp
      | some ip =>
        obtain ⟨other, mem, address, untrusted⟩ := of_walk_eq_some found
        have single := condition.resolve_left (by simp [read]) other ip
          (names_of_mem_tokens mem address)
        simp [single.resolve_left untrusted]

def privateRange : List CidrRange := [⟨.v4 0x0a000000, 8, by decide⟩]

theorem names_client : Names "9.9.9.9" (.v4 0x09090909) := by
  have text : "9.9.9.9".toList.all (fun c => decide (IsText c)) = true := by decide
  exact ⟨fun c mem => of_decide_eq_true (all_eq_true.1 text c mem), by decide, by decide⟩

theorem client_untrusted : ¬Trusted privateRange (.v4 0x09090909) := by
  rw [← any_contains_iff]
  decide

/-- The proxy `10.0.0.1` appends the client's address `9.9.9.9` to a line of the client. -/
theorem client_address_noninterference_appended :
    ∀ headers earlier,
      getAll headers xForwardedFor = earlier ++ [lastLine (some [0x31]) "9.9.9.9" []] →
      resolveClientIpAddr headers (some (.v4 0x0a000001)) privateRange ∈
        [some (.v4 0x09090909), some (.v4 0x0a000001)] := by
  have proxy : Trusted privateRange (.v4 0x0a000001) := any_contains_iff.1 (by decide)
  exact ((client_address_noninterference privateRange).2 _ _ (some [0x31]) _ [] proxy client_untrusted
    names_client nofun).2 (.inl (by decide))

/-- The client sends a line with an address of its choice and one with a byte that is not text.  The
proxy appends the client's address `9.9.9.9` to the second line, but the first one is read. -/
theorem client_address_spoofed :
    let headers := [(xForwardedFor, encode "6.6.6.6"),
      (xForwardedFor, lastLine (some [0xff]) "9.9.9.9" [])]
    Names "9.9.9.9" (.v4 0x09090909) ∧ ¬Trusted privateRange (.v4 0x09090909) ∧
      resolveClientIpAddr headers (some (.v4 0x0a000001)) privateRange = some (.v4 0x06060606) :=
  ⟨names_client, client_untrusted, by decide⟩

end ArtifactKeeper.ClientAddress
