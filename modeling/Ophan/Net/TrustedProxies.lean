import Ophan.Http.Request
import Ophan.Net.IpSet
import Ophan.Router.Hosts

/-!
# The client address behind trusted proxies

A trusted peer names the client in a header.  The hops of a forwarding header
are walked from the right over all its lines, past the trusted ones, and the
first other hop is the client.  A line is read as text as a whole before it is
split into hops.
-/

namespace Ophan.Net

open List
open Ophan.Http Ophan.Router

def IpAddr.toCanonical (ip : IpAddr) : IpAddr := IpSet.unmapped ip

inductive ClientAddress where
  | resolved (ip : IpAddr)
  | missingHeader
  deriving DecidableEq, Repr

section Text

/-- `HeaderValue::to_str` accepts these bytes. -/
def isVisibleAscii (b : UInt8) : Bool := (32 ≤ b && b < 127) || b = 9

def Readable (value : Bytes) : Prop := ∀ b ∈ value, isVisibleAscii b = true

instance (value : Bytes) : Decidable (Readable value) :=
  inferInstanceAs (Decidable (∀ b ∈ value, isVisibleAscii b = true))

def isWhitespace (b : UInt8) : Bool := (9 ≤ b && b ≤ 13) || b = 32

def trim (text : Bytes) : Bytes :=
  ((text.dropWhile isWhitespace).reverse.dropWhile isWhitespace).reverse

/-- `b','` -/
abbrev comma : UInt8 := 44

/-- `strip_prefix('"')` and `strip_suffix('"')`, or the text as it is. -/
def stripQuotes (text : Bytes) : Bytes :=
  match text with
  | 34 :: rest => if rest.getLast? = some 34 then rest.dropLast else text
  | _ => text

/-- The value of a `for` directive without brackets and port. -/
def stripNode (text : Bytes) : Bytes :=
  match text with
  -- `[` up to `]`
  | 91 :: rest => rest.takeWhile (· ≠ 93)
  -- one `:` is the one before a port
  | _ => if text.count 58 = 1 then text.takeWhile (· ≠ 58) else text

end Text

structure TrustedProxies where
  allowedIps : Option IpSet
  realIpHeader : Option Bytes

namespace TrustedProxies

def new (allowedIps : List IpNet) (realIpHeader : Option Bytes) : TrustedProxies where
  allowedIps := if allowedIps.isEmpty then none else some (IpSet.ofNetworks allowedIps)
  realIpHeader := realIpHeader

def isTrusted (self : TrustedProxies) (ip : IpAddr) : Bool :=
  self.allowedIps.any fun set => set.contains ip

/-- A peer without an address is a Unix socket. -/
def trusts (self : TrustedProxies) (peer : Option IpAddr) : Bool :=
  peer.all fun ip => self.isTrusted ip.toCanonical

section Resolve

-- `str::parse::<IpAddr>`
variable (parseIp : Bytes → Option IpAddr)

def forwardedDirectives : List Bytes → Option IpAddr
  | [] => none
  | directive :: rest =>
    match splitOnce 61 directive with
    | some (key, val) =>
      if eqIgnoreAsciiCase (trim key) (bytes "for") then
        parseIp (stripNode (stripQuotes (trim val)))
      else forwardedDirectives rest
    | none => forwardedDirectives rest

def forwardedFor (element : Bytes) : Option IpAddr :=
  forwardedDirectives parseIp (splitAtEvery 59 element)

/-- How the walk over the hops of a line ends. -/
inductive Walk where
  | returned (client : Option IpAddr)
  | passed (last : Option IpAddr)
  deriving DecidableEq, Repr

variable (self : TrustedProxies) (parseHop : Bytes → Option IpAddr)

def walkHops (last : Option IpAddr) : List Bytes → Walk
  | [] => .passed last
  | hop :: rest =>
    match parseHop hop with
    | none => .returned none
    | some ip =>
      if self.isTrusted ip.toCanonical then walkHops (some ip.toCanonical) rest
      else .returned (some ip.toCanonical)

def walkLines (last : Option IpAddr) : List Bytes → Option IpAddr
  | [] => last
  | line :: rest =>
    if Readable line then
      match self.walkHops parseHop last (splitAtEvery comma line).reverse with
      | .returned client => client
      | .passed last => walkLines last rest
    else none

def rightmostUntrusted (lines : List Bytes) : Option IpAddr :=
  self.walkLines parseHop none lines.reverse

/-- How the hops of a header are parsed; a header of another name has none. -/
def hopParser (name : Bytes) : Option (Bytes → Option IpAddr) :=
  if name = bytes "forwarded" then some (forwardedFor parseIp)
  else if name = bytes "x-forwarded-for" then some fun hop => parseIp (trim hop)
  else none

def headerIp (headers : HeaderMap) : Option IpAddr :=
  self.realIpHeader.bind fun name =>
    match hopParser parseIp name with
    | some parseHop => self.rightmostUntrusted parseHop (headers.getAll name)
    | none =>
      (headers.get name).bind fun value =>
        if Readable value then (parseIp (trim value)).map IpAddr.toCanonical else none

def resolve (peer : Option IpAddr) (headers : HeaderMap) : ClientAddress :=
  match peer with
  | none =>
    match self.headerIp parseIp headers with
    | some ip => .resolved ip
    | none => .missingHeader
  | some peer =>
    if self.isTrusted peer.toCanonical then
      .resolved ((self.headerIp parseIp headers).getD peer.toCanonical)
    else .resolved peer.toCanonical

end Resolve

section Hops

variable {self : TrustedProxies} {parseHop : Bytes → Option IpAddr}

def hopAddress (parseHop : Bytes → Option IpAddr) (hop : Bytes) : Option IpAddr :=
  if Readable hop then (parseHop hop).map IpAddr.toCanonical else none

def TrustedHop (self : TrustedProxies) (parseHop : Bytes → Option IpAddr) (hop : Bytes) : Prop :=
  ∃ ip, hopAddress parseHop hop = some ip ∧ self.isTrusted ip = true

instance (self : TrustedProxies) (parseHop : Bytes → Option IpAddr) (hop : Bytes) :
    Decidable (self.TrustedHop parseHop hop) :=
  decidable_of_iff ((hopAddress parseHop hop).any self.isTrusted = true) (Option.any_eq_true ..)

/-- The part of the lines from the rightmost hop that is not trusted on: the rest of
its line, and the lines behind. -/
structure Trail (proxies : TrustedProxies) (parseHop : Bytes → Option IpAddr)
    (hop tail : Bytes) (behind : List Bytes) : Prop where
  starts : ∃ inner, splitAtEvery comma tail = hop :: inner ∧
    ∀ other ∈ inner, proxies.TrustedHop parseHop other
  untrusted : ¬ proxies.TrustedHop parseHop hop
  behind : ∀ line ∈ behind, ∀ other ∈ splitAtEvery comma line, proxies.TrustedHop parseHop other

/-- What stands in front of a hop in its line. -/
def IsLead (lead : Bytes) : Prop := lead = [] ∨ ∃ before, lead = before ++ [comma]

variable {hop tail lead : Bytes} {behind : List Bytes}

theorem hopAddress_eq_some {ip : IpAddr} (isAddress : hopAddress parseHop hop = some ip) :
    Readable hop ∧ ∃ parsed, parseHop hop = some parsed ∧ parsed.toCanonical = ip := by
  obtain ⟨readable, isMapped⟩ := Option.ite_none_right_eq_some.mp isAddress
  exact ⟨readable, Option.map_eq_some_iff.mp isMapped⟩

theorem walkHops_trusted {hops : List Bytes}
    (trusted : ∀ hop ∈ hops, self.TrustedHop parseHop hop) (last : Option IpAddr) :
    ∃ last', ∀ more, self.walkHops parseHop last (hops ++ more) =
      self.walkHops parseHop last' more := by
  induction hops generalizing last with
  | nil => exact ⟨last, fun _ => rfl⟩
  | cons hop rest ih =>
    obtain ⟨ip, isAddress, isTrusted⟩ := trusted hop mem_cons_self
    obtain ⟨_, parsed, isParsed, isIp⟩ := hopAddress_eq_some isAddress
    obtain ⟨last', same⟩ := ih (forall_mem_cons.mp trusted).2 (some ip)
    refine ⟨last', fun more => ?_⟩
    rw [cons_append, walkHops, isParsed]
    simp_all

theorem readable_append {first second : Bytes} :
    Readable (first ++ second) ↔ Readable first ∧ Readable second :=
  forall_mem_append

/-- A line is readable exactly when its hops are. -/
theorem readable_iff_hops (line : Bytes) :
    Readable line ↔ ∀ hop ∈ splitAtEvery comma line, Readable hop := by
  induction line using split_induction comma with
  | last part without => rw [splitAtEvery_of_not_mem without, forall_mem_singleton]
  | cut part rest without ih =>
    have visible : isVisibleAscii comma = true := by decide
    rw [splitAtEvery_append_sep without, forall_mem_cons, ← ih, readable_append]
    simp only [Readable, forall_mem_cons, visible, true_and]

theorem walkLines_trusted {lines : List Bytes}
    (trusted : ∀ line ∈ lines, ∀ hop ∈ splitAtEvery comma line, self.TrustedHop parseHop hop)
    (last : Option IpAddr) :
    ∃ last', ∀ more, self.walkLines parseHop last (lines ++ more) =
      self.walkLines parseHop last' more := by
  induction lines generalizing last with
  | nil => exact ⟨last, fun _ => rfl⟩
  | cons line rest ih =>
    have hops := trusted line mem_cons_self
    have readable : Readable line := by
      rw [readable_iff_hops]
      intro hop member
      obtain ⟨ip, isAddress, _⟩ := hops hop member
      exact (hopAddress_eq_some isAddress).1
    obtain ⟨passed, walks⟩ := walkHops_trusted
      (fun hop member => hops hop (mem_reverse.mp member)) last
    have walk : self.walkHops parseHop last (splitAtEvery comma line).reverse = .passed passed := by
      rw [← append_nil (splitAtEvery comma line).reverse, walks]
      rfl
    obtain ⟨last', same⟩ := ih (forall_mem_cons.mp trusted).2 passed
    refine ⟨last', fun more => ?_⟩
    rw [cons_append, walkLines, if_pos readable, walk]
    exact same more

theorem readable_tail
    (trail : self.Trail parseHop hop tail behind) : Readable tail ↔ Readable hop := by
  obtain ⟨inner, isSplit, trusted⟩ := trail.starts
  rw [readable_iff_hops, isSplit, forall_mem_cons]
  refine ⟨And.left, fun readable => ⟨readable, fun other member => ?_⟩⟩
  obtain ⟨ip, isAddress, _⟩ := trusted other member
  exact (hopAddress_eq_some isAddress).1

theorem splitAtEvery_lead (isLead : IsLead lead) (tail : Bytes) :
    ∃ earlier, splitAtEvery comma (lead ++ tail) = earlier ++ splitAtEvery comma tail := by
  rcases isLead with rfl | ⟨before, rfl⟩
  · exact ⟨[], rfl⟩
  · refine ⟨splitAtEvery comma before, ?_⟩
    rw [append_assoc, singleton_append, splitAtEvery_append]

theorem walkHops_untrusted (readable : Readable hop) (untrusted : ¬ self.TrustedHop parseHop hop)
    (last : Option IpAddr) (earlier : List Bytes) :
    self.walkHops parseHop last (hop :: earlier) = .returned (hopAddress parseHop hop) := by
  have isAddress : hopAddress parseHop hop = (parseHop hop).map IpAddr.toCanonical :=
    if_pos readable
  rw [walkHops, isAddress]
  cases parsed : parseHop hop with
  | none => rfl
  | some ip =>
    rw [parsed] at isAddress
    have notTrusted : ¬ self.isTrusted ip.toCanonical = true :=
      fun trusted => untrusted ⟨_, isAddress, trusted⟩
    simp only [if_neg notTrusted]
    rfl

/-- The client is the rightmost hop that is not trusted, but only when the part of its
line in front of it can be read. -/
theorem rightmostUntrusted_eq {left : List Bytes}
    (trail : self.Trail parseHop hop tail behind) (isLead : IsLead lead) :
    self.rightmostUntrusted parseHop (left ++ (lead ++ tail) :: behind) =
      if Readable lead then hopAddress parseHop hop else none := by
  obtain ⟨last, walks⟩ := walkLines_trusted
    (fun line member => trail.behind line (mem_reverse.mp member)) none
  have reversed : (left ++ (lead ++ tail) :: behind).reverse =
      behind.reverse ++ (lead ++ tail) :: left.reverse := by simp
  rw [rightmostUntrusted, reversed, walks, walkLines]
  have readable : Readable (lead ++ tail) ↔ Readable lead ∧ Readable hop := by
    rw [readable_append, readable_tail trail]
  by_cases leadReadable : Readable lead
  · by_cases hopReadable : Readable hop
    · obtain ⟨earlier, isSplit⟩ := splitAtEvery_lead isLead tail
      obtain ⟨inner, isTail, trusted⟩ := trail.starts
      obtain ⟨before, hops⟩ := walkHops_trusted
        (fun other member => trusted other (mem_reverse.mp member)) last
      have order : (earlier ++ hop :: inner).reverse =
          inner.reverse ++ hop :: earlier.reverse := by simp
      rw [if_pos (readable.mpr ⟨leadReadable, hopReadable⟩), if_pos leadReadable, isSplit,
        isTail, order, hops, walkHops_untrusted hopReadable trail.untrusted]
    · rw [if_neg fun both => hopReadable (readable.mp both).2, if_pos leadReadable, hopAddress,
        if_neg hopReadable]
  · rw [if_neg fun both => leadReadable (readable.mp both).1, if_neg leadReadable]

end Hops

section Client

variable (self : TrustedProxies) (parseIp : Bytes → Option IpAddr)

def answer (peer found : Option IpAddr) : ClientAddress :=
  match peer with
  | none => found.elim .missingHeader .resolved
  | some peer => .resolved (found.getD peer.toCanonical)

theorem resolve_of_trusts {peer : Option IpAddr} (trusted : self.trusts peer = true)
    (headers : HeaderMap) :
    self.resolve parseIp peer headers = answer peer (self.headerIp parseIp headers) := by
  cases peer with
  | none =>
    rw [resolve, answer]
    cases self.headerIp parseIp headers <;> rfl
  | some peer =>
    have isTrusted : self.isTrusted peer.toCanonical = true := by simpa [trusts] using trusted
    rw [resolve, if_pos isTrusted, answer]

theorem answer_some_ne {peer : Option IpAddr} (trusted : self.trusts peer = true) {ip : IpAddr}
    (untrusted : ¬ self.isTrusted ip = true) : answer peer (some ip) ≠ answer peer none := by
  cases peer with
  | none => simp [answer]
  | some peer =>
    have isTrusted : self.isTrusted peer.toCanonical = true := by simpa [trusts] using trusted
    intro same
    have isPeer : ip = peer.toCanonical := by simpa [answer] using same
    exact untrusted (isPeer ▸ isTrusted)

theorem headerIp_of_hops {self : TrustedProxies} {parseIp : Bytes → Option IpAddr}
    {headers : HeaderMap} {name : Bytes} {parseHop : Bytes → Option IpAddr}
    (isHeader : self.realIpHeader = some name) (isParser : hopParser parseIp name = some parseHop)
    {hop tail lead : Bytes} {left behind : List Bytes}
    (lines : headers.getAll name = left ++ (lead ++ tail) :: behind)
    (trail : self.Trail parseHop hop tail behind) (isLead : IsLead lead) :
    self.headerIp parseIp headers = if Readable lead then hopAddress parseHop hop else none := by
  simp only [headerIp, isHeader, Option.bind_some, isParser, lines]
  exact rightmostUntrusted_eq trail isLead

theorem answer_ite_iff {peer : Option IpAddr} (trusted : self.trusts peer = true)
    {found : Option IpAddr} (untrusted : ∀ ip, found = some ip → ¬ self.isTrusted ip = true)
    (first second : Prop) [Decidable first] [Decidable second] :
    answer peer (if first then found else none) = answer peer (if second then found else none) ↔
      found = none ∨ (first ↔ second) := by
  cases found with
  | none => simp
  | some ip =>
    have differs := self.answer_some_ne trusted (untrusted ip rfl)
    by_cases isFirst : first <;> by_cases isSecond : second
    · simp [isFirst, isSecond]
    · simpa [isFirst, isSecond] using differs
    · simpa [isFirst, isSecond] using differs.symm
    · simp [isFirst, isSecond]

end Client

/-- Two requests through the same trusted peer whose lines agree from the rightmost hop
that is not trusted on name the same client exactly when the parts in front of that hop
in its line are both readable or both not, or the hop has no address anyway.  A header of
another name has one address, that of its first line. -/
theorem resolve_agrees_iff (self : TrustedProxies) (parseIp : Bytes → Option IpAddr)
    {peer : Option IpAddr} (trusted : self.trusts peer = true) (headers others : HeaderMap) :
    (self.realIpHeader = none →
      self.resolve parseIp peer headers = self.resolve parseIp peer others) ∧
    (∀ name parseHop, self.realIpHeader = some name → hopParser parseIp name = some parseHop →
      ∀ hop tail behind lead lead' left left',
        self.Trail parseHop hop tail behind → IsLead lead → IsLead lead' →
        headers.getAll name = left ++ (lead ++ tail) :: behind →
        others.getAll name = left' ++ (lead' ++ tail) :: behind →
        (self.resolve parseIp peer headers = self.resolve parseIp peer others ↔
          hopAddress parseHop hop = none ∨ (Readable lead ↔ Readable lead'))) ∧
    (∀ name, self.realIpHeader = some name → hopParser parseIp name = none →
      ∀ hop behind left left',
        headers.getAll name = left ++ hop :: behind →
        others.getAll name = left' ++ hop :: behind →
        left.head? = left'.head? →
        self.resolve parseIp peer headers = self.resolve parseIp peer others) := by
  simp only [self.resolve_of_trusts parseIp trusted]
  refine ⟨?_, ?_, ?_⟩
  · intro noHeader
    simp only [headerIp, noHeader, Option.bind_none]
  · intro name parseHop isHeader isParser hop tail behind lead lead' left left' trail isLead
      isLead' lines lines'
    have untrusted : ∀ ip, hopAddress parseHop hop = some ip → ¬ self.isTrusted ip = true :=
      fun ip isAddress isTrusted => trail.untrusted ⟨ip, isAddress, isTrusted⟩
    rw [headerIp_of_hops isHeader isParser lines trail isLead,
      headerIp_of_hops isHeader isParser lines' trail isLead']
    exact self.answer_ite_iff trusted untrusted _ _
  · intro name isHeader isParser hop behind left left' lines lines' sameFirst
    have sameLine : headers.get name = others.get name := by
      rw [HeaderMap.get, HeaderMap.get, lines, lines', List.head?_append,
        List.head?_append, sameFirst]
    simp only [headerIp, isHeader, Option.bind_some, isParser, sameLine]

section Spoof

def parseOctet (text : Bytes) : Option (BitVec 8) :=
  let value := text.foldl (fun value b => 10 * value + (b.toNat - 48)) 0
  if text ≠ [] ∧ text.length ≤ 3 ∧ (∀ b ∈ text, 48 ≤ b ∧ b ≤ 57) ∧
      (text.head? = some 48 → text.length = 1) ∧ value ≤ 255 then
    some (BitVec.ofNat 8 value)
  else none

/-- `str::parse::<IpAddr>` on the dotted form. -/
def parseDotted (text : Bytes) : Option IpAddr :=
  match (splitAtEvery 46 text).mapM parseOctet with
  | some [first, second, third, fourth] => some (.v4 (first ++ second ++ third ++ fourth))
  | _ => none

/-- The proxies of `10.0.0.0/8`, which write `X-Forwarded-For`. -/
def privateProxies : TrustedProxies :=
  .new [.v4 ⟨0x0a000000#32, 8, by decide⟩] (some (bytes "x-forwarded-for"))

def forwardedLine (line : Bytes) : HeaderMap := ⟨[(bytes "x-forwarded-for", line)]⟩

def clientHop : Bytes := bytes " 203.0.113.7"

theorem clientHop_trail :
    privateProxies.Trail (fun hop => parseDotted (trim hop)) clientHop clientHop [] where
  starts := ⟨[], by decide +kernel, by simp⟩
  untrusted := by decide +kernel
  behind := by simp

theorem resolve_agrees_iff_client :
    privateProxies.resolve parseDotted (some (.v4 0x0a000001#32))
        (forwardedLine (bytes "1.2.3.4," ++ clientHop)) =
      privateProxies.resolve parseDotted (some (.v4 0x0a000001#32))
        (forwardedLine (bytes "junk, 10.0.0.9," ++ clientHop)) := by
  have agrees := resolve_agrees_iff privateProxies parseDotted
    (show privateProxies.trusts (some (.v4 0x0a000001#32)) = true by decide)
    (forwardedLine (bytes "1.2.3.4," ++ clientHop))
    (forwardedLine (bytes "junk, 10.0.0.9," ++ clientHop))
  have isParser : hopParser parseDotted (bytes "x-forwarded-for") =
      some fun hop => parseDotted (trim hop) := by
    rw [hopParser, if_neg (by decide +kernel), if_pos rfl]
  refine (agrees.2.1 (bytes "x-forwarded-for") _ rfl isParser clientHop clientHop []
    (bytes "1.2.3.4,") (bytes "junk, 10.0.0.9,") [] [] clientHop_trail
    (Or.inr ⟨bytes "1.2.3.4", by decide +kernel⟩)
    (Or.inr ⟨bytes "junk, 10.0.0.9", by decide +kernel⟩) ?_ ?_).mpr (Or.inr ?_)
  · simp [HeaderMap.getAll, forwardedLine]
  · simp [HeaderMap.getAll, forwardedLine]
  · decide +kernel

/-- A byte that is not ASCII, put to the left by the client, hides the client: the peer
is taken for it. -/
theorem unreadable_lead_hides_client :
    privateProxies.trusts (some (.v4 0x0a000001#32)) = true ∧
    privateProxies.Trail (fun hop => parseDotted (trim hop)) clientHop clientHop [] ∧
    privateProxies.resolve parseDotted (some (.v4 0x0a000001#32))
        (forwardedLine (bytes "1.2.3.4," ++ clientHop)) = .resolved (.v4 0xcb007107#32) ∧
    privateProxies.resolve parseDotted (some (.v4 0x0a000001#32))
        (forwardedLine ([255, 44] ++ clientHop)) = .resolved (.v4 0x0a000001#32) := by
  refine ⟨?_, clientHop_trail, ?_, ?_⟩ <;> decide +kernel

end Spoof

end TrustedProxies

end Ophan.Net
