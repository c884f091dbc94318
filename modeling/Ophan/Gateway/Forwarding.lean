import Ophan.Gateway.IpText
import Ophan.Static.Ranges

/-!
# Forwarding headers sent upstream

`Forwarding::apply` rewrites `X-Forwarded-*` and `X-Real-IP`.  Only
`X-Forwarded-For` keeps what a trusted proxy sent.
-/

namespace Ophan.Http.HeaderMap

/-- `HeaderMap::insert`: the value is the only one of its name. -/
def insert (headers : HeaderMap) (name value : Bytes) : HeaderMap :=
  ⟨headers.entries.filter (fun entry => entry.1 ≠ name) ++ [(name, value)]⟩

/-- `HeaderMap::remove`, of every value of the name. -/
def remove (headers : HeaderMap) (name : Bytes) : HeaderMap :=
  ⟨headers.entries.filter fun entry => entry.1 ≠ name⟩

variable (headers : HeaderMap) {name other : Bytes}

theorem getAll_remove_self : (headers.remove name).getAll name = [] := by
  simp [remove, getAll, List.filter_filter]

theorem getAll_remove_of_ne (different : other ≠ name) :
    (headers.remove name).getAll other = headers.getAll other := by
  simp only [remove, getAll, List.filter_filter]
  congr 2
  funext entry
  by_cases isOther : entry.1 = other <;> simp [isOther, different]

theorem getAll_insert_self (value : Bytes) : (headers.insert name value).getAll name = [value] := by
  simp [insert, getAll, List.filter_filter]

theorem getAll_insert_of_ne (different : other ≠ name) (value : Bytes) :
    (headers.insert name value).getAll other = headers.getAll other := by
  rw [← headers.getAll_remove_of_ne different]
  simp [insert, remove, getAll, Ne.symm different]

end Ophan.Http.HeaderMap

namespace Ophan.Gateway

open Net Http
open Static (isHeaderValue isHeaderValue_append)

abbrev xForwardedFor : Bytes := bytes "x-forwarded-for"

abbrev xRealIp : Bytes := bytes "x-real-ip"

abbrev xForwardedProto : Bytes := bytes "x-forwarded-proto"

abbrev xForwardedHost : Bytes := bytes "x-forwarded-host"

structure Forwarding where
  /-- Socket address of the peer; `none` on Unix socket listeners. -/
  peer : Option IpAddr
  peerTrusted : Bool
  client : IpAddr
  scheme : Bytes
  /-- `Host` received from the client. -/
  host : Option Bytes

inductive ForwardingError where
  /-- The header value was refused: `invalid X-Forwarded-For`. -/
  | invalidXForwardedFor
  deriving DecidableEq, Repr

namespace Forwarding

def ipValue (ip : IpAddr) : Bytes :=
  if isHeaderValue (writeIp ip) then writeIp ip else []

variable (self : Forwarding)

/-- The arms of `apply` for `X-Forwarded-For`. -/
def applyChain (request : HeaderMap) : Outcome ForwardingError HeaderMap :=
  match request.get xForwardedFor, self.peer, self.peerTrusted with
  | some chain, some peer, true =>
    let value := chain ++ bytes ", " ++ writeIp peer
    if isHeaderValue value then .ok (request.insert xForwardedFor value)
    else .err .invalidXForwardedFor
  | some _, none, true => .ok request
  | _, some peer, _ =>
    if peer ≠ self.client then .ok (request.insert xForwardedFor (ipValue peer))
    else .ok (request.insert xForwardedFor (ipValue self.client))
  | _, none, _ => .ok (request.insert xForwardedFor (ipValue self.client))

def apply (request : HeaderMap) : Outcome ForwardingError HeaderMap :=
  (self.applyChain request).map fun request =>
    let request := request.insert xRealIp (ipValue self.client)
    let request := request.insert xForwardedProto self.scheme
    match self.host with
    | some host => request.insert xForwardedHost host
    | none => request.remove xForwardedHost

end Forwarding

/-- The addresses that the lines of a list header name: the elements between the
commas without the white space around them, and without the empty ones. -/
def hops (lines : List Bytes) : List Bytes :=
  lines.flatMap fun line => ((splitAtEvery comma line).map trim).filter (· ≠ [])

theorem hops_nil : hops [] = [] := rfl

theorem hops_cons (line : Bytes) (lines : List Bytes) :
    hops (line :: lines) = hops [line] ++ hops lines := by
  simp [hops]

theorem hops_eq_nil_iff (lines : List Bytes) :
    hops lines = [] ↔ ∀ line ∈ lines, hops [line] = [] := by
  simp [hops]

theorem isAddressByte_spec (b : UInt8) (isByte : isAddressByte b = true) :
    b ≠ comma ∧ isWhitespace b = false ∧ isHeaderValue [b] = true := by
  simp only [isAddressByte, Bool.or_eq_true, Bool.and_eq_true, decide_eq_true_eq,
    UInt8.le_iff_toNat_le, ← UInt8.toNat_inj, UInt8.reduceToNat] at isByte
  refine ⟨?_, ?_, ?_⟩
  · simp only [Ne, comma, ← UInt8.toNat_inj, UInt8.reduceToNat]
    omega
  · simp only [isWhitespace, Bool.or_eq_false_iff, Bool.and_eq_false_iff, decide_eq_false_iff_not,
      UInt8.le_iff_toNat_le, ← UInt8.toNat_inj, UInt8.reduceToNat]
    omega
  · simp only [isHeaderValue, List.all_cons, List.all_nil, Bool.and_true, Bool.or_eq_true,
      Bool.and_eq_true, decide_eq_true_eq, Ne, UInt8.le_iff_toNat_le, ← UInt8.toNat_inj,
      UInt8.reduceToNat]
    omega

theorem trim_of_forall {text : Bytes} (solid : ∀ b ∈ text, isWhitespace b = false) :
    trim text = text := by
  have dropNone : ∀ items : Bytes, (∀ b ∈ items, isWhitespace b = false) →
      items.dropWhile isWhitespace = items := by
    intro items solid
    cases items with
    | nil => rfl
    | cons b items => exact List.dropWhile_cons_of_neg (by simp [solid b List.mem_cons_self])
  rw [trim, dropNone text solid, dropNone text.reverse (by simpa using solid), List.reverse_reverse]

theorem isHeaderValue_writeIp (ip : IpAddr) : isHeaderValue (writeIp ip) = true := by
  rw [isHeaderValue, List.all_eq_true]
  intro b isMem
  have isByte := (isAddressByte_spec b ((addressText_writeIp ip).isBytes b isMem)).2.2
  simpa [isHeaderValue] using isByte

theorem ipValue_eq (ip : IpAddr) : Forwarding.ipValue ip = writeIp ip :=
  if_pos (isHeaderValue_writeIp ip)

theorem trim_writeIp (ip : IpAddr) : trim (writeIp ip) = writeIp ip :=
  trim_of_forall fun b isMem =>
    (isAddressByte_spec b ((addressText_writeIp ip).isBytes b isMem)).2.1

theorem comma_notMem_writeIp (ip : IpAddr) : comma ∉ writeIp ip := fun isMem =>
  (isAddressByte_spec comma ((addressText_writeIp ip).isBytes comma isMem)).1 rfl

theorem hops_writeIp (ip : IpAddr) : hops [writeIp ip] = [writeIp ip] := by
  simp [hops, splitAtEvery_of_not_mem (comma_notMem_writeIp ip), trim_writeIp, writeIp_ne_nil]

/-- The address behind a chain is one more hop. -/
theorem hops_append_writeIp (chain : Bytes) (ip : IpAddr) :
    hops [chain ++ bytes ", " ++ writeIp ip] = hops [chain] ++ [writeIp ip] := by
  have isSpaced : bytes ", " = [comma, 32] := by decide +kernel
  have notMem : comma ∉ 32 :: writeIp ip := by
    rw [List.mem_cons, not_or]
    exact ⟨by decide, comma_notMem_writeIp ip⟩
  have isTrimmed : trim (32 :: writeIp ip) = writeIp ip := by
    change trim (writeIp ip) = _
    exact trim_writeIp ip
  have isSplit : splitAtEvery comma (chain ++ comma :: 32 :: writeIp ip) =
      splitAtEvery comma chain ++ [32 :: writeIp ip] := by
    rw [splitAtEvery_append, splitAtEvery_of_not_mem notMem]
  rw [isSpaced, List.append_assoc]
  change hops [chain ++ comma :: 32 :: writeIp ip] = _
  simp [hops, isSplit, isTrimmed, writeIp_ne_nil]

section Apply

variable (self : Forwarding) (request : HeaderMap)

def rewriteOthers (chained : HeaderMap) : HeaderMap :=
  let rewritten := (chained.insert xRealIp (Forwarding.ipValue self.client)).insert
    xForwardedProto self.scheme
  match self.host with
  | some host => rewritten.insert xForwardedHost host
  | none => rewritten.remove xForwardedHost

theorem apply_eq : self.apply request = (self.applyChain request).map (rewriteOthers self) := rfl

theorem getAll_rewriteOthers_of_ne (chained : HeaderMap) {name : Bytes}
    (notReal : name ≠ xRealIp) (notProto : name ≠ xForwardedProto)
    (notHost : name ≠ xForwardedHost) :
    (rewriteOthers self chained).getAll name = chained.getAll name := by
  rw [rewriteOthers]
  cases self.host with
  | none =>
    rw [HeaderMap.getAll_remove_of_ne _ notHost, HeaderMap.getAll_insert_of_ne _ notProto,
      HeaderMap.getAll_insert_of_ne _ notReal]
  | some host =>
    rw [HeaderMap.getAll_insert_of_ne _ notHost, HeaderMap.getAll_insert_of_ne _ notProto,
      HeaderMap.getAll_insert_of_ne _ notReal]

/-- `apply` decides on `X-Forwarded-For` in `applyChain` only. -/
theorem getAll_apply {chained : HeaderMap} (isOk : self.applyChain request = .ok chained) :
    ∃ sent, self.apply request = .ok sent ∧
      sent.getAll xForwardedFor = chained.getAll xForwardedFor := by
  refine ⟨rewriteOthers self chained, by rw [apply_eq, isOk, Outcome.map_ok], ?_⟩
  exact getAll_rewriteOthers_of_ne self chained (by decide +kernel) (by decide +kernel)
    (by decide +kernel)

/-- The headers other than `X-Forwarded-For` are always rewritten, so the upstream
never sees the values of the client. -/
theorem apply_rewrites {sent : HeaderMap} (isOk : self.apply request = .ok sent) :
    sent.getAll xRealIp = [writeIp self.client] ∧
      sent.getAll xForwardedProto = [self.scheme] ∧
      sent.getAll xForwardedHost = self.host.toList := by
  rw [apply_eq] at isOk
  obtain ⟨chained, _, isSent⟩ := Outcome.map_eq_ok_iff.mp isOk
  have realProto : xRealIp ≠ xForwardedProto := by decide +kernel
  have realHost : xRealIp ≠ xForwardedHost := by decide +kernel
  have protoHost : xForwardedProto ≠ xForwardedHost := by decide +kernel
  rw [← isSent, rewriteOthers, ← ipValue_eq]
  cases self.host with
  | none =>
    rw [HeaderMap.getAll_remove_of_ne _ realHost, HeaderMap.getAll_insert_of_ne _ realProto,
      HeaderMap.getAll_insert_self, HeaderMap.getAll_remove_of_ne _ protoHost,
      HeaderMap.getAll_insert_self, HeaderMap.getAll_remove_self]
    exact ⟨rfl, rfl, rfl⟩
  | some host =>
    rw [HeaderMap.getAll_insert_of_ne _ realHost, HeaderMap.getAll_insert_of_ne _ realProto,
      HeaderMap.getAll_insert_self, HeaderMap.getAll_insert_of_ne _ protoHost,
      HeaderMap.getAll_insert_self, HeaderMap.getAll_insert_self]
    exact ⟨rfl, rfl, rfl⟩

variable {self request}

theorem applyChain_of_lines {peer : IpAddr} (isPeer : self.peer = some peer)
    (trusted : self.peerTrusted = true) {line : Bytes} {lines : List Bytes}
    (isLines : request.getAll xForwardedFor = line :: lines) (isValue : isHeaderValue line = true) :
    self.applyChain request =
      .ok (request.insert xForwardedFor (line ++ bytes ", " ++ writeIp peer)) := by
  have isGet : request.get xForwardedFor = some line := by
    rw [HeaderMap.get, isLines, List.head?_cons]
  have isValue : isHeaderValue (line ++ bytes ", " ++ writeIp peer) = true :=
    isHeaderValue_append (isHeaderValue_append isValue (by decide +kernel))
      (isHeaderValue_writeIp peer)
  rw [Forwarding.applyChain, isGet, isPeer, trusted]
  exact if_pos isValue

theorem applyChain_of_no_line {peer : IpAddr} (isPeer : self.peer = some peer)
    (isLines : request.getAll xForwardedFor = []) :
    self.applyChain request = .ok (request.insert xForwardedFor (writeIp peer)) := by
  have isGet : request.get xForwardedFor = none := by rw [HeaderMap.get, isLines, List.head?_nil]
  rw [Forwarding.applyChain, isGet, isPeer]
  by_cases isClient : peer = self.client
  · simp [← isClient, ipValue_eq]
  · simp [isClient, ipValue_eq]

/-- Of a peer that is not trusted only its address goes upstream: what the request
itself says about the client is dropped. -/
theorem apply_untrusted (untrusted : self.peerTrusted = false) :
    ∃ sent, self.apply request = .ok sent ∧
      sent.getAll xForwardedFor = [writeIp (self.peer.getD self.client)] ∧
      sent.getAll xRealIp = [writeIp self.client] ∧
      sent.getAll xForwardedProto = [self.scheme] ∧
      sent.getAll xForwardedHost = self.host.toList := by
  have isChain : self.applyChain request =
      .ok (request.insert xForwardedFor (writeIp (self.peer.getD self.client))) := by
    rw [Forwarding.applyChain, untrusted]
    cases self.peer with
    | none => cases request.get xForwardedFor <;> simp [ipValue_eq]
    | some peer =>
      by_cases isClient : peer = self.client <;>
        cases request.get xForwardedFor <;> simp [isClient, ipValue_eq]
  obtain ⟨sent, isOk, isSent⟩ := getAll_apply self request isChain
  exact ⟨sent, isOk, by rw [isSent, HeaderMap.getAll_insert_self], apply_rewrites self request isOk⟩

theorem apply_untrusted_spoofed :
    let self : Forwarding :=
      { peer := some (.v4 1#32), peerTrusted := false, client := .v4 1#32,
        scheme := [], host := none }
    ∃ sent, self.apply ⟨[(xForwardedFor, bytes "::")]⟩ = .ok sent ∧
      sent.getAll xForwardedFor = [writeIp (.v4 1#32)] :=
  (apply_untrusted rfl).imp fun _ sent => ⟨sent.1, sent.2.1⟩

/-- The hops that a trusted peer sent go upstream with its own address behind them
exactly when every line behind the first one is without a hop. -/
theorem apply_appends_peer_iff {peer : IpAddr} (isPeer : self.peer = some peer)
    (trusted : self.peerTrusted = true)
    (values : ∀ line ∈ request.getAll xForwardedFor, isHeaderValue line = true) :
    (∃ sent, self.apply request = .ok sent ∧
        hops (sent.getAll xForwardedFor) = hops (request.getAll xForwardedFor) ++ [writeIp peer]) ↔
      ∀ line ∈ (request.getAll xForwardedFor).tail, hops [line] = [] := by
  cases isLines : request.getAll xForwardedFor with
  | nil =>
    obtain ⟨sent, isOk, isSent⟩ := getAll_apply self request (applyChain_of_no_line isPeer isLines)
    rw [HeaderMap.getAll_insert_self] at isSent
    refine ⟨fun _ line isMem => (nomatch isMem), fun _ => ⟨sent, isOk, ?_⟩⟩
    rw [isSent, hops_writeIp, hops_nil, List.nil_append]
  | cons line lines =>
    rw [isLines, List.forall_mem_cons] at values
    obtain ⟨sent, isOk, isSent⟩ := getAll_apply self request
      (applyChain_of_lines isPeer trusted isLines values.1)
    rw [HeaderMap.getAll_insert_self] at isSent
    have isHops : hops (sent.getAll xForwardedFor) = hops [line] ++ [writeIp peer] := by
      rw [isSent, hops_append_writeIp]
    rw [hops_cons, List.append_assoc, List.tail_cons, ← hops_eq_nil_iff]
    constructor
    · simp_all
    · simp_all

theorem apply_appends_peer_one_line :
    let self : Forwarding :=
      { peer := some (.v4 0x0a000001#32), peerTrusted := true, client := .v4 0xc6336407#32,
        scheme := bytes "https", host := none }
    let request : HeaderMap := ⟨[(xForwardedFor, bytes "198.51.100.7, 203.0.113.4")]⟩
    ∃ sent, self.apply request = .ok sent ∧
      hops (sent.getAll xForwardedFor) =
        hops (request.getAll xForwardedFor) ++ [writeIp (.v4 0x0a000001#32)] :=
  (apply_appends_peer_iff rfl rfl (by decide +kernel)).mpr (by decide +kernel)

/-- Only the first of two lines is kept. -/
theorem second_line_is_lost :
    let self : Forwarding :=
      { peer := some (.v4 0x0a000001#32), peerTrusted := true, client := .v4 0xcb007104#32,
        scheme := bytes "https", host := none }
    let request : HeaderMap :=
      ⟨[(xForwardedFor, bytes "198.51.100.7"), (xForwardedFor, bytes "203.0.113.4")]⟩
    hops (request.getAll xForwardedFor) = [bytes "198.51.100.7", bytes "203.0.113.4"] ∧
      (self.apply request).map (fun sent => hops (sent.getAll xForwardedFor)) =
        .ok [bytes "198.51.100.7", bytes "10.0.0.1"] := by
  decide +kernel

end Apply

end Ophan.Gateway
