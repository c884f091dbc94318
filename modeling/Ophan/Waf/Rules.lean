import Ophan.Http.Request
import Ophan.Http.StatusCode
import Ophan.Net.IpSet
import Ophan.Waf.Expr
import Ophan.Waf.Matchers

/-!
# Compiled rules of the header phases

A rule has a slot for each field; it fires when one of its slots matches, or,
when it is negated, when none does.
-/

namespace Ophan.Waf

open Ophan.Http Ophan.Net

structure IpCompiledRules where
  allowList : IpSet
  denyList : IpSet
  deriving DecidableEq, Repr

def IpCompiledRules.isDenied (rules : IpCompiledRules) (ip : IpAddr) : Bool :=
  if !rules.allowList.isEmpty && rules.allowList.contains ip then false
  else rules.denyList.contains ip

/-- The matchers of one rule in one header phase.  The maps are only gone
through, entry by entry. -/
structure CompiledRule where
  ip : Option IpCompiledRules
  methods : Option HttpMethodSet
  host : Option TextMatchers
  path : Option TextMatchers
  query : Option TextMatchers
  userAgent : Option TextMatchers
  headers : Option (List (Bytes × TextMatchers))
  cookies : Option (List (Bytes × TextMatchers))
  responseStatus : Option StatusCodeSet
  responseHeaders : Option (List (Bytes × TextMatchers))
  ruleMeta : Option RuleMeta
  negated : Bool

/-- `header::USER_AGENT` -/
def userAgentName : Bytes := bytes "user-agent"

namespace CompiledRule

def slotMatches (slot : Option TextMatchers) (input : Option Bytes) : Bool :=
  match slot, input with
  | some matchers, some text => matchers.isMatch text
  | _, _ => false

/-- Whether a header of the map has a first value that its matchers match. -/
def headersMatch (slot : Option (List (Bytes × TextMatchers))) (headers : HeaderMap) : Bool :=
  match slot with
  | some rules => rules.any fun (name, matchers) => slotMatches (some matchers) (headers.get name)
  | none => false

/-- Whether a client address, where it is known, is denied. -/
def ipMatches (slot : Option IpCompiledRules) (ip : Option IpAddr) : Bool :=
  match slot, ip with
  | some rules, some clientIp => rules.isDenied clientIp
  | _, _ => false

def matchesRequest (rule : CompiledRule) (ip : Option IpAddr)
    (host : Option Bytes) (req : RequestParts) : Bool :=
  ipMatches rule.ip ip ||
  rule.methods.any (·.containsMethod req.method) ||
  slotMatches rule.path (some req.path) ||
  slotMatches rule.host host ||
  slotMatches rule.query req.query ||
  slotMatches rule.userAgent (req.headers.get userAgentName) ||
  headersMatch rule.headers req.headers

/-- The status is looked up first; the lookup can panic. -/
def matchesResponse (rule : CompiledRule) (status : StatusCode)
    (headers : HeaderMap) : Outcome Empty Bool :=
  (match rule.responseStatus with
    | some set => set.contains status
    | none => .ok false).bind fun found => .ok (found || headersMatch rule.responseHeaders headers)

def evaluateRequest (rule : CompiledRule) (ip : Option IpAddr)
    (host : Option Bytes) (req : RequestParts) : Option RuleMeta :=
  if rule.negated then
    if rule.matchesRequest ip host req then none else rule.ruleMeta
  else if rule.matchesRequest ip host req then rule.ruleMeta
  else none

def evaluateResponse (rule : CompiledRule) (status : StatusCode)
    (headers : HeaderMap) : Outcome Empty (Option RuleMeta) :=
  (rule.matchesResponse status headers).bind fun found =>
    if rule.negated then .ok (if found then none else rule.ruleMeta)
    else .ok (if found then rule.ruleMeta else none)

end CompiledRule

structure CompiledBodyRule where
  literals : List Bytes
  regexes : List Bytes
  ruleMeta : Option RuleMeta
  negated : Bool
  deriving DecidableEq, Repr

end Ophan.Waf
