import Ophan.Lib.Outcome
import Ophan.Lib.Utf8
import Ophan.Net.IpNet

/-!
# Rule expressions

The tree that a rule file is parsed to, and the checks the compiler makes of
one predicate: its field has to occur in its phase, its operator has to be
supported for the field, and its value has to fit the operator.
-/

namespace Ophan.Waf

open Ophan.Net

inductive OwaspCategory where
  | a01BrokenAccessControl
  | a02CryptographicFailures
  | a03Injection
  | a04InsecureDesign
  | a05SecurityMisconfiguration
  | a06VulnerableAndOutdatedComponents
  | a07IdentificationAndAuthenticationFailures
  | a08SoftwareAndDataIntegrityFailures
  | a09SecurityLoggingAndMonitoringFailures
  | a10ServerSideRequestForgery
  | customBotProtection
  | customIpReputation
  | customProtocolAnomaly
  | customRateLimiting
  deriving DecidableEq, Repr

def OwaspCategory.code : OwaspCategory → String
  | .a01BrokenAccessControl => "A01:2021"
  | .a02CryptographicFailures => "A02:2021"
  | .a03Injection => "A03:2021"
  | .a04InsecureDesign => "A04:2021"
  | .a05SecurityMisconfiguration => "A05:2021"
  | .a06VulnerableAndOutdatedComponents => "A06:2021"
  | .a07IdentificationAndAuthenticationFailures => "A07:2021"
  | .a08SoftwareAndDataIntegrityFailures => "A08:2021"
  | .a09SecurityLoggingAndMonitoringFailures => "A09:2021"
  | .a10ServerSideRequestForgery => "A10:2021"
  | .customBotProtection => "C100:BOT"
  | .customIpReputation => "C101:IP_REP"
  | .customProtocolAnomaly => "C102:PROTO"
  | .customRateLimiting => "C103:RATE"

inductive RuleAction where
  | allow
  | log
  | block (status : UInt16)
  | challenge
  deriving DecidableEq, Repr

structure RuleMeta where
  id : String
  score : UInt32
  action : RuleAction
  category : OwaspCategory
  deriving DecidableEq, Repr

inductive Phase where
  | inboundHeaders
  | inboundBody
  | outboundHeaders
  | outboundBody
  deriving DecidableEq, Repr

inductive Operator where
  | eq
  | ne
  | lt
  | le
  | gt
  | ge
  | isIn
  | contains
  | startsWith
  | endsWith
  | regex
  | glob
  deriving DecidableEq, Repr

inductive Field where
  | method
  | host
  | path
  | query
  | header (name : Bytes)
  | cookie (name : Bytes)
  | ip
  | userAgent
  | body
  | statusCode
  deriving DecidableEq, Repr

/-- A compiled `regex::Regex`: its source text and what it matches.  The flags
it was built with are part of what it matches, not of its source. -/
structure Regex where
  source : Bytes
  isMatch : Bytes → Bool

/-- The right-hand side of a predicate; a float is kept as its bits. -/
inductive Value where
  | string (text : Bytes)
  | regex (compiled : Regex)
  | glob (text : Bytes)
  | ip (network : IpNet)
  | integer (number : Int)
  | float (bits : UInt64)
  | bool (flag : Bool)
  | list (values : List Value)

structure Predicate where
  phase : Phase
  field : Field
  op : Operator
  value : Value
  ruleMeta : RuleMeta

inductive Expr where
  | allOf (children : List Expr)
  | anyOf (children : List Expr)
  | not (inner : Expr)
  | predicate (leaf : Predicate)

mutual

def Expr.predicates : Expr → List Predicate
  | .allOf children => predicatesOf children
  | .anyOf children => predicatesOf children
  | .not inner => inner.predicates
  | .predicate leaf => [leaf]

def predicatesOf : List Expr → List Predicate
  | [] => []
  | child :: rest => child.predicates ++ predicatesOf rest

end

mutual

/-- The documented value of a tree: AND, OR and NOT over its predicates. -/
def Expr.Holds (truth : Predicate → Prop) : Expr → Prop
  | .allOf children => AllHold truth children
  | .anyOf children => AnyHolds truth children
  | .not inner => ¬ inner.Holds truth
  | .predicate leaf => truth leaf

def AllHold (truth : Predicate → Prop) : List Expr → Prop
  | [] => True
  | child :: rest => child.Holds truth ∧ AllHold truth rest

def AnyHolds (truth : Predicate → Prop) : List Expr → Prop
  | [] => False
  | child :: rest => child.Holds truth ∨ AnyHolds truth rest

end

/-- Why a rule set is rejected: the message of each kind names these. -/
inductive CompileError where
  | fieldPhase (field : Field) (phase : Phase)
  | operator (op : Operator) (field : Field)
  | valueType (value : Value) (op : Operator) (field : Field)
  | unsupportedField (field : Field) (phase : Phase)

def fieldInPhase : Phase → Field → Bool
  | .inboundHeaders, .ip | .inboundHeaders, .method | .inboundHeaders, .host
  | .inboundHeaders, .path | .inboundHeaders, .query
  | .inboundHeaders, .userAgent | .inboundHeaders, .header _
  | .inboundHeaders, .cookie _ => true
  | .inboundBody, .body => true
  | .outboundHeaders, .statusCode | .outboundHeaders, .header _ => true
  | .outboundBody, .body => true
  | _, _ => false

def validateFieldPhase (p : Predicate) : Outcome CompileError Unit :=
  if fieldInPhase p.phase p.field then .ok ()
  else .err (.fieldPhase p.field p.phase)

/-- The field and operator matrix. -/
def operatorSupported : Field → Operator → Bool
  | .method, .eq | .method, .isIn => true
  | .ip, .eq | .ip, .isIn => true
  | .host, .eq | .host, .contains | .host, .startsWith | .host, .endsWith => true
  | .path, .eq | .path, .contains | .path, .startsWith | .path, .endsWith
  | .path, .regex | .path, .glob => true
  | .query, .eq | .query, .contains | .query, .startsWith | .query, .endsWith
  | .query, .regex => true
  | .header _, .eq | .header _, .contains | .header _, .startsWith
  | .header _, .endsWith | .header _, .regex => true
  | .cookie _, .eq | .cookie _, .contains | .cookie _, .startsWith
  | .cookie _, .endsWith | .cookie _, .regex => true
  | .userAgent, .eq | .userAgent, .contains | .userAgent, .startsWith
  | .userAgent, .regex => true
  | .body, .contains | .body, .regex => true
  | .statusCode, .eq | .statusCode, .contains | .statusCode, .isIn => true
  | _, _ => false

/-- Whether a value fits an operator, whatever the field is. -/
def valueFits : Operator → Value → Bool
  | .eq, .string _ | .contains, .string _ | .startsWith, .string _
  | .endsWith, .string _ => true
  | .isIn, .list _ => true
  | .regex, .regex _ => true
  | .glob, .glob _ => true
  | .eq, .ip _ | .isIn, .ip _ => true
  | .eq, .integer _ | .isIn, .integer _ => true
  | _, _ => false

def validateMatrix (p : Predicate) : Outcome CompileError Unit :=
  if operatorSupported p.field p.op then
    if valueFits p.op p.value then .ok ()
    else .err (.valueType p.value p.op p.field)
  else .err (.operator p.op p.field)

end Ophan.Waf
