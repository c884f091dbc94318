import Mathlib.Data.List.AList
import Ophan.Waf.Body

/-!
# The rule compiler

A rule set is compiled rule by rule.  The predicates of a rule are collected
in accumulators, one for each phase, and an accumulator that is not empty
becomes a compiled rule of its phase.  The methods of a new accumulator are
`HttpMethodSet::default()`, which is the set of all standard methods.
-/

namespace Ophan.Waf

open Ophan.Http Ophan.Net

/-- A map from names to the texts collected for them. -/
abbrev BuilderMap := AList fun _ : Bytes => TextMatcherBuilder

/-- The matchers of one rule in one header phase, as they are collected. -/
structure FieldAccumulator where
  allowIps : IpSetBuilder
  denyIps : IpSetBuilder
  methods : HttpMethodSet
  host : TextMatcherBuilder
  path : TextMatcherBuilder
  query : TextMatcherBuilder
  userAgent : TextMatcherBuilder
  headers : BuilderMap
  cookies : BuilderMap
  responseStatus : StatusCodeSet
  responseHeaders : BuilderMap

namespace FieldAccumulator

def default : FieldAccumulator where
  allowIps := .empty
  denyIps := .empty
  methods := .all
  host := .empty
  path := .empty
  query := .empty
  userAgent := .empty
  headers := ∅
  cookies := ∅
  responseStatus := .new
  responseHeaders := ∅

def isEmpty (acc : FieldAccumulator) : Bool :=
  acc.allowIps.isEmpty && acc.denyIps.isEmpty && acc.methods.isEmpty &&
    acc.host.isEmpty && acc.path.isEmpty && acc.query.isEmpty &&
    acc.userAgent.isEmpty && acc.headers.entries.isEmpty &&
    acc.cookies.entries.isEmpty && acc.responseStatus.isEmpty &&
    acc.responseHeaders.entries.isEmpty

end FieldAccumulator

structure BodyAccumulator where
  literals : List Bytes
  regexes : List Bytes
  deriving DecidableEq, Repr

namespace BodyAccumulator

def empty : BodyAccumulator := ⟨[], []⟩

def isEmpty (acc : BodyAccumulator) : Bool := acc.literals.isEmpty && acc.regexes.isEmpty

end BodyAccumulator

structure RuleBuilder where
  negated : Bool
  ruleMeta : Option RuleMeta
  inboundHeaders : FieldAccumulator
  outboundHeaders : FieldAccumulator
  inboundBody : BodyAccumulator
  outboundBody : BodyAccumulator

def RuleBuilder.default : RuleBuilder where
  negated := false
  ruleMeta := none
  inboundHeaders := .default
  outboundHeaders := .default
  inboundBody := .empty
  outboundBody := .empty

structure CompiledWafRules where
  requestHeaders : List CompiledRule
  requestBody : List CompiledBodyRule
  responseHeaders : List CompiledRule
  responseBody : List CompiledBodyRule
  requestBodyPhase : CompiledBodyPhase
  responseBodyPhase : CompiledBodyPhase

section Predicates

/-- Collect the text of a predicate; a value that the matrix lets through for
another field is `unreachable!()`. -/
def TextMatcherBuilder.add (op : Operator) (value : Value)
    (builder : TextMatcherBuilder) : Outcome CompileError TextMatcherBuilder :=
  match op, value with
  | .eq, .string text => .ok { builder with eqPatterns := builder.eqPatterns ++ [text] }
  | .contains, .string text => .ok { builder with exactPatterns := builder.exactPatterns ++ [text] }
  | .startsWith, .string text =>
    .ok { builder with prefixPatterns := builder.prefixPatterns ++ [text] }
  | .endsWith, .string text =>
    .ok { builder with suffixPatterns := builder.suffixPatterns ++ [text] }
  | .regex, .regex compiled =>
    .ok { builder with regexPatterns := builder.regexPatterns ++ [compiled.source] }
  | .glob, .glob text => .ok { builder with globPatterns := builder.globPatterns ++ [text] }
  | _, _ => .panic

/-- `entry(name).or_default()` and a change of the entry. -/
def BuilderMap.change (map : BuilderMap) (name : Bytes)
    (f : TextMatcherBuilder → Outcome CompileError TextMatcherBuilder) :
    Outcome CompileError BuilderMap :=
  (f ((map.lookup name).getD .empty)).map fun builder => map.insert name builder

def BodyAccumulator.add (op : Operator) (value : Value) (acc : BodyAccumulator) :
    Outcome CompileError BodyAccumulator :=
  match op, value with
  | .contains, .string text => .ok { acc with literals := acc.literals ++ [text] }
  | .regex, .regex compiled => .ok { acc with regexes := acc.regexes ++ [compiled.source] }
  | _, _ => .panic

def addIp (op : Operator) (value : Value) (builder : IpSetBuilder) :
    Outcome CompileError IpSetBuilder :=
  match op, value with
  | .eq, .ip network | .isIn, .ip network => .ok (builder.insertNetwork network)
  | _, _ => .panic

/-- A method that is not one of the standard names adds no bit. -/
def addMethod (methods : HttpMethodSet) : Value → HttpMethodSet
  | .string text => methods.addStandard (HttpMethod.ofStr text)
  | _ => methods

def addMethods (op : Operator) (value : Value) (methods : HttpMethodSet) :
    Outcome CompileError HttpMethodSet :=
  match op, value with
  | .eq, .string text => .ok (addMethod methods (.string text))
  | .isIn, .list values => .ok (values.foldl addMethod methods)
  | _, _ => .panic

/-- `*n as u16` -/
def asU16 (number : Int) : Nat := (number % 65536).toNat

/-- A number that is no status code after the cast is skipped. -/
def addStatus (set : StatusCodeSet) : Value → Outcome CompileError StatusCodeSet
  | .integer number =>
    match StatusCode.fromU16 (asU16 number) with
    | some status => set.insert (.code status)
    | none => .ok set
  | _ => .ok set

def addStatusList (set : StatusCodeSet) : List Value → Outcome CompileError StatusCodeSet
  | [] => .ok set
  | value :: rest => (addStatus set value).bind fun next => addStatusList next rest

/-- The class that a text such as `5xx` names. -/
def statusClass (text : Bytes) : Option StatusPattern :=
  if text = bytes "1xx" then some .informational
  else if text = bytes "2xx" then some .success
  else if text = bytes "3xx" then some .redirection
  else if text = bytes "4xx" then some .clientError
  else if text = bytes "5xx" then some .serverError
  else none

def addStatuses (op : Operator) (value : Value) (set : StatusCodeSet) :
    Outcome CompileError StatusCodeSet :=
  match op, value with
  | .eq, .integer number => addStatus set (.integer number)
  | .isIn, .list values => addStatusList set values
  | .contains, .string text =>
    match statusClass text with
    | some pattern => set.insert pattern
    | none => .ok set
  | _, _ => .panic

namespace FieldAccumulator

def add (p : Predicate) (acc : FieldAccumulator) : Outcome CompileError FieldAccumulator :=
  match p.field with
  | .ip => (addIp p.op p.value acc.denyIps).map fun ips => { acc with denyIps := ips }
  | .method =>
    (addMethods p.op p.value acc.methods).map fun methods => { acc with methods := methods }
  | .statusCode =>
    (addStatuses p.op p.value acc.responseStatus).map fun set => { acc with responseStatus := set }
  | .host => (acc.host.add p.op p.value).map fun text => { acc with host := text }
  | .path => (acc.path.add p.op p.value).map fun text => { acc with path := text }
  | .query => (acc.query.add p.op p.value).map fun text => { acc with query := text }
  | .userAgent => (acc.userAgent.add p.op p.value).map fun text => { acc with userAgent := text }
  | .header name =>
    (acc.headers.change name (·.add p.op p.value)).map fun map => { acc with headers := map }
  | .cookie name =>
    (acc.cookies.change name (·.add p.op p.value)).map fun map => { acc with cookies := map }
  | .body => .err (.unsupportedField p.field p.phase)

end FieldAccumulator

namespace RuleBuilder

def onFields (builder : RuleBuilder) (phase : Phase)
    (f : FieldAccumulator → Outcome CompileError FieldAccumulator) :
    Outcome CompileError RuleBuilder :=
  match phase with
  | .inboundHeaders =>
    (f builder.inboundHeaders).map fun acc => { builder with inboundHeaders := acc }
  | .outboundHeaders =>
    (f builder.outboundHeaders).map fun acc => { builder with outboundHeaders := acc }
  | .inboundBody => .panic
  | .outboundBody => .panic

def onBody (builder : RuleBuilder) (phase : Phase)
    (f : BodyAccumulator → Outcome CompileError BodyAccumulator) :
    Outcome CompileError RuleBuilder :=
  match phase with
  | .inboundBody => (f builder.inboundBody).map fun acc => { builder with inboundBody := acc }
  | .outboundBody => (f builder.outboundBody).map fun acc => { builder with outboundBody := acc }
  | .inboundHeaders => .panic
  | .outboundHeaders => .panic

def withMeta (builder : RuleBuilder) (ruleMeta : RuleMeta) : RuleBuilder :=
  { builder with ruleMeta := some (builder.ruleMeta.getD ruleMeta) }

end RuleBuilder

def compilePredicate (p : Predicate) (builder : RuleBuilder) : Outcome CompileError RuleBuilder :=
  (validateFieldPhase p).bind fun _ =>
    (validateMatrix p).bind fun _ =>
      match p.field with
      | .body => (builder.withMeta p.ruleMeta).onBody p.phase (·.add p.op p.value)
      | _ => (builder.withMeta p.ruleMeta).onFields p.phase (·.add p)

mutual

/-- Collect the predicates of a rule.  A negation flips the flag for the time of
its operand. -/
def compileRule : Expr → RuleBuilder → Outcome CompileError RuleBuilder
  | .predicate p, builder => compilePredicate p builder
  | .not inner, builder =>
    (compileRule inner { builder with negated := !builder.negated }).map
      fun after => { after with negated := !after.negated }
  | .anyOf children, builder => compileChildren children builder
  | .allOf children, builder => compileChildren children builder

def compileChildren : List Expr → RuleBuilder → Outcome CompileError RuleBuilder
  | [], builder => .ok builder
  | child :: rest, builder =>
    (compileRule child builder).bind fun after => compileChildren rest after

end

end Predicates

section Rules

variable (libs : Libraries)

/-- The matchers of a map of names; names whose texts build nothing are left
out. -/
def buildMap (map : BuilderMap) : Option (List (Bytes × TextMatchers)) :=
  if map.entries.isEmpty then none
  else
    let compiled := map.entries.filterMap fun entry =>
      (entry.2.build libs).map fun matchers => (entry.1, matchers)
    if compiled.isEmpty then none else some compiled

def finalizeFieldRule (acc : FieldAccumulator) (negated : Bool)
    (ruleMeta : Option RuleMeta) : CompiledRule where
  ip :=
    if !acc.allowIps.isEmpty || !acc.denyIps.isEmpty then
      some ⟨acc.allowIps.build, acc.denyIps.build⟩
    else none
  methods := if acc.methods.isEmpty then none else some acc.methods
  host := acc.host.build libs
  path := acc.path.build libs
  query := acc.query.build libs
  userAgent := acc.userAgent.build libs
  headers := buildMap libs acc.headers
  cookies := buildMap libs acc.cookies
  responseStatus := if acc.responseStatus.isEmpty then none else some acc.responseStatus
  responseHeaders := buildMap libs acc.responseHeaders
  ruleMeta := ruleMeta
  negated := negated

def fieldRule (acc : FieldAccumulator) (negated : Bool)
    (ruleMeta : Option RuleMeta) : List CompiledRule :=
  if acc.isEmpty then [] else [finalizeFieldRule libs acc negated ruleMeta]

def bodyRule (acc : BodyAccumulator) (negated : Bool)
    (ruleMeta : Option RuleMeta) : List CompiledBodyRule :=
  if acc.isEmpty then [] else [⟨acc.literals, acc.regexes, ruleMeta, negated⟩]

structure RuleLists where
  requestHeaders : List CompiledRule
  requestBody : List CompiledBodyRule
  responseHeaders : List CompiledRule
  responseBody : List CompiledBodyRule

def pushRule (builder : RuleBuilder) (lists : RuleLists) : RuleLists where
  requestHeaders := lists.requestHeaders ++
    fieldRule libs builder.inboundHeaders builder.negated builder.ruleMeta
  requestBody := lists.requestBody ++ bodyRule builder.inboundBody builder.negated builder.ruleMeta
  responseHeaders := lists.responseHeaders ++
    fieldRule libs builder.outboundHeaders builder.negated builder.ruleMeta
  responseBody := lists.responseBody ++
    bodyRule builder.outboundBody builder.negated builder.ruleMeta

def compileRules : List Expr → RuleLists → Outcome CompileError RuleLists
  | [], lists => .ok lists
  | rule :: rest, lists =>
    (compileRule rule .default).bind fun builder => compileRules rest (pushRule libs builder lists)

/-- The rules of a root: the children of an `AllOf`, or the root itself. -/
def rulesOf : Expr → List Expr
  | .allOf children => children
  | other => [other]

def compile (root : Expr) : Outcome CompileError CompiledWafRules :=
  (compileRules libs (rulesOf root) ⟨[], [], [], []⟩).map fun lists =>
    { requestHeaders := lists.requestHeaders
      requestBody := lists.requestBody
      responseHeaders := lists.responseHeaders
      responseBody := lists.responseBody
      requestBodyPhase := CompiledBodyPhase.compile libs lists.requestBody
      responseBodyPhase := CompiledBodyPhase.compile libs lists.responseBody }

end Rules

end Ophan.Waf
