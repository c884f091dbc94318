import Ophan.Glob.Language
import Ophan.Waf.Collect
import Ophan.Waf.Session

/-!
# When a compiled rule fires

Every accumulator starts with all standard methods, so a rule is pushed to both
header phases and fires on every request with a standard method.  On a response
only the status predicates count: the matchers of an outbound header are put
into the slot of the request headers.
-/

namespace Ophan.Waf

open List
open Ophan.Http Ophan.Net Ophan.Glob

section Documented

def TextHolds (op : Operator) (value : Value) (input : Bytes) : Prop :=
  match op, value with
  | .eq, .string text => input = text
  | .contains, .string text => text <:+: input
  | .startsWith, .string text => text <+: input
  | .endsWith, .string text => text <:+ input
  | .regex, .regex compiled => compiled.isMatch input = true
  | .glob, .glob pattern => Documented pattern input
  | _, _ => False

structure Request where
  ip : Option IpAddr
  host : Option Bytes
  parts : RequestParts
  cookies : List (Bytes × Bytes)
  deriving DecidableEq, Repr

/-- The texts of a request that a predicate on a field is about. -/
def Request.texts (request : Request) : Field → List Bytes
  | .host => request.host.toList
  | .path => [request.parts.path]
  | .query => request.parts.query.toList
  | .userAgent => request.parts.headers.getAll userAgentName
  | .header name => request.parts.headers.getAll name
  | .cookie name => (request.cookies.filter fun cookie => cookie.1 = name).map (·.2)
  | _ => []

/-- The documented meaning of a predicate on a request. -/
def Predicate.HoldsOfRequest (request : Request) (p : Predicate) : Prop :=
  match p.field with
  | .ip => ∃ address network, request.ip = some address ∧ p.value = .ip network ∧
      (network.contains (IpSet.unmapped address) = true ∨ network.contains address = true)
  | .method =>
    match p.value with
    | .string name => request.parts.method.name = name
    | .list names => .string request.parts.method.name ∈ names
    | _ => False
  | field => ∃ input ∈ request.texts field, TextHolds p.op p.value input

structure Response where
  status : StatusCode
  headers : HeaderMap
  deriving DecidableEq, Repr

def classStart (text : Bytes) : Option Nat :=
  if text = bytes "1xx" then some 100
  else if text = bytes "2xx" then some 200
  else if text = bytes "3xx" then some 300
  else if text = bytes "4xx" then some 400
  else if text = bytes "5xx" then some 500
  else none

/-- The documented meaning of a predicate on a response. -/
def Predicate.HoldsOfResponse (response : Response) (p : Predicate) : Prop :=
  match p.field with
  | .statusCode =>
    match p.op, p.value with
    | .eq, .integer number => (response.status.code : Int) = number
    | .isIn, .list values => .integer (response.status.code : Int) ∈ values
    | .contains, .string text => ∃ start, classStart text = some start ∧
        start ≤ response.status.code ∧ response.status.code < start + 100
    | _, _ => False
  | .header name => ∃ input ∈ response.headers.getAll name, TextHolds p.op p.value input
  | _ => False

end Documented

section Seeing

variable (libs : Libraries)

/-- What the matchers built of some texts find. -/
def TextMatcherBuilder.Sees (texts : TextMatcherBuilder) (input : Bytes) : Prop :=
  input ∈ texts.eqPatterns ∨
    (texts.exactPatterns ≠ [] ∧ ∃ ac,
      libs.ahoCorasick .leftmostFirst texts.exactPatterns = some ac ∧ ac.isMatch input = true) ∨
    (∃ text ∈ texts.prefixPatterns, text <+: input) ∨
    (∃ text ∈ texts.suffixPatterns, text <:+ input) ∨
    (texts.regexPatterns ≠ [] ∧ ∃ set,
      libs.regexSet texts.regexPatterns = some set ∧ set input = true) ∨
    (texts.globPatterns ≠ [] ∧ ∃ set,
      PathMatcherSet.compile texts.globPatterns = .ok set ∧ set.isMatch input = true)

theorem not_sees_empty (input : Bytes) : ¬ TextMatcherBuilder.empty.Sees libs input := by
  simp [TextMatcherBuilder.Sees, TextMatcherBuilder.empty]

theorem any_ite_nil {α β : Type} (items : List β) (found : Option α) (test : α → Bool) :
    (if items.isEmpty then none else found).any test = true ↔
      items ≠ [] ∧ ∃ item, found = some item ∧ test item = true := by
  cases items with
  | nil => simp
  | cons item rest =>
    cases found with
    | none | some => simp

theorem isMatch_build {texts : TextMatcherBuilder} {matchers : TextMatchers}
    (built : texts.build libs = some matchers) (input : Bytes) :
    matchers.isMatch input = true ↔ texts.Sees libs input := by
  unfold TextMatcherBuilder.build at built
  split at built
  · cases built
  · cases built
    unfold TextMatchers.isMatch TextMatcherBuilder.Sees
    simp only [Bool.or_eq_true, any_ite_nil]
    have globs : ∀ set, (PathMatcherSet.compile texts.globPatterns).toOption = some set ↔
        PathMatcherSet.compile texts.globPatterns = .ok set := by
      intro set
      cases PathMatcherSet.compile texts.globPatterns with
      | error | ok => simp [Except.toOption]
    grind

theorem slotMatches_build (texts : TextMatcherBuilder) (input : Option Bytes) :
    CompiledRule.slotMatches (texts.build libs) input = true ↔
      ∃ text, input = some text ∧ texts.Sees libs text := by
  cases input with
  | none => cases texts.build libs <;> simp [CompiledRule.slotMatches]
  | some text =>
    cases built : texts.build libs with
    | none =>
      have empty : texts = .empty := by
        unfold TextMatcherBuilder.build TextMatcherBuilder.isEmpty at built
        split at built
        · rename_i allEmpty
          cases texts
          simp_all [TextMatcherBuilder.empty]
        · cases built
      simp [CompiledRule.slotMatches, empty, not_sees_empty]
    | some matchers => simp [CompiledRule.slotMatches, isMatch_build libs built]

theorem headersMatch_buildMap (map : BuilderMap) (headers : HeaderMap) :
    CompiledRule.headersMatch (buildMap libs map) headers = true ↔
      ∃ name builder text, map.lookup name = some builder ∧
        headers.get name = some text ∧ builder.Sees libs text := by
  have entries : ∀ name builder, map.lookup name = some builder ↔
      (⟨name, builder⟩ : Sigma fun _ => TextMatcherBuilder) ∈ map.entries :=
    fun name builder => AList.mem_lookup_iff
  have found : ((map.entries.filterMap fun entry =>
      (entry.2.build libs).map fun matchers => (entry.1, matchers)).any
        fun entry => CompiledRule.slotMatches (some entry.2) (headers.get entry.1)) = true ↔
      ∃ name builder text, map.lookup name = some builder ∧
        headers.get name = some text ∧ builder.Sees libs text := by
    rw [any_eq_true]
    constructor
    · rintro ⟨⟨name, matchers⟩, member, matched⟩
      obtain ⟨⟨key, builder⟩, inMap, built⟩ := mem_filterMap.mp member
      obtain ⟨built, isBuilt, same⟩ := Option.map_eq_some_iff.mp built
      cases same
      simp only [] at matched
      rw [← isBuilt, slotMatches_build] at matched
      grind
    · rintro ⟨name, builder, text, isEntry, isText, sees⟩
      have matched : CompiledRule.slotMatches (builder.build libs) (some text) = true :=
        (slotMatches_build libs builder (some text)).mpr ⟨text, rfl, sees⟩
      cases built : builder.build libs with
      | none =>
        rw [built] at matched
        cases matched
      | some matchers =>
        refine ⟨(name, matchers), ?_, ?_⟩
        · grind
        · simp_all
  rw [← found]
  unfold buildMap CompiledRule.headersMatch
  by_cases none : map.entries.isEmpty = true
  · simp_all
  · rw [if_neg none]
    simp only []
    split
    · simp_all
    · grind

/-- The text that the matchers of a field look at; of a header it is the first
value. -/
def Request.seen? (request : Request) : Field → Option Bytes
  | .host => request.host
  | .path => some request.parts.path
  | .query => request.parts.query
  | .userAgent => request.parts.headers.get userAgentName
  | .header name => request.parts.headers.get name
  | _ => none

/-- The predicates of a rule, field by field, find something in a request. -/
def SeesRequest (predicates : List Predicate) (request : Request) : Prop :=
  (∃ address network, request.ip = some address ∧
    network ∈ networksOf .inboundHeaders predicates ∧
    (network.contains (IpSet.unmapped address) = true ∨ network.contains address = true)) ∨
  ∃ field text, request.seen? field = some text ∧
    (textsOf .inboundHeaders field predicates).Sees libs text

variable {predicates : List Predicate} {acc : FieldAccumulator}

section

variable (collected : Collected .inboundHeaders predicates acc)

include collected

theorem ip_matches_iff (negated : Bool) (ruleMeta : Option RuleMeta) (ip : Option IpAddr) :
    CompiledRule.ipMatches (finalizeFieldRule libs acc negated ruleMeta).ip ip = true ↔
      ∃ address network, ip = some address ∧
        network ∈ networksOf .inboundHeaders predicates ∧
        (network.contains (IpSet.unmapped address) = true ∨ network.contains address = true) := by
  have allowed : acc.allowIps.isEmpty = true := by
    rw [collected.allowIps]
    rfl
  have noneAllowed : acc.allowIps.build.isEmpty = true := by
    rw [collected.allowIps]
    rfl
  have denied : ∀ address, acc.denyIps.build.contains address = true ↔
      ∃ network ∈ networksOf .inboundHeaders predicates,
        network.contains (IpSet.unmapped address) = true ∨ network.contains address = true := by
    intro address
    rw [collected.denyIps]
    exact IpSet.contains_ofNetworks _ address
  simp only [finalizeFieldRule, allowed, Bool.not_true, Bool.false_or]
  cases ip with
  | none => simp [CompiledRule.ipMatches]
  | some address =>
    simp only [Option.some.injEq, exists_and_left, exists_eq_left']
    rw [← denied address]
    by_cases empty : acc.denyIps.isEmpty = true
    · have isEmpty : acc.denyIps = .empty := by
        cases isBuilder : acc.denyIps with
        | mk v4 v6 => simp_all [IpSetBuilder.isEmpty, IpSetBuilder.empty]
      have nothing := IpSet.contains_ofNetworks [] address
      simp only [not_mem_nil, false_and, exists_false, iff_false, Bool.not_eq_true] at nothing
      have built : acc.denyIps.build.contains address = false := isEmpty ▸ nothing
      simp [CompiledRule.ipMatches, empty, built]
    · rw [Bool.not_eq_true] at empty
      simp [CompiledRule.ipMatches, empty, IpCompiledRules.isDenied, noneAllowed]

theorem slot_matches_iff (field : Field) {builder : TextMatcherBuilder}
    (isText : acc.text? field = some builder) (input : Option Bytes) :
    CompiledRule.slotMatches (builder.build libs) input = true ↔
      ∃ text, input = some text ∧ (textsOf .inboundHeaders field predicates).Sees libs text := by
  rw [slotMatches_build, collected.texts field builder isText]

theorem headers_match_iff (headers : HeaderMap) :
    CompiledRule.headersMatch (buildMap libs acc.headers) headers = true ↔
      ∃ name text, headers.get name = some text ∧
        (textsOf .inboundHeaders (.header name) predicates).Sees libs text := by
  rw [headersMatch_buildMap]
  have texts : ∀ name, (acc.headers.lookup name).getD .empty =
      textsOf .inboundHeaders (.header name) predicates :=
    fun name => collected.texts (.header name) _ rfl
  constructor
  · grind
  · rintro ⟨name, text, isText, sees⟩
    rw [← texts name] at sees
    cases isEntry : acc.headers.lookup name with
    | none =>
      rw [isEntry] at sees
      exact absurd sees (not_sees_empty libs text)
    | some builder => grind

/-- A compiled rule matches every request with a standard method, and besides
what its predicates see. -/
theorem matchesRequest_iff (negated : Bool) (ruleMeta : Option RuleMeta) (request : Request) :
    (finalizeFieldRule libs acc negated ruleMeta).matchesRequest request.ip
        request.host request.parts = true ↔
      request.parts.method.isStandard = true ∨ SeesRequest libs predicates request := by
  have methods : (finalizeFieldRule libs acc negated ruleMeta).methods = some .all := by
    simp only [finalizeFieldRule, collected.methods]
    rfl
  unfold CompiledRule.matchesRequest
  simp only [Bool.or_eq_true]
  rw [ip_matches_iff libs collected, methods]
  simp only [finalizeFieldRule, Option.any_some, HttpMethodSet.containsMethod_all]
  rw [slot_matches_iff libs collected .path rfl, slot_matches_iff libs collected .host rfl,
    slot_matches_iff libs collected .query rfl,
    slot_matches_iff libs collected .userAgent rfl,
    headers_match_iff libs collected]
  unfold SeesRequest
  constructor
  · rintro ((((((ip | standard) | path) | host) | query) | userAgent) | ⟨name, header⟩)
    · exact Or.inr (Or.inl ip)
    · exact Or.inl standard
    · exact Or.inr (Or.inr ⟨.path, path⟩)
    · exact Or.inr (Or.inr ⟨.host, host⟩)
    · exact Or.inr (Or.inr ⟨.query, query⟩)
    · exact Or.inr (Or.inr ⟨.userAgent, userAgent⟩)
    · exact Or.inr (Or.inr ⟨.header name, header⟩)
  · rintro (standard | ip | ⟨field, text, isText, sees⟩)
    · simp only [standard, true_or, or_true]
    · simp only [ip, true_or]
    · cases field with
      | path => exact Or.inl (Or.inl (Or.inl (Or.inl (Or.inr ⟨text, isText, sees⟩))))
      | host => exact Or.inl (Or.inl (Or.inl (Or.inr ⟨text, isText, sees⟩)))
      | query => exact Or.inl (Or.inl (Or.inr ⟨text, isText, sees⟩))
      | userAgent => exact Or.inl (Or.inr ⟨text, isText, sees⟩)
      | header name => exact Or.inr ⟨name, text, isText, sees⟩
      | _ => cases isText

end

/-- A compiled rule answers a response by the bit of its status; a status that
has no bit can make the lookup panic. -/
theorem evaluateResponse_cases (noHeaders : acc.responseHeaders = ∅)
    (ruleMeta : Option RuleMeta) (response : Response) :
    (finalizeFieldRule libs acc false ruleMeta).evaluateResponse response.status response.headers =
      .ok (if acc.responseStatus.has response.status.code then ruleMeta else none) ∨
    (finalizeFieldRule libs acc false ruleMeta).evaluateResponse response.status
        response.headers = .panic ∧ ¬ response.status.code < 612 := by
  have headers : (finalizeFieldRule libs acc false ruleMeta).responseHeaders = none := by
    simp only [finalizeFieldRule, noHeaders]
    rfl
  unfold CompiledRule.evaluateResponse CompiledRule.matchesResponse
  rw [headers]
  simp only [finalizeFieldRule, CompiledRule.headersMatch, Bool.or_false]
  by_cases empty : acc.responseStatus.isEmpty = true
  · left
    simp [empty, StatusCodeSet.has_of_isEmpty empty]
  · simp only [empty, Bool.false_eq_true, if_false, StatusCodeSet.contains_eq]
    by_cases small : response.status.code < 612
    · left
      simp [small]
    · right
      simp [small]

end Seeing

section RuleSets

variable (libs : Libraries)

/-- The rule that a builder leaves in the phase of the request headers. -/
abbrev RuleBuilder.requestRule (builder : RuleBuilder) : CompiledRule :=
  finalizeFieldRule libs builder.inboundHeaders false builder.ruleMeta

abbrev RuleBuilder.responseRule (builder : RuleBuilder) : CompiledRule :=
  finalizeFieldRule libs builder.outboundHeaders false builder.ruleMeta

/-- The rules of a set are compiled one by one, each to one rule of either
header phase. -/
theorem compileRules_ok {rules : List Expr} {lists after : RuleLists}
    (compiled : compileRules libs rules lists = .ok after) :
    ∃ builders : List RuleBuilder,
      (∀ rule ∈ rules, ∃ builder ∈ builders, Gathered rule.predicates builder) ∧
      (∀ builder ∈ builders, ∃ rule ∈ rules, Gathered rule.predicates builder) ∧
      after.requestHeaders = lists.requestHeaders ++ builders.map (·.requestRule libs) ∧
      after.responseHeaders = lists.responseHeaders ++ builders.map (·.responseRule libs) := by
  induction rules generalizing lists with
  | nil =>
    cases compiled
    exact ⟨[], by simp, by simp, by simp, by simp⟩
  | cons rule rest ih =>
    rw [compileRules] at compiled
    obtain ⟨builder, isBuilder, others⟩ := Outcome.bind_eq_ok_iff.mp compiled
    have gathered := gathered_compileRule isBuilder
    obtain ⟨builders, forward, backward, requests, responses⟩ := ih others
    have pushed : ∀ {phase : Phase} {acc : FieldAccumulator},
        Collected phase rule.predicates acc →
        fieldRule libs acc builder.negated builder.ruleMeta =
          [finalizeFieldRule libs acc false builder.ruleMeta] := by
      intro phase acc collected
      have present : acc.isEmpty = false := by
        simp [FieldAccumulator.isEmpty, collected.methods, HttpMethodSet.isEmpty,
          HttpMethodSet.all, HttpMethod.isEmpty, HttpMethod.all, HttpMethod.get]
      simp [fieldRule, present, gathered.negated]
    refine ⟨builder :: builders, ?_, ?_, ?_, ?_⟩
    · simp_all
    · simp_all
    · rw [requests, pushRule, pushed gathered.inbound]
      simp
    · rw [responses, pushRule, pushed gathered.outbound]
      simp

def CompiledWafRules.FiresOnRequest (rules : CompiledWafRules) (request : Request) : Prop :=
  (WafSession.firstRequestMatch rules.requestHeaders request.ip request.host
    request.parts).isSome = true

def CompiledWafRules.FiresOnResponse (rules : CompiledWafRules) (response : Response) : Prop :=
  ∃ ruleMeta, WafSession.firstResponseMatch response.status response.headers
    rules.responseHeaders = .ok (some ruleMeta)

variable {libs : Libraries} {root : Expr} {rules : CompiledWafRules}

theorem compile_ok (compiled : compile libs root = .ok rules) :
    ∃ builders : List RuleBuilder,
      (∀ rule ∈ rulesOf root, ∃ builder ∈ builders, Gathered rule.predicates builder) ∧
      (∀ builder ∈ builders, ∃ rule ∈ rulesOf root, Gathered rule.predicates builder) ∧
      rules.requestHeaders = builders.map (·.requestRule libs) ∧
      rules.responseHeaders = builders.map (·.responseRule libs) := by
  unfold compile at compiled
  obtain ⟨lists, isLists, rfl⟩ := Outcome.map_eq_ok_iff.mp compiled
  exact compileRules_ok libs isLists

/-- The compiler never leaves a body rule negated. -/
theorem compileRules_plain {list : List Expr} {lists after : RuleLists}
    (compiled : compileRules libs list lists = .ok after)
    (plain : ∀ rule ∈ lists.requestBody ++ lists.responseBody, rule.negated = false) :
    ∀ rule ∈ after.requestBody ++ after.responseBody, rule.negated = false := by
  induction list generalizing lists with
  | nil =>
    cases compiled
    exact plain
  | cons rule rest ih =>
    rw [compileRules] at compiled
    obtain ⟨builder, isBuilder, others⟩ := Outcome.bind_eq_ok_iff.mp compiled
    have gathered := gathered_compileRule isBuilder
    have pushed : ∀ acc : BodyAccumulator,
        ∀ rule ∈ bodyRule acc builder.negated builder.ruleMeta, rule.negated = false := by
      intro acc rule member
      unfold bodyRule at member
      split at member
      · cases member
      · rw [mem_singleton.mp member]
        exact gathered.negated
    apply ih others
    intro rule member
    simp only [pushRule, mem_append] at member plain
    rcases member with (before | new) | before | new
    · exact plain rule (Or.inl before)
    · exact pushed _ rule new
    · exact plain rule (Or.inr before)
    · exact pushed _ rule new

theorem compile_plain (compiled : compile libs root = .ok rules) :
    ∀ rule ∈ rules.requestBody ++ rules.responseBody, rule.negated = false := by
  unfold compile at compiled
  obtain ⟨lists, isLists, rfl⟩ := Outcome.map_eq_ok_iff.mp compiled
  exact compileRules_plain isLists (by simp)

theorem Gathered.isSome_ruleMeta {predicates : List Predicate} {builder : RuleBuilder}
    (gathered : Gathered predicates builder) :
    builder.ruleMeta.isSome = true ↔ predicates ≠ [] := by
  rw [gathered.ruleMeta]
  cases predicates with
  | nil | cons => simp

/-- A rule set fires on a request when one of its rules, with a predicate at
all, is asked about a standard method or sees something. -/
theorem firesOnRequest_iff (compiled : compile libs root = .ok rules) (request : Request) :
    rules.FiresOnRequest request ↔
      ∃ rule ∈ rulesOf root, rule.predicates ≠ [] ∧
        (request.parts.method.isStandard = true ∨ SeesRequest libs rule.predicates request) := by
  obtain ⟨builders, forward, backward, requests, -⟩ := compile_ok compiled
  have fires : ∀ {predicates : List Predicate} {builder : RuleBuilder},
      Gathered predicates builder →
      (((builder.requestRule libs).evaluateRequest request.ip request.host
        request.parts).isSome = true ↔
        predicates ≠ [] ∧ (request.parts.method.isStandard = true ∨
          SeesRequest libs predicates request)) := by
    intro predicates builder gathered
    rw [← gathered.isSome_ruleMeta,
      ← matchesRequest_iff libs gathered.inbound false builder.ruleMeta request]
    unfold CompiledRule.evaluateRequest
    have plain : (builder.requestRule libs).negated = false := rfl
    have sameMeta : (builder.requestRule libs).ruleMeta = builder.ruleMeta := rfl
    rw [plain, sameMeta]
    by_cases matched : (builder.requestRule libs).matchesRequest request.ip request.host
        request.parts = true
    · simp [matched]
    · simp [matched]
  unfold CompiledWafRules.FiresOnRequest WafSession.firstRequestMatch
  rw [requests, List.findSome?_isSome_iff]
  constructor
  · grind
  · grind

/-- The rules of a response phase report exactly the responses whose status bit
one of them has. -/
theorem firstResponseMatch_iff {builders : List RuleBuilder}
    (noHeaders : ∀ builder ∈ builders, builder.outboundHeaders.responseHeaders = ∅)
    (response : Response) :
    (∃ ruleMeta, WafSession.firstResponseMatch response.status response.headers
        (builders.map (·.responseRule libs)) = .ok (some ruleMeta)) ↔
      ∃ builder ∈ builders, builder.ruleMeta.isSome = true ∧
        builder.outboundHeaders.responseStatus.has response.status.code = true := by
  induction builders with
  | nil => simp [WafSession.firstResponseMatch]
  | cons builder rest ih =>
    have restNoHeaders : ∀ other ∈ rest, other.outboundHeaders.responseHeaders = ∅ :=
      (forall_mem_cons.mp noHeaders).2
    have others := ih restNoHeaders
    rw [map_cons]
    simp only [WafSession.firstResponseMatch, exists_mem_cons_iff]
    rcases evaluateResponse_cases libs (noHeaders builder mem_cons_self)
      builder.ruleMeta response with answered | ⟨panicked, large⟩
    · rw [answered]
      by_cases found : builder.outboundHeaders.responseStatus.has response.status.code = true
      · cases isMeta : builder.ruleMeta with
        | none => simp [found, others]
        | some ruleMeta => simp [found]
      · simp [found, others]
    · rw [panicked]
      simp only [Outcome.bind_panic, reduceCtorEq, exists_false, false_iff]
      rintro (⟨-, found⟩ | ⟨other, -, -, found⟩)
      · exact large (StatusCodeSet.lt_of_has found)
      · exact large (StatusCodeSet.lt_of_has found)

/-- A rule set fires on a response when one of its rules stores the status. -/
theorem firesOnResponse_iff (compiled : compile libs root = .ok rules) (response : Response) :
    rules.FiresOnResponse response ↔
      ∃ rule ∈ rulesOf root, ∃ p ∈ rule.predicates, p.phase = .outboundHeaders ∧
        p.Stores response.status.code := by
  obtain ⟨builders, forward, backward, -, responses⟩ := compile_ok compiled
  have noHeaders : ∀ builder ∈ builders, builder.outboundHeaders.responseHeaders = ∅ := by
    intro builder member
    obtain ⟨rule, -, gathered⟩ := backward builder member
    exact gathered.outbound.responseHeaders
  have stored : ∀ {predicates : List Predicate} {builder : RuleBuilder},
      Gathered predicates builder →
      ((builder.ruleMeta.isSome = true ∧
          builder.outboundHeaders.responseStatus.has response.status.code = true) ↔
        ∃ p ∈ predicates, p.phase = .outboundHeaders ∧ p.Stores response.status.code) := by
    intro predicates builder gathered
    rw [gathered.isSome_ruleMeta, gathered.outbound.responseStatus _
      response.status.least response.status.most]
    constructor
    · exact fun found => found.2
    · grind
  unfold CompiledWafRules.FiresOnResponse
  rw [responses, firstResponseMatch_iff noHeaders]
  constructor
  · grind
  · grind

end RuleSets

end Ophan.Waf
