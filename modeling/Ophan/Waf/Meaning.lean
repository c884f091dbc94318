import Ophan.Waf.Firing

/-!
# What rules mean and what they are compiled to

The documented meaning of a rule is compared with when its compiled form
fires.  A rule is compiled alone here, as the only child of a rule set; the
rules of a set do not touch one another.
-/

namespace Ophan.Waf

open Ophan.Http Ophan.Net

variable {libs : Libraries} {rule : Expr} {rules : CompiledWafRules}

abbrev Expr.alone (rule : Expr) : Expr := .allOf [rule]

/-- A rule over the request keeps its meaning for a request exactly when one of
its predicates holds, if the method is a standard one, and otherwise when the
predicates hold as they are seen. -/
theorem request_rule_meaning_iff (accepted : compile libs rule.alone = .ok rules)
    (present : rule.predicates ≠ [])
    (inbound : ∀ p ∈ rule.predicates, p.phase = .inboundHeaders) (request : Request) :
    ((rules.FiresOnRequest request ↔
          ∃ p ∈ rule.predicates, p.HoldsOfRequest request) ∧
        ∀ response, ¬ rules.FiresOnResponse response) ↔
      if request.parts.method.isStandard then
        ∃ p ∈ rule.predicates, p.HoldsOfRequest request
      else
        ((∃ p ∈ rule.predicates, p.HoldsOfRequest request) ↔
          SeesRequest libs rule.predicates request) := by
  have silent : ∀ response, ¬ rules.FiresOnResponse response := by
    intro response fires
    obtain ⟨only, isOnly, p, member, outbound, -⟩ :=
      (firesOnResponse_iff accepted response).mp fires
    rw [List.mem_singleton.mp isOnly] at member
    simp [inbound p member] at outbound
  have fires : rules.FiresOnRequest request ↔
      request.parts.method.isStandard = true ∨ SeesRequest libs rule.predicates request := by
    rw [firesOnRequest_iff accepted]
    simp only [rulesOf, List.mem_singleton, exists_eq_left, ne_eq, present,
      not_false_eq_true, true_and]
  rw [and_iff_left silent, fires]
  by_cases standard : request.parts.method.isStandard = true
  · simp [standard]
  · grind

def pathRule : Expr :=
  .predicate
    { phase := .inboundHeaders
      field := .path
      op := .eq
      value := .string [47, 97]
      ruleMeta := ⟨"path", 10, .block 403, .a01BrokenAccessControl⟩ }

theorem pathRule_accepted : ∃ rules, compile .naive pathRule.alone = .ok rules := ⟨_, rfl⟩

def getRequest (path : Bytes) : Request := ⟨none, none, ⟨.get, path, none, ⟨[]⟩⟩, []⟩

theorem request_rule_meaning_path :
    ∃ rules, compile .naive pathRule.alone = .ok rules ∧
      (((rules.FiresOnRequest (getRequest [47, 97]) ↔
            ∃ p ∈ pathRule.predicates, p.HoldsOfRequest (getRequest [47, 97])) ∧
          ∀ response, ¬ rules.FiresOnResponse response) ↔
        if (getRequest [47, 97]).parts.method.isStandard then
          ∃ p ∈ pathRule.predicates, p.HoldsOfRequest (getRequest [47, 97])
        else
          ((∃ p ∈ pathRule.predicates, p.HoldsOfRequest (getRequest [47, 97])) ↔
            SeesRequest .naive pathRule.predicates (getRequest [47, 97]))) := by
  obtain ⟨rules, accepted⟩ := pathRule_accepted
  refine ⟨rules, accepted, request_rule_meaning_iff accepted ?_ ?_ _⟩
  · simp [pathRule, Expr.predicates]
  · simp [pathRule, Expr.predicates]

/-- A rule on the path `/a` fires on a `GET` of `/b`. -/
theorem path_rule_fires_elsewhere :
    ∃ rules, compile .naive pathRule.alone = .ok rules ∧
      rules.FiresOnRequest (getRequest [47, 98]) ∧
      ¬ ∃ p ∈ pathRule.predicates, p.HoldsOfRequest (getRequest [47, 98]) := by
  obtain ⟨rules, accepted⟩ := pathRule_accepted
  refine ⟨rules, accepted, ?_, ?_⟩
  · rw [firesOnRequest_iff accepted]
    exact ⟨pathRule, List.mem_singleton_self _, by simp [pathRule, Expr.predicates], Or.inl rfl⟩
  · simp [pathRule, Expr.predicates, Predicate.HoldsOfRequest, Request.texts, getRequest, TextHolds]

def CompiledWafRules.Fires (rules : CompiledWafRules) : Request ⊕ Response → Prop
  | .inl request => rules.FiresOnRequest request
  | .inr response => rules.FiresOnResponse response

theorem compile_not (libs : Libraries) (rule : Expr) :
    compile libs (Expr.not rule).alone = compile libs rule.alone := by
  unfold compile
  simp only [rulesOf, compileRules, compileRule_eq, Expr.predicates]

/-- A negated rule is compiled as the rule itself, so it fires where the rule
does not only when neither is accepted. -/
theorem not_inverts_iff (libs : Libraries) (rule : Expr) (event : Request ⊕ Response) :
    (∀ plain negated, compile libs rule.alone = .ok plain →
        compile libs (Expr.not rule).alone = .ok negated →
        (negated.Fires event ↔ ¬ plain.Fires event)) ↔
      (compile libs (Expr.not rule).alone).isOk = false := by
  rw [compile_not]
  cases compiled : compile libs rule.alone with
  | ok rules => simp_all
  | err | panic => simp

/-- The rule on `/a` and its negation both fire on a `GET` of `/a`. -/
theorem not_fires_with_rule :
    ∃ plain negated, compile .naive pathRule.alone = .ok plain ∧
      compile .naive (Expr.not pathRule).alone = .ok negated ∧
      plain.Fires (.inl (getRequest [47, 97])) ∧
      negated.Fires (.inl (getRequest [47, 97])) := by
  have fires : ∀ rules, compile .naive pathRule.alone = .ok rules →
      rules.Fires (.inl (getRequest [47, 97])) := by
    intro rules compiled
    rw [CompiledWafRules.Fires, firesOnRequest_iff compiled]
    exact ⟨pathRule, List.mem_singleton_self _, by simp [pathRule, Expr.predicates], Or.inl rfl⟩
  obtain ⟨rules, accepted⟩ := pathRule_accepted
  exact ⟨rules, rules, accepted, (compile_not .naive pathRule).trans accepted,
    fires rules accepted, fires rules accepted⟩

/-- A rule over the response is reported where its expression is true exactly
when the expression says what the stored status codes say. -/
theorem response_rule_meaning_iff (accepted : compile libs rule.alone = .ok rules)
    (outbound : ∀ p ∈ rule.predicates, p.phase = .outboundHeaders) (response : Response) :
    (rules.FiresOnResponse response ↔ rule.Holds (Predicate.HoldsOfResponse response)) ↔
      (rule.Holds (Predicate.HoldsOfResponse response) ↔
        ∃ p ∈ rule.predicates, p.Stores response.status.code) := by
  have fires : rules.FiresOnResponse response ↔
      ∃ p ∈ rule.predicates, p.Stores response.status.code := by
    rw [firesOnResponse_iff accepted]
    simp only [rulesOf, List.mem_singleton, exists_eq_left]
    constructor
    · grind
    · grind
  rw [fires]
  exact Iff.comm

def serverRule : Expr :=
  .predicate
    { phase := .outboundHeaders
      field := .header [115]
      op := .eq
      value := .string [120]
      ruleMeta := ⟨"server", 10, .block 403, .a05SecurityMisconfiguration⟩ }

theorem serverRule_accepted : ∃ rules, compile .naive serverRule.alone = .ok rules := ⟨_, rfl⟩

def serverResponse : Response := ⟨⟨200, by decide, by decide⟩, ⟨[([115], [120])]⟩⟩

theorem response_rule_meaning_server :
    ∃ rules, compile .naive serverRule.alone = .ok rules ∧
      ((rules.FiresOnResponse serverResponse ↔
          serverRule.Holds (Predicate.HoldsOfResponse serverResponse)) ↔
        (serverRule.Holds (Predicate.HoldsOfResponse serverResponse) ↔
          ∃ p ∈ serverRule.predicates, p.Stores serverResponse.status.code)) := by
  obtain ⟨rules, accepted⟩ := serverRule_accepted
  refine ⟨rules, accepted, response_rule_meaning_iff accepted ?_ _⟩
  simp [serverRule, Expr.predicates]

/-- A rule on a response header is not reported for a response that has it. -/
theorem server_rule_silent :
    ∃ rules, compile .naive serverRule.alone = .ok rules ∧
      serverRule.Holds (Predicate.HoldsOfResponse serverResponse) ∧
      ¬ rules.FiresOnResponse serverResponse := by
  obtain ⟨rules, accepted⟩ := serverRule_accepted
  refine ⟨rules, accepted, ?_, ?_⟩
  · simp [serverRule, Expr.Holds, Predicate.HoldsOfResponse, serverResponse,
      HeaderMap.getAll, TextHolds]
  · rw [firesOnResponse_iff accepted]
    simp [serverRule, rulesOf, Expr.predicates, Predicate.Stores]

end Ophan.Waf
