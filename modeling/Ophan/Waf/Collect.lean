import Ophan.Waf.Compiler

/-!
# What the compiler collects of a rule

Compiling a rule collects its predicates from left to right: the shape of the
tree leaves no trace, and neither does a negation.  The accumulators are told
by the list of the predicates.
-/

namespace Ophan.Waf

open List
open Ophan.Http Ophan.Net

section Flattening

def compileAll : List Predicate → RuleBuilder → Outcome CompileError RuleBuilder
  | [], builder => .ok builder
  | p :: rest, builder => (compilePredicate p builder).bind fun after => compileAll rest after

theorem compileAll_append (first second : List Predicate) (builder : RuleBuilder) :
    compileAll (first ++ second) builder =
      (compileAll first builder).bind fun after => compileAll second after := by
  induction first generalizing builder with
  | nil => rfl
  | cons p rest ih =>
    rw [cons_append, compileAll, compileAll, Outcome.bind_assoc]
    simp only [ih]

theorem compilePredicate_negated (p : Predicate) (builder : RuleBuilder) (negated : Bool) :
    compilePredicate p { builder with negated := negated } =
      (compilePredicate p builder).map fun after =>
        { after with negated := negated } := by
  unfold compilePredicate
  cases validateFieldPhase p with
  | err | panic => rfl
  | ok _ =>
    cases validateMatrix p with
    | err | panic => rfl
    | ok _ =>
      simp only [Outcome.bind_ok]
      have fields : ∀ f : FieldAccumulator → Outcome CompileError FieldAccumulator,
          (RuleBuilder.withMeta { builder with negated := negated } p.ruleMeta).onFields p.phase f =
            ((builder.withMeta p.ruleMeta).onFields p.phase f).map fun after =>
              { after with negated := negated } := by
        intro f
        cases p.phase with
        | inboundHeaders =>
          simp only [RuleBuilder.withMeta, RuleBuilder.onFields]
          cases f builder.inboundHeaders <;> rfl
        | outboundHeaders =>
          simp only [RuleBuilder.withMeta, RuleBuilder.onFields]
          cases f builder.outboundHeaders <;> rfl
        | _ => rfl
      cases p.field with
      | body =>
        cases p.phase with
        | inboundBody =>
          simp only [RuleBuilder.withMeta, RuleBuilder.onBody]
          cases builder.inboundBody.add p.op p.value <;> rfl
        | outboundBody =>
          simp only [RuleBuilder.withMeta, RuleBuilder.onBody]
          cases builder.outboundBody.add p.op p.value <;> rfl
        | _ => rfl
      | _ => exact fields _

theorem compileAll_negated (predicates : List Predicate) (builder : RuleBuilder) (negated : Bool) :
    compileAll predicates { builder with negated := negated } =
      (compileAll predicates builder).map fun after =>
        { after with negated := negated } := by
  induction predicates generalizing builder with
  | nil => rfl
  | cons p rest ih =>
    rw [compileAll, compileAll, compilePredicate_negated]
    cases compilePredicate p builder with
    | ok after => exact ih after
    | err | panic => rfl

theorem negated_compileAll {predicates : List Predicate} {builder after : RuleBuilder}
    (collected : compileAll predicates builder = .ok after) :
    after.negated = builder.negated := by
  have same := compileAll_negated predicates builder builder.negated
  rw [collected] at same
  simp only [Outcome.map_ok] at same
  injection same with same
  rw [same]

mutual

/-- A rule is compiled as the list of its predicates. -/
theorem compileRule_eq (rule : Expr) (builder : RuleBuilder) :
    compileRule rule builder = compileAll rule.predicates builder := by
  cases rule with
  | predicate p =>
    rw [compileRule, Expr.predicates, compileAll]
    cases compilePredicate p builder <;> rfl
  | not inner =>
    rw [compileRule, Expr.predicates, compileRule_eq inner, compileAll_negated]
    cases collected : compileAll inner.predicates builder with
    | ok after =>
      have kept := negated_compileAll collected
      simp only [Outcome.map_ok, Bool.not_not, ← kept]
    | err | panic => rfl
  | anyOf children | allOf children =>
    rw [compileRule, Expr.predicates]
    exact compileChildren_eq children builder

theorem compileChildren_eq (children : List Expr) (builder : RuleBuilder) :
    compileChildren children builder = compileAll (predicatesOf children) builder := by
  cases children with
  | nil => rfl
  | cons child rest =>
    rw [compileChildren, predicatesOf, compileAll_append, compileRule_eq child]
    cases compileAll child.predicates builder with
    | ok after => exact compileChildren_eq rest after
    | err | panic => rfl

end

end Flattening

section Accumulators

/-- The text a value carries into a field. -/
def Value.text? : Value → Option Bytes
  | .string text => some text
  | .regex compiled => some compiled.source
  | .glob text => some text
  | _ => none

def Value.network? : Value → Option IpNet
  | .ip network => some network
  | _ => none

/-- The text of a predicate of one phase, field and operator. -/
def Predicate.textFor (phase : Phase) (field : Field) (op : Operator)
    (p : Predicate) : Option Bytes :=
  if p.phase = phase ∧ p.field = field ∧ p.op = op then p.value.text? else none

def textsOf (phase : Phase) (field : Field) (predicates : List Predicate) : TextMatcherBuilder where
  eqPatterns := predicates.filterMap (Predicate.textFor phase field .eq)
  exactPatterns := predicates.filterMap (Predicate.textFor phase field .contains)
  prefixPatterns := predicates.filterMap (Predicate.textFor phase field .startsWith)
  suffixPatterns := predicates.filterMap (Predicate.textFor phase field .endsWith)
  regexPatterns := predicates.filterMap (Predicate.textFor phase field .regex)
  globPatterns := predicates.filterMap (Predicate.textFor phase field .glob)

/-- The networks of the predicates on the client address. -/
def networksOf (phase : Phase) (predicates : List Predicate) : List IpNet :=
  predicates.filterMap fun p => if p.phase = phase ∧ p.field = .ip then p.value.network? else none

def Predicate.Stores (code : Nat) (p : Predicate) : Prop :=
  p.field = .statusCode ∧
    match p.op, p.value with
    | .eq, .integer number => asU16 number = code
    | .isIn, .list values => ∃ number, .integer number ∈ values ∧ asU16 number = code
    | .contains, .string text =>
      ∃ pattern, statusClass text = some pattern ∧ StatusCodeSet.marked pattern = code
    | _, _ => False

variable {phase : Phase} {field : Field} {predicates : List Predicate} {p : Predicate}

theorem textsOf_other (other : p.phase ≠ phase ∨ p.field ≠ field) :
    textsOf phase field (predicates ++ [p]) = textsOf phase field predicates := by
  have none : ∀ op, p.textFor phase field op = none := by
    intro op
    unfold Predicate.textFor
    grind
  simp [textsOf, filterMap_append, none]

theorem add_textsOf {builder : TextMatcherBuilder}
    (added : (textsOf p.phase p.field predicates).add p.op p.value = .ok builder) :
    builder = textsOf p.phase p.field (predicates ++ [p]) := by
  unfold TextMatcherBuilder.add at added
  split at added
  all_goals cases added
  all_goals
    rename_i isOp isValue
    simp [textsOf, filterMap_append, Predicate.textFor, Value.text?, isOp, isValue]

/-- The texts an accumulator holds for a field that the rules read.  Cookies are
collected and not read. -/
def FieldAccumulator.text? (acc : FieldAccumulator) : Field → Option TextMatcherBuilder
  | .host => some acc.host
  | .path => some acc.path
  | .query => some acc.query
  | .userAgent => some acc.userAgent
  | .header name => some ((acc.headers.lookup name).getD .empty)
  | _ => none

/-- An accumulator of a header phase holds what the predicates of the phase
say. -/
structure Collected (phase : Phase) (predicates : List Predicate)
    (acc : FieldAccumulator) : Prop where
  allowIps : acc.allowIps = .empty
  denyIps : acc.denyIps = IpSetBuilder.empty.insertNetworks (networksOf phase predicates)
  methods : acc.methods = .all
  texts : ∀ field builder, acc.text? field = some builder → builder = textsOf phase field predicates
  responseStatus : ∀ code, 100 ≤ code → code < 1000 →
    (acc.responseStatus.has code = true ↔ ∃ p ∈ predicates, p.phase = phase ∧ p.Stores code)
  responseHeaders : acc.responseHeaders = ∅

theorem collected_default (phase : Phase) : Collected phase [] FieldAccumulator.default := by
  constructor
  · rfl
  · rfl
  · rfl
  · intro field builder isText
    cases field
    all_goals cases isText
    all_goals rfl
  · intro code least most
    simp [FieldAccumulator.default, StatusCodeSet.has_new]
  · rfl

theorem addMethods_all {op : Operator} {value : Value} {methods : HttpMethodSet}
    (added : addMethods op value .all = .ok methods) : methods = .all := by
  have one : ∀ value, addMethod .all value = .all := by
    intro value
    cases value with
    | string text => exact HttpMethodSet.addStandard_all text
    | _ => rfl
  unfold addMethods at added
  split at added
  · cases added
    exact one _
  · rename_i values
    cases added
    induction values with
    | nil => rfl
    | cons value rest ih => simp_all
  · cases added

variable {code : Nat}

theorem fromU16_eq_some {status : StatusCode}
    (found : StatusCode.fromU16 code = some status) : status.code = code := by
  unfold StatusCode.fromU16 at found
  split at found
  · cases found
    rfl
  · cases found

variable {set after : StatusCodeSet}

theorem has_addStatus {value : Value} (added : addStatus set value = .ok after) (least : 100 ≤ code)
    (most : code < 1000) :
    after.has code = true ↔
      set.has code = true ∨ ∃ number, value = .integer number ∧ asU16 number = code := by
  cases value with
  | integer number =>
    rw [addStatus] at added
    cases found : StatusCode.fromU16 (asU16 number) with
    | some status =>
      simp only [found] at added
      rw [StatusCodeSet.has_insert added least, StatusCodeSet.marked,
        fromU16_eq_some found, Bool.or_eq_true, decide_eq_true_iff]
      grind
    | none =>
      simp only [found] at added
      cases added
      have outside : asU16 number ≠ code := by
        intro same
        rw [same, StatusCode.fromU16, dif_pos ⟨least, most⟩] at found
        cases found
      simp [outside]
  | _ =>
    cases added
    simp

theorem has_addStatusList {values : List Value}
    (added : addStatusList set values = .ok after) (least : 100 ≤ code) (most : code < 1000) :
    after.has code = true ↔
      set.has code = true ∨ ∃ number, .integer number ∈ values ∧ asU16 number = code := by
  induction values generalizing set with
  | nil =>
    cases added
    simp
  | cons value rest ih =>
    rw [addStatusList] at added
    obtain ⟨next, first, others⟩ := Outcome.bind_eq_ok_iff.mp added
    rw [ih others, has_addStatus first least most]
    simp only [mem_cons, or_and_right, exists_or, or_assoc, eq_comm]

theorem has_addStatuses (isStatus : p.field = .statusCode)
    (added : addStatuses p.op p.value set = .ok after) (least : 100 ≤ code) (most : code < 1000) :
    after.has code = true ↔ set.has code = true ∨ p.Stores code := by
  unfold addStatuses at added
  split at added
  · rename_i number isOp isValue
    rw [has_addStatus added least most]
    simp [Predicate.Stores, isStatus, isOp, isValue]
  · rename_i values isOp isValue
    rw [has_addStatusList added least most]
    simp [Predicate.Stores, isStatus, isOp, isValue]
  · rename_i text isOp isValue
    cases found : statusClass text with
    | some pattern =>
      simp only [found] at added
      rw [StatusCodeSet.has_insert added least, Bool.or_eq_true, decide_eq_true_iff]
      simp only [Predicate.Stores, isStatus, isOp, isValue, found, true_and,
        Option.some.injEq, exists_eq_left']
      exact or_congr_right eq_comm
    | none =>
      simp only [found] at added
      cases added
      simp [Predicate.Stores, isStatus, isOp, isValue, found]
  · cases added

theorem networksOf_append :
    networksOf phase (predicates ++ [p]) =
      networksOf phase predicates ++
        if p.phase = phase ∧ p.field = .ip then p.value.network?.toList else [] := by
  unfold networksOf
  rw [filterMap_append]
  congr 1
  by_cases same : p.phase = phase ∧ p.field = .ip
  · cases found : p.value.network? with
    | none | some => simp [same, found]
  · simp [same]

theorem stored_append : (∃ q ∈ predicates ++ [p], q.phase = phase ∧ q.Stores code) ↔
      (∃ q ∈ predicates, q.phase = phase ∧ q.Stores code) ∨ p.phase = phase ∧ p.Stores code := by
  simp only [mem_append, mem_singleton, or_and_right, exists_or, exists_eq_left]

variable {acc : FieldAccumulator}

theorem Collected.skip (collected : Collected phase predicates acc) (other : p.phase ≠ phase) :
    Collected phase (predicates ++ [p]) acc := by
  constructor
  · exact collected.allowIps
  · rw [networksOf_append, if_neg (by simp [other]), append_nil]
    exact collected.denyIps
  · exact collected.methods
  · intro field builder isText
    rw [textsOf_other (Or.inl other)]
    exact collected.texts field builder isText
  · intro code least most
    rw [stored_append, collected.responseStatus code least most]
    simp [other]
  · exact collected.responseHeaders

section Adding

variable {after : FieldAccumulator} (added : acc.add p = .ok after)

include added

theorem add_constant :
    after.allowIps = acc.allowIps ∧ after.responseHeaders = acc.responseHeaders ∧
      (acc.methods = .all → after.methods = .all) := by
  unfold FieldAccumulator.add at added
  split at added
  case h_2 =>
    obtain ⟨methods, isMethods, rfl⟩ := Outcome.map_eq_ok_iff.mp added
    exact ⟨rfl, rfl, fun isAll => addMethods_all (isAll ▸ isMethods)⟩
  case h_10 => cases added
  all_goals
    obtain ⟨_, _, rfl⟩ := Outcome.map_eq_ok_iff.mp added
    exact ⟨rfl, rfl, id⟩

theorem add_denyIps :
    after.denyIps = acc.denyIps.insertNetworks
      (if p.field = .ip then p.value.network?.toList else []) := by
  unfold FieldAccumulator.add at added
  cases isField : p.field with
  | ip =>
    simp only [isField] at added
    obtain ⟨ips, isIps, rfl⟩ := Outcome.map_eq_ok_iff.mp added
    unfold Waf.addIp at isIps
    split at isIps <;> cases isIps
    all_goals
      rename_i isValue
      rw [isValue]
      rfl
  | body => simp [isField] at added
  | _ =>
    simp only [isField] at added
    obtain ⟨_, _, rfl⟩ := Outcome.map_eq_ok_iff.mp added
    rfl

/-- The texts of the predicate's field get one more, and the others stay. -/
theorem add_texts {builder : TextMatcherBuilder} (isText : after.text? field = some builder) :
    ∃ old, acc.text? field = some old ∧
      if p.field = field then old.add p.op p.value = .ok builder else builder = old := by
  unfold FieldAccumulator.add at added
  cases isField : p.field with
  | header name =>
    simp only [isField] at added
    obtain ⟨map, isMap, rfl⟩ := Outcome.map_eq_ok_iff.mp added
    obtain ⟨new, isNew, rfl⟩ := Outcome.map_eq_ok_iff.mp isMap
    cases field with
    | header other =>
      by_cases same : other = name
      · subst same
        rw [FieldAccumulator.text?, AList.lookup_insert] at isText
        cases isText
        exact ⟨_, rfl, by rwa [if_pos rfl]⟩
      · rw [FieldAccumulator.text?, AList.lookup_insert_ne same] at isText
        exact ⟨builder, isText, by simp [Ne.symm same]⟩
    | _ => exact ⟨builder, isText, by simp⟩
  | body => simp [isField] at added
  | _ =>
    simp only [isField] at added
    obtain ⟨new, isNew, rfl⟩ := Outcome.map_eq_ok_iff.mp added
    cases field <;> first
      | cases isText <;> exact ⟨_, rfl, by rwa [if_pos rfl]⟩
      | exact ⟨builder, isText, by simp⟩

theorem add_responseStatus (least : 100 ≤ code) (most : code < 1000) :
    after.responseStatus.has code = true ↔
      acc.responseStatus.has code = true ∨ p.Stores code := by
  unfold FieldAccumulator.add at added
  cases isField : p.field with
  | statusCode =>
    simp only [isField] at added
    obtain ⟨set, isSet, rfl⟩ := Outcome.map_eq_ok_iff.mp added
    exact has_addStatuses isField isSet least most
  | body => simp [isField] at added
  | _ =>
    simp only [isField] at added
    obtain ⟨_, _, rfl⟩ := Outcome.map_eq_ok_iff.mp added
    simp [Predicate.Stores, isField]

/-- Collecting a predicate of the phase. -/
theorem Collected.add (collected : Collected phase predicates acc) (samePhase : p.phase = phase) :
    Collected phase (predicates ++ [p]) after := by
  obtain ⟨allowIps, responseHeaders, methods⟩ := add_constant added
  constructor
  · rw [allowIps, collected.allowIps]
  · rw [add_denyIps added, collected.denyIps, networksOf_append]
    simp [samePhase, IpSetBuilder.insertNetworks, foldl_append]
  · exact methods collected.methods
  · intro field builder isText
    obtain ⟨old, isOld, change⟩ := add_texts added isText
    rw [collected.texts _ _ isOld] at change
    split at change
    next same =>
      subst samePhase same
      exact add_textsOf change
    next other =>
      rw [textsOf_other (Or.inr other)]
      exact change
  · intro code least most
    rw [add_responseStatus added least most, collected.responseStatus code least most,
      stored_append]
    simp [samePhase]
  · rw [responseHeaders, collected.responseHeaders]

end Adding

structure Gathered (predicates : List Predicate) (builder : RuleBuilder) : Prop where
  negated : builder.negated = false
  ruleMeta : builder.ruleMeta = predicates.head?.map (·.ruleMeta)
  inbound : Collected .inboundHeaders predicates builder.inboundHeaders
  outbound : Collected .outboundHeaders predicates builder.outboundHeaders

theorem gathered_default : Gathered [] RuleBuilder.default := by
  constructor
  · rfl
  · rfl
  · exact collected_default _
  · exact collected_default _

variable {builder : RuleBuilder}

theorem Gathered.compilePredicate {after : RuleBuilder} (gathered : Gathered predicates builder)
    (compiled : compilePredicate p builder = .ok after) :
    Gathered (predicates ++ [p]) after := by
  unfold Waf.compilePredicate at compiled
  obtain ⟨_, -, compiled⟩ := Outcome.bind_eq_ok_iff.mp compiled
  obtain ⟨_, -, compiled⟩ := Outcome.bind_eq_ok_iff.mp compiled
  have metaKept : (builder.withMeta p.ruleMeta).ruleMeta =
      (predicates ++ [p]).head?.map (·.ruleMeta) := by
    rw [RuleBuilder.withMeta, gathered.ruleMeta]
    cases predicates <;> rfl
  have fields : ∀ {f : FieldAccumulator → Outcome CompileError FieldAccumulator},
      (∀ acc, f acc = acc.add p) →
      (builder.withMeta p.ruleMeta).onFields p.phase f = .ok after →
      Gathered (predicates ++ [p]) after := by
    intro f isAdd added
    unfold RuleBuilder.onFields at added
    cases isPhase : p.phase with
    | inboundHeaders =>
      simp only [isPhase] at added
      obtain ⟨acc, isAcc, rfl⟩ := Outcome.map_eq_ok_iff.mp added
      rw [isAdd] at isAcc
      exact ⟨gathered.negated, metaKept, gathered.inbound.add isAcc isPhase,
        gathered.outbound.skip (by simp [isPhase])⟩
    | outboundHeaders =>
      simp only [isPhase] at added
      obtain ⟨acc, isAcc, rfl⟩ := Outcome.map_eq_ok_iff.mp added
      rw [isAdd] at isAcc
      exact ⟨gathered.negated, metaKept, gathered.inbound.skip (by simp [isPhase]),
        gathered.outbound.add isAcc isPhase⟩
    | _ => simp_all
  cases isField : p.field with
  | body =>
    simp only [isField] at compiled
    unfold RuleBuilder.onBody at compiled
    cases isPhase : p.phase with
    | inboundHeaders | outboundHeaders => simp_all
    | _ =>
      simp only [isPhase] at compiled
      obtain ⟨acc, isAcc, rfl⟩ := Outcome.map_eq_ok_iff.mp compiled
      exact ⟨gathered.negated, metaKept, gathered.inbound.skip (by simp [isPhase]),
        gathered.outbound.skip (by simp [isPhase])⟩
  | _ => simp_all

theorem Gathered.compileAll {rest : List Predicate} {after : RuleBuilder}
    (gathered : Gathered predicates builder) (compiled : compileAll rest builder = .ok after) :
    Gathered (predicates ++ rest) after := by
  induction rest generalizing predicates builder with
  | nil =>
    cases compiled
    rw [append_nil]
    exact gathered
  | cons p rest ih =>
    rw [Waf.compileAll] at compiled
    obtain ⟨middle, first, others⟩ := Outcome.bind_eq_ok_iff.mp compiled
    rw [append_cons]
    exact ih (gathered.compilePredicate first) others

/-- A compiled rule has collected its predicates. -/
theorem gathered_compileRule {rule : Expr} (compiled : compileRule rule .default = .ok builder) :
    Gathered rule.predicates builder := by
  rw [compileRule_eq] at compiled
  exact gathered_default.compileAll compiled

end Accumulators

end Ophan.Waf
