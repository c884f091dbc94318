import Ophan.Waf.Collect

/-!
# Totality of the compiler

The matrix checks field and operator, and operator and value, but not field and
value.  A predicate that it lets through may still have a value that its field
does not take, and then compiling it panics.
-/

namespace Ophan.Waf

open List
open Ophan.Http Ophan.Net

/-- A call that returns where a condition holds and panics where it does not. -/
structure Settles {ε α : Type*} (sound : Prop) (outcome : Outcome ε α) : Prop where
  returns : sound → ∃ value, outcome = .ok value
  panics : ¬ sound → outcome = .panic

section Settling

variable {ε α β : Type*} {sound : Prop} {outcome : Outcome ε α}

theorem Settles.map (settles : Settles sound outcome) (f : α → β) :
    Settles sound (outcome.map f) := by
  constructor
  · intro holds
    obtain ⟨value, isValue⟩ := settles.returns holds
    exact ⟨f value, by rw [isValue]; rfl⟩
  · intro fails
    rw [settles.panics fails]
    rfl

theorem Settles.bind {sound' : Prop} {next : α → Outcome ε β} (settles : Settles sound outcome)
    (settlesNext : ∀ value, Settles sound' (next value)) :
    Settles (sound ∧ sound') (outcome.bind next) := by
  constructor
  · rintro ⟨holds, holds'⟩
    obtain ⟨value, isValue⟩ := settles.returns holds
    rw [isValue]
    exact (settlesNext value).returns holds'
  · intro fails
    by_cases holds : sound
    · obtain ⟨value, isValue⟩ := settles.returns holds
      rw [isValue]
      exact (settlesNext value).panics fun holds' => fails ⟨holds, holds'⟩
    · rw [settles.panics holds]
      rfl

theorem Settles.congr {sound' : Prop} (settles : Settles sound outcome)
    (same : sound ↔ sound') : Settles sound' outcome where
  returns holds := settles.returns (same.mpr holds)
  panics fails := settles.panics fun holds => fails (same.mp holds)

theorem settles_ok (holds : sound) (value : α) : Settles sound (.ok value : Outcome ε α) where
  returns _ := ⟨value, rfl⟩
  panics fails := absurd holds fails

theorem settles_panic (fails : ¬ sound) : Settles sound (.panic : Outcome ε α) where
  returns holds := absurd holds fails
  panics _ := rfl

end Settling

def Predicate.Valid (p : Predicate) : Prop :=
  fieldInPhase p.phase p.field = true ∧ operatorSupported p.field p.op = true ∧
    valueFits p.op p.value = true

/-- A number that is no status code after the cast, or one that has a bit. -/
def Storable (number : Int) : Prop := asU16 number < 612 ∨ 1000 ≤ asU16 number

def Predicate.TakesValue (p : Predicate) : Prop :=
  match p.field with
  | .body => True
  | .ip => ∃ network, p.value = .ip network
  | .method =>
    (p.op = .eq → ∃ text, p.value = .string text) ∧
      (p.op = .isIn → ∃ values, p.value = .list values)
  | .statusCode =>
    (p.op = .eq → ∃ number, p.value = .integer number ∧ Storable number) ∧
      (p.op = .isIn → ∃ values, p.value = .list values ∧
        ∀ number, .integer number ∈ values → Storable number)
  | _ => p.op = .eq → ∃ text, p.value = .string text

section Lowering

variable {op : Operator} {value : Value}

theorem TextMatcherBuilder.add_settles (builder : TextMatcherBuilder)
    (supported : operatorSupported .path op = true) (fits : valueFits op value = true) :
    Settles (op = .eq → ∃ text, value = .string text) (builder.add op value) := by
  cases op <;> cases value <;> simp [operatorSupported, valueFits] at supported fits <;>
    first
      | exact settles_ok (by simp) _
      | exact settles_panic (by simp)

theorem BodyAccumulator.add_settles (acc : BodyAccumulator)
    (supported : operatorSupported .body op = true) (fits : valueFits op value = true) :
    Settles True (acc.add op value) := by
  cases op <;> cases value <;> simp [operatorSupported, valueFits] at supported fits <;>
    exact settles_ok trivial _

theorem addIp_settles (builder : IpSetBuilder) (supported : operatorSupported .ip op = true) :
    Settles (∃ network, value = .ip network) (addIp op value builder) := by
  cases op <;> simp [operatorSupported] at supported <;> cases value <;>
    first
      | exact settles_ok (by simp) _
      | exact settles_panic (by simp)

theorem addMethods_settles (methods : HttpMethodSet)
    (supported : operatorSupported .method op = true) :
    Settles ((op = .eq → ∃ text, value = .string text) ∧
      (op = .isIn → ∃ values, value = .list values)) (addMethods op value methods) := by
  cases op <;> simp [operatorSupported] at supported <;> cases value <;>
    first
      | exact settles_ok (by simp) _
      | exact settles_panic (by simp)

theorem insert_code_settles (set : StatusCodeSet) (status : StatusCode) :
    Settles (status.code < 612) (set.insert (.code status) : Outcome CompileError _) := by
  have isWord : (StatusCodeSet.index status).1 = (status.code - 100) / 64 :=
    Nat.shiftRight_eq_div_pow _ _
  rw [StatusCodeSet.insert, StatusCodeSet.setBit]
  by_cases inside : (StatusCodeSet.index status).1 < 8
  · rw [dif_pos inside]
    exact settles_ok (by omega) _
  · rw [dif_neg inside]
    exact settles_panic (by omega)

theorem addStatus_integer_settles (set : StatusCodeSet) (number : Int) :
    Settles (Storable number) (addStatus set (.integer number)) := by
  rw [addStatus, StatusCode.fromU16]
  by_cases valid : 100 ≤ asU16 number ∧ asU16 number < 1000
  · rw [dif_pos valid]
    have settles := insert_code_settles set ⟨asU16 number, valid.1, valid.2⟩
    constructor
    · intro storable
      exact settles.returns (storable.resolve_right (by omega))
    · intro outside
      exact settles.panics fun small => outside (Or.inl small)
  · rw [dif_neg valid]
    apply settles_ok
    unfold Storable
    omega

theorem addStatusList_settles (values : List Value) (set : StatusCodeSet) :
    Settles (∀ number, .integer number ∈ values → Storable number) (addStatusList set values) := by
  induction values generalizing set with
  | nil => exact settles_ok (by simp) _
  | cons value rest ih =>
    have first : Settles (∀ number, value = .integer number → Storable number)
        (addStatus set value) := by
      cases value with
      | integer number => exact (addStatus_integer_settles set number).congr (by simp)
      | _ => exact settles_ok (by simp) _
    refine (first.bind ih).congr ?_
    simp only [mem_cons, or_imp, forall_and, eq_comm]

theorem addStatuses_settles (set : StatusCodeSet)
    (supported : operatorSupported .statusCode op = true) (fits : valueFits op value = true) :
    Settles ((op = .eq → ∃ number, value = .integer number ∧ Storable number) ∧
      (op = .isIn → ∃ values, value = .list values ∧
        ∀ number, .integer number ∈ values → Storable number)) (addStatuses op value set) := by
  cases op <;> simp [operatorSupported] at supported
  case eq =>
    cases value with
    | integer number => exact (addStatus_integer_settles set number).congr (by simp)
    | _ => exact settles_panic (by simp)
  case isIn =>
    cases value with
    | list values => exact (addStatusList_settles values set).congr (by simp)
    | _ => exact settles_panic (by simp)
  case contains =>
    cases value with
    | string text =>
      cases isClass : statusClass text with
      | none =>
        rw [addStatuses, isClass]
        exact settles_ok (by simp) _
      | some pattern =>
        rw [addStatuses, isClass]
        unfold statusClass at isClass
        split_ifs at isClass <;> cases isClass <;> exact settles_ok (by simp) _
    | _ => cases fits

theorem BuilderMap.change_settles {sound : Prop} (map : BuilderMap) (name : Bytes)
    {f : TextMatcherBuilder → Outcome CompileError TextMatcherBuilder}
    (settles : ∀ builder, Settles sound (f builder)) : Settles sound (map.change name f) :=
  (settles _).map _

/-- A header accumulator takes a predicate that the matrix lets through exactly when
the field takes the value. -/
theorem FieldAccumulator.add_settles (acc : FieldAccumulator) (p : Predicate)
    (notBody : p.field ≠ .body) (supported : operatorSupported p.field p.op = true)
    (fits : valueFits p.op p.value = true) : Settles p.TakesValue (acc.add p) := by
  obtain ⟨phase, field, op, value, ruleMeta⟩ := p
  have text : operatorSupported .path op = true → ∀ builder : TextMatcherBuilder,
      Settles (op = .eq → ∃ text, value = .string text) (builder.add op value) :=
    fun isText builder => builder.add_settles isText fits
  change operatorSupported field op = true at supported
  cases field with
  | body => exact absurd rfl notBody
  | ip => exact (addIp_settles acc.denyIps supported).map _
  | method => exact (addMethods_settles acc.methods supported).map _
  | statusCode => exact (addStatuses_settles acc.responseStatus supported fits).map _
  | host => exact (text (by cases op <;> simp_all [operatorSupported]) acc.host).map _
  | path => exact (text supported acc.path).map _
  | query => exact (text (by cases op <;> simp_all [operatorSupported]) acc.query).map _
  | userAgent => exact (text (by cases op <;> simp_all [operatorSupported]) acc.userAgent).map _
  | header name =>
    exact (BuilderMap.change_settles acc.headers name
      (text (by cases op <;> simp_all [operatorSupported]))).map _
  | cookie name =>
    exact (BuilderMap.change_settles acc.cookies name
      (text (by cases op <;> simp_all [operatorSupported]))).map _

end Lowering

section Compiling

variable {p : Predicate}

theorem compilePredicate_settles (valid : p.Valid) (builder : RuleBuilder) :
    Settles p.TakesValue (compilePredicate p builder) := by
  obtain ⟨inPhase, supported, fits⟩ := valid
  have phaseOk : validateFieldPhase p = .ok () := if_pos inPhase
  have matrixOk : validateMatrix p = .ok () := (if_pos supported).trans (if_pos fits)
  unfold compilePredicate
  rw [phaseOk, matrixOk, Outcome.bind_ok, Outcome.bind_ok]
  by_cases isBody : p.field = .body
  · have takes : p.TakesValue ↔ True := by simp [Predicate.TakesValue, isBody]
    rw [isBody] at supported inPhase
    simp only [isBody]
    refine Settles.congr ?_ takes.symm
    cases isPhase : p.phase with
    | inboundBody | outboundBody => exact (BodyAccumulator.add_settles _ supported fits).map _
    | inboundHeaders | outboundHeaders =>
      rw [isPhase] at inPhase
      cases inPhase
  · split
    · simp_all
    · cases isPhase : p.phase with
      | inboundHeaders | outboundHeaders =>
        exact (FieldAccumulator.add_settles _ p isBody supported fits).map _
      | inboundBody | outboundBody =>
        cases isField : p.field <;> simp_all [fieldInPhase]

theorem compilePredicate_err (invalid : ¬ p.Valid) (builder : RuleBuilder) :
    ∃ error, compilePredicate p builder = .err error := by
  unfold compilePredicate validateFieldPhase validateMatrix
  split_ifs with inPhase supported fits
  · exact absurd ⟨inPhase, supported, fits⟩ invalid
  all_goals exact ⟨_, rfl⟩

/-- A predicate with a value that its field does not take, before which the checks
reject none. -/
def Breaks (predicates : List Predicate) : Prop :=
  ∃ before p after, predicates = before ++ p :: after ∧ (∀ q ∈ before, q.Valid) ∧ p.Valid ∧
    ¬ p.TakesValue

theorem not_breaks_nil : ¬ Breaks [] := by
  rintro ⟨before, p, after, isNil, _⟩
  cases before <;> cases isNil

theorem breaks_cons (p : Predicate) (rest : List Predicate) :
    Breaks (p :: rest) ↔ p.Valid ∧ (¬ p.TakesValue ∨ Breaks rest) := by
  constructor
  · rintro ⟨before, q, after, isSplit, valid, isValid, fails⟩
    cases before with
    | nil => simp_all
    | cons first before =>
      injection isSplit with isHead isTail
      subst isHead
      refine ⟨valid p mem_cons_self, Or.inr ⟨before, q, after, isTail, ?_, isValid, fails⟩⟩
      exact (forall_mem_cons.mp valid).2
  · rintro ⟨isValid, fails | ⟨before, q, after, isSplit, valid, validQ, fails⟩⟩
    · exact ⟨[], p, rest, rfl, by simp, isValid, fails⟩
    · exact ⟨p :: before, q, after, by rw [isSplit]; rfl, forall_mem_cons.mpr ⟨isValid, valid⟩,
        validQ, fails⟩

theorem breaks_append (first second : List Predicate) :
    Breaks (first ++ second) ↔
      Breaks first ∨ ((∀ p ∈ first, p.Valid ∧ p.TakesValue) ∧ Breaks second) := by
  induction first with
  | nil => simp [not_breaks_nil]
  | cons p rest ih =>
    rw [cons_append, breaks_cons, breaks_cons, ih, forall_mem_cons]
    tauto

/-- Predicates are collected without a panic exactly when none breaks the compiler. -/
theorem compileAll_panic_iff (predicates : List Predicate) (builder : RuleBuilder) :
    (compileAll predicates builder = .panic ↔ Breaks predicates) ∧
      ((∃ after, compileAll predicates builder = .ok after) ↔
        ∀ p ∈ predicates, p.Valid ∧ p.TakesValue) := by
  induction predicates generalizing builder with
  | nil => simp [compileAll, not_breaks_nil]
  | cons p rest ih =>
    rw [compileAll, breaks_cons, forall_mem_cons]
    by_cases valid : p.Valid
    · by_cases takes : p.TakesValue
      · obtain ⟨after, isAfter⟩ := (compilePredicate_settles valid builder).returns takes
        simp_all
      · rw [(compilePredicate_settles valid builder).panics takes]
        simp [valid, takes]
    · obtain ⟨error, isError⟩ := compilePredicate_err valid builder
      rw [isError]
      simp [valid]

theorem compileRules_panic_iff (libs : Libraries) (rules : List Expr) (lists : RuleLists) :
    compileRules libs rules lists = .panic ↔ Breaks (predicatesOf rules) := by
  induction rules generalizing lists with
  | nil => simp [compileRules, predicatesOf, not_breaks_nil]
  | cons rule rest ih =>
    obtain ⟨panics, returns⟩ := compileAll_panic_iff rule.predicates .default
    rw [compileRules, predicatesOf, breaks_append, compileRule_eq, ← panics, ← returns]
    cases compileAll rule.predicates .default with
    | ok builder => simpa using ih _
    | err | panic => simp

theorem predicatesOf_rulesOf (root : Expr) : predicatesOf (rulesOf root) = root.predicates := by
  cases root with
  | allOf children => rw [rulesOf, Expr.predicates]
  | anyOf | not | predicate =>
    rw [rulesOf, predicatesOf, predicatesOf, append_nil]
    simp

end Compiling

/-- Compiling a rule set never panics exactly when every predicate has a value that
its field takes, up to the first predicate that the checks reject. -/
theorem compile_total_iff (libs : Libraries) (root : Expr) :
    compile libs root ≠ .panic ↔
      ∀ before p after, root.predicates = before ++ p :: after →
        (∀ q ∈ before, q.Valid) → p.Valid → p.TakesValue := by
  have panics : compile libs root = .panic ↔ Breaks root.predicates := by
    rw [← predicatesOf_rulesOf, ← compileRules_panic_iff libs _ ⟨[], [], [], []⟩]
    unfold compile
    cases compileRules libs (rulesOf root) ⟨[], [], [], []⟩ <;> simp
  rw [Ne, panics]
  constructor
  · intro sound before p after isSplit valid isValid
    by_contra fails
    exact sound ⟨before, p, after, isSplit, valid, isValid, fails⟩
  · rintro takes ⟨before, p, after, isSplit, valid, isValid, fails⟩
    exact fails (takes before p after isSplit valid isValid)

/-- The rule that compares a field of a request or response with a number. -/
def comparison (phase : Phase) (field : Field) (number : Int) : Expr :=
  .predicate ⟨phase, field, .eq, .integer number, ⟨"r", 0, .log, .a03Injection⟩⟩

/-- A path that is compared with a number, and a status code that has no bit. -/
theorem compile_panics :
    compile .naive (comparison .inboundHeaders .path 1) = .panic ∧
      compile .naive (comparison .outboundHeaders .statusCode 999) = .panic :=
  ⟨rfl, rfl⟩

end Ophan.Waf
