import Ophan.Waf.Duplex

/-!
# The anomaly score of a run

Every match that is not allowed adds its score, and the sum wraps around.  So the
score of a run grows, and the threshold holds for the exact sum of the reported
scores, exactly as long as no addition passes the width of the counter.
-/

namespace Ophan.Waf

open Ophan.Http Ophan.Net

/-- A call of any hook of a session. -/
inductive Hook where
  | requestHeaders (host : Option Bytes) (req : RequestParts) (clientIp : Option IpAddr)
  | later (call : HookCall)

def WafResult.scoreDelta : WafResult → Option UInt32
  | .pass => none
  | .log scoreDelta _ | .block scoreDelta _ _ => some scoreDelta

/-- The body session that takes the next chunk, unless the chunk is passed. -/
def Direction.taking : Direction → SessionState → Option BodySession
  | _, .initial | _, .responseHeaders => some .new
  | .request, .requestBody body | .response, .responseBody body => some body
  | _, _ => none

namespace WafSession

variable (libs : Libraries) (config : WafConfig)

def call (session : WafSession) : Hook → Outcome Empty (WafResult × WafSession)
  | .requestHeaders host req clientIp => .ok (session.onRequestHeaders config host req clientIp)
  | .later call => session.perform libs config call

/-- The rule that a hook matches. -/
def matched (session : WafSession) : Hook → Option RuleMeta
  | .requestHeaders host req clientIp =>
    if session.isDone then none
    else firstRequestMatch config.compiled.requestHeaders (clientIp.or session.clientIp) host req
  | .later (.bodyChunk direction chunk endBody) =>
    (direction.taking session.state).bind fun body =>
      match body.feed libs (direction.phase config.compiled) chunk endBody with
      | (.block, after) => (direction.phase config.compiled).metaOf after.lastHit
      | _ => none
  | .later (.responseHeaders status headers) =>
    if session.isDone then none
    else
      match firstResponseMatch status headers config.compiled.responseHeaders with
      | .ok found => found
      | _ => none

/-- The score that the matched rule adds. -/
def added (found : Option RuleMeta) : Option UInt32 :=
  found.bind fun ruleMeta => if ruleMeta.action = .allow then none else some ruleMeta.score

/-- At each hook of a run the score does not fall, and a match that is reported
when the exact sum of the reported scores reaches the threshold blocks. -/
def Accumulates (session : WafSession) (sum : Nat) : List Hook → Prop
  | [] => True
  | hook :: rest => ∀ result next, session.call libs config hook = .ok (result, next) →
    session.totalScore ≤ next.totalScore ∧
      (∀ delta, result.scoreDelta = some delta →
        config.anomalyThreshold.toNat ≤ sum + delta.toNat → result.decision.isSome = true) ∧
      next.Accumulates (sum + (result.scoreDelta.getD 0).toNat) rest

/-- At each hook of a run the counter has room for the score of the matched rule. -/
def Fits (session : WafSession) : List Hook → Prop
  | [] => True
  | hook :: rest => ∀ result next, session.call libs config hook = .ok (result, next) →
    session.totalScore.toNat + ((added (session.matched libs config hook)).getD 0).toNat < 2 ^ 32 ∧
      next.Fits rest

/-- A step applies the rule that a hook matches, if any, to a score. -/
def Applies (score : UInt32) (found : Option RuleMeta) (step : WafResult × WafSession) : Prop :=
  ∃ (session : WafSession) (phase : Phase) (field : Field), session.totalScore = score ∧
    step = found.elim (.pass, session) (session.applyMatch config phase · field)

variable {libs config} {session : WafSession}

theorem onBodyChunk_applies (direction : Direction) (chunk : Bytes) (endBody : Bool) :
    Applies config session.totalScore
      (session.matched libs config (.later (.bodyChunk direction chunk endBody)))
      (session.onBodyChunk libs config direction chunk endBody) := by
  cases isTaking : direction.taking session.state with
  | none =>
    refine ⟨session, direction.name, .body, rfl, ?_⟩
    simp only [matched, isTaking]
    cases direction <;> cases isState : session.state <;>
      simp_all [Direction.taking, onBodyChunk, onRequestBodyChunk, onResponseBodyChunk]
  | some body =>
    have holds : Holds direction session body := by
      cases direction <;> cases isState : session.state <;>
        simp_all [Direction.taking, Holds, Direction.wrap]
    rw [onBodyChunk_eq holds, feedBody]
    simp only [matched, isTaking, Option.bind_some]
    cases body.feed libs (direction.phase config.compiled) chunk endBody with
    | mk action after =>
      cases action with
      | block =>
        refine ⟨{ session with state := direction.wrap after }, direction.name, .body, rfl, ?_⟩
        simp only
        cases (direction.phase config.compiled).metaOf after.lastHit with
        | none | some => rfl
      | proceed =>
        exact ⟨{ session with state := direction.wrap after }, .inboundBody, .body, rfl, rfl⟩
      | allow => exact ⟨{ session with state := .responseHeaders }, .inboundBody, .body, rfl, rfl⟩

theorem call_applies {hook : Hook} {step : WafResult × WafSession}
    (called : session.call libs config hook = .ok step) :
    Applies config session.totalScore (session.matched libs config hook) step := by
  cases hook with
  | requestHeaders host req clientIp =>
    cases called
    by_cases done : session.isDone = true
    · exact ⟨session, .inboundHeaders, .host, rfl, by simp [onRequestHeaders, matched, done]⟩
    · refine ⟨⟨.responseHeaders, session.totalScore, clientIp.or session.clientIp⟩,
        .inboundHeaders, .host, rfl, ?_⟩
      simp only [onRequestHeaders, matched, if_neg done]
      cases firstRequestMatch _ _ _ _ with
      | none | some => rfl
  | later call =>
    cases call with
    | bodyChunk direction chunk endBody =>
      cases called
      exact onBodyChunk_applies direction chunk endBody
    | responseHeaders status headers =>
      change session.onResponseHeaders config status headers = _ at called
      unfold onResponseHeaders at called
      by_cases done : session.isDone = true
      · rw [if_pos done] at called
        cases called
        exact ⟨session, .outboundHeaders, .statusCode, rfl, by simp [matched, done]⟩
      · rw [if_neg done] at called
        obtain ⟨found, isFound, isStep⟩ := Outcome.map_eq_ok_iff.mp called
        subst isStep
        simp only [matched, if_neg done, isFound]
        refine ⟨{ session with state := .responseHeaders }, .outboundHeaders, .statusCode, rfl, ?_⟩
        cases found with
        | none | some => rfl

section Blocking

variable {rules : CompiledWafRules} {threshold : UInt32}

/-- What a rule does to the score and the result in blocking mode. -/
theorem Applies.blocking {score : UInt32} {found : Option RuleMeta}
    {step : WafResult × WafSession}
    (applies : Applies ⟨.blocking, rules, threshold⟩ score found step) :
    step.1.scoreDelta = added found ∧ step.2.totalScore = score + (added found).getD 0 ∧
      (added found ≠ none → threshold ≤ step.2.totalScore → step.1.decision.isSome = true) := by
  obtain ⟨session, phase, field, isScore, isStep⟩ := applies
  subst isScore isStep
  cases found with
  | none => simp [added, WafResult.scoreDelta]
  | some ruleMeta =>
    simp only [Option.elim_some, added, Option.bind_some]
    unfold applyMatch
    cases ruleMeta.action with
    | allow => simp [WafResult.scoreDelta]
    | block | challenge => simp [WafResult.scoreDelta, WafResult.decision]
    | log =>
      by_cases reached : threshold ≤ session.totalScore + ruleMeta.score
      · simp [WafResult.scoreDelta, WafResult.decision, reached]
      · simp [WafResult.scoreDelta, reached]

theorem le_add_iff (score delta : UInt32) :
    score ≤ score + delta ↔ score.toNat + delta.toNat < 2 ^ 32 := by
  have small := delta.toNat_lt
  rw [UInt32.le_iff_toNat_le, UInt32.toNat_add]
  omega

/-- By the step: an addition that fits keeps the score equal to the exact sum. -/
theorem accumulates_of_sum (hooks : List Hook) :
    session.Accumulates libs ⟨.blocking, rules, threshold⟩ session.totalScore.toNat hooks ↔
      session.Fits libs ⟨.blocking, rules, threshold⟩ hooks := by
  induction hooks generalizing session with
  | nil => exact Iff.rfl
  | cons hook rest ih =>
    unfold Accumulates Fits
    refine forall_congr' fun result => forall_congr' fun next => forall_congr' fun called => ?_
    obtain ⟨isDelta, isScore, blocks⟩ := (call_applies called).blocking
    simp only at isDelta isScore blocks
    rw [isScore, le_add_iff]
    refine and_congr_right fun fits => ?_
    have isSum : session.totalScore.toNat + (result.scoreDelta.getD 0).toNat =
        next.totalScore.toNat := by
      rw [isDelta, isScore, UInt32.toNat_add, Nat.mod_eq_of_lt fits]
    rw [isSum, ih]
    refine and_iff_right ?_
    intro delta reported reached
    rw [reported, Option.getD_some] at isSum
    rw [isSum] at reached
    exact blocks (by simp [← isDelta, reported]) (UInt32.le_iff_toNat_le.mpr reached)

end Blocking

/-- In blocking mode the score of a run only grows, and the reported match that
brings the exact sum to the threshold blocks, exactly when each addition fits. -/
theorem accumulates_iff (libs : Libraries) (rules : CompiledWafRules) (threshold : UInt32)
    (clientIp : Option IpAddr) (hooks : List Hook) :
    (WafSession.new clientIp).Accumulates libs ⟨.blocking, rules, threshold⟩ 0 hooks ↔
      (WafSession.new clientIp).Fits libs ⟨.blocking, rules, threshold⟩ hooks :=
  accumulates_of_sum hooks

end WafSession

/-- The rule on `evil`, with a score of half of the counter and more. -/
def heavyRule : Expr :=
  .predicate
    { phase := .inboundBody
      field := .body
      op := .contains
      value := .string [101, 118, 105, 108]
      ruleMeta := ⟨"evil", 3000000000, .log, .a03Injection⟩ }

/-- Two matches of the rule sum up to more than the threshold, but the second only
logs, and the score falls. -/
theorem score_wraps :
    ∃ rules, compile .naive heavyRule.alone = .ok rules ∧
      let config : WafConfig := ⟨.blocking, rules, 4000000000⟩
      let first := (WafSession.new none).onRequestHeaders config none (getRequest [47]).parts none
      let second := first.2.onRequestBodyChunk .naive config [101, 118, 105, 108] true
      first.1.scoreDelta = some 3000000000 ∧ second.1.scoreDelta = some 3000000000 ∧
        second.1.decision = none ∧ second.2.totalScore < first.2.totalScore := by
  refine ⟨_, rfl, ?_⟩
  decide

end Ophan.Waf
