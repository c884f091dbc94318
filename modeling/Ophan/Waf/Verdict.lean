import Ophan.Waf.Meaning
import Ophan.Waf.Streaming

/-!
# Verdicts of a session

A body session that has matched reports its match for every further chunk, and
each report is applied again.  So the score and the decision of a session are
told by the first match and by the number of chunks from there on.
-/

namespace Ophan.Waf

open List
open Ophan.Http Ophan.Net

section Weighing

variable (config : WafConfig)

/-- The action that ends a session when a rule is applied, where `score` is the
score with the rule's own. -/
def ending (ruleMeta : RuleMeta) (score : UInt32) : Option WafAction :=
  match config.mode, ruleMeta.action with
  | .blocking, .block status => some (.block status)
  | .blocking, .challenge => some (.challenge .jsChallenge)
  | .blocking, .log => if score ≥ config.anomalyThreshold then some (.block 403) else none
  | _, _ => none

def weigh (ruleMeta : RuleMeta) (score : UInt32) : UInt32 × Option WafAction :=
  if ruleMeta.action = .allow then (score, none)
  else (score + ruleMeta.score, ending config ruleMeta (score + ruleMeta.score))

/-- The score and the decision after a rule is applied a number of times, or
until it ends the session. -/
def tally (ruleMeta : RuleMeta) : Nat → UInt32 → UInt32 × Option WafAction
  | 0, score => (score, none)
  | count + 1, score =>
    match weigh config ruleMeta score with
    | (after, some action) => (after, some action)
    | (after, none) => tally ruleMeta count after

theorem applyMatch_eq (session : WafSession) (phase : Phase) (ruleMeta : RuleMeta) (field : Field) :
    (session.applyMatch config phase ruleMeta field).1.decision =
        (weigh config ruleMeta session.totalScore).2 ∧
      (session.applyMatch config phase ruleMeta field).2 =
        { session with
          totalScore := (weigh config ruleMeta session.totalScore).1
          state := if (weigh config ruleMeta session.totalScore).2.isSome then .done
            else session.state } := by
  unfold WafSession.applyMatch weigh ending
  by_cases allowed : ruleMeta.action = .allow
  · rw [if_pos allowed, if_pos allowed]
    exact ⟨rfl, rfl⟩
  · rw [if_neg allowed, if_neg allowed]
    cases config.mode with
    | disabled | detectionOnly => exact ⟨rfl, rfl⟩
    | blocking =>
      cases isAction : ruleMeta.action with
      | allow => exact absurd isAction allowed
      | block | challenge => exact ⟨rfl, rfl⟩
      | log =>
        by_cases reached : session.totalScore + ruleMeta.score ≥ config.anomalyThreshold
        · simp [WafResult.decision, reached]
        · simp [WafResult.decision, reached]

def charge (hit : Option RuleMeta) (count : Nat) (score : UInt32) : UInt32 × Option WafAction :=
  hit.elim (score, none) fun ruleMeta => tally config ruleMeta count score

/-- A rule is settled when applying it more than once is no different: it allows,
it has no score, or it ends the session at once. -/
def Settled (hit : Option RuleMeta) (score : UInt32) : Prop :=
  ∀ ruleMeta, hit = some ruleMeta →
    ruleMeta.action = .allow ∨ ruleMeta.score = 0 ∨
      (ending config ruleMeta (score + ruleMeta.score)).isSome = true

variable {config}

variable {ruleMeta : RuleMeta} {score : UInt32}

theorem tally_of_ends {action : WafAction}
    (ends : (weigh config ruleMeta score).2 = some action) (count : Nat) :
    tally config ruleMeta (count + 1) score = ((weigh config ruleMeta score).1, some action) := by
  rw [tally]
  cases weighed : weigh config ruleMeta score with
  | mk after decision => simp_all

theorem tally_of_goes (goes : (weigh config ruleMeta score).2 = none) (count : Nat) :
    tally config ruleMeta (count + 1) score =
      tally config ruleMeta count (weigh config ruleMeta score).1 := by
  rw [tally]
  cases weighed : weigh config ruleMeta score with
  | mk after decision => simp_all

theorem tally_of_idle (idle : weigh config ruleMeta score = (score, none)) (count : Nat) :
    tally config ruleMeta count score = (score, none) := by
  induction count with
  | zero => rfl
  | succ count ih =>
    rw [tally_of_goes (by rw [idle]), idle]
    exact ih

variable {hit : Option RuleMeta}

theorem charge_of_settled (settled : Settled config hit score) (count : Nat) :
    charge config hit (count + 1) score = charge config hit 1 score := by
  cases hit with
  | none => rfl
  | some ruleMeta =>
    simp only [charge, Option.elim_some]
    cases decided : (weigh config ruleMeta score).2 with
    | some action => rw [tally_of_ends decided, tally_of_ends decided]
    | none =>
      have idle : weigh config ruleMeta score = (score, none) := by
        unfold weigh at decided ⊢
        by_cases allows : ruleMeta.action = .allow
        · rw [if_pos allows]
        · rw [if_neg allows] at decided ⊢
          simp only at decided
          rcases settled ruleMeta rfl with isAllow | free | ends
          · exact absurd isAllow allows
          · rw [decided, free, UInt32.add_zero]
          · simp [decided] at ends
      rw [tally_of_idle idle, tally_of_idle idle]

theorem settled_of_charge (same : charge config hit 2 score = charge config hit 1 score) :
    Settled config hit score := by
  intro ruleMeta isMeta
  subst isMeta
  by_cases allows : ruleMeta.action = .allow
  · exact Or.inl allows
  · have weighed : ∀ score, weigh config ruleMeta score =
        (score + ruleMeta.score, ending config ruleMeta (score + ruleMeta.score)) := by
      intro score
      unfold weigh
      rw [if_neg allows]
    cases decided : ending config ruleMeta (score + ruleMeta.score) with
    | some action => exact Or.inr (Or.inr rfl)
    | none =>
      have goes : (weigh config ruleMeta score).2 = none := by simp_all
      simp only [charge, Option.elim_some] at same
      rw [tally_of_goes goes, tally_of_goes goes, weighed] at same
      have scores := congrArg Prod.fst same
      simp only [tally, weighed] at scores
      have twice : score + ruleMeta.score + ruleMeta.score = score + ruleMeta.score := by grind
      exact Or.inr (Or.inl (UInt32.add_eq_left.mp twice))

theorem charge_of_two (same : charge config hit 3 score = charge config hit 2 score) (more : Nat) :
    charge config hit (more + 2) score = charge config hit 2 score := by
  cases hit with
  | none => rfl
  | some ruleMeta =>
    simp only [charge, Option.elim_some] at same ⊢
    cases decided : (weigh config ruleMeta score).2 with
    | some action => rw [tally_of_ends decided, tally_of_ends decided]
    | none =>
      rw [tally_of_goes decided, tally_of_goes decided] at same ⊢
      have settled : Settled config (some ruleMeta) (weigh config ruleMeta score).1 :=
        settled_of_charge same
      exact charge_of_settled settled more

end Weighing

section Hits

/-- A phase whose literals are told by their first occurrence, through the window
that a session keeps. -/
structure CompiledBodyPhase.FindsFirst (phase : CompiledBodyPhase) : Prop where
  window : ∀ before chunk, phase.literalIn before = none →
    phase.literalIn (before.rtake phase.overlapLen ++ chunk) = phase.literalIn (before ++ chunk)
  stable : ∀ {before idx}, phase.literalIn before = some idx →
    ∀ chunk, phase.literalIn (before ++ chunk) = some idx

theorem CompiledBodyPhase.FindsFirst.windowed {phase : CompiledBodyPhase}
    (findsFirst : phase.FindsFirst) : phase.Windowed := by
  intro before chunk quiet
  rw [findsFirst.window before chunk quiet]

/-- The first hit in the chunks of a body behind a text, and the number of chunks
from there on. -/
def CompiledBodyPhase.firstHit (phase : CompiledBodyPhase) :
    Bytes → List Bytes → Option (BodyMatchInfo × Nat)
  | _, [] => none
  | before, chunk :: rest =>
    match phase.report (phase.literalIn (before ++ chunk)) (before ++ chunk) rest.isEmpty with
    | some info => some (info, rest.length + 1)
    | none => phase.firstHit (before ++ chunk) rest

/-- What the first hit in a body can be, over all ways to cut it. -/
inductive FirstHit (phase : CompiledBodyPhase) (body : Bytes) :
    Option (BodyMatchInfo × Nat) → Prop where
  | literal {idx : Nat} (found : phase.literalIn body = some idx) (more : Nat) :
      FirstHit phase body (some (⟨idx, false⟩, more + 1))
  | regex {pattern : Nat} (quiet : phase.literalIn body = none)
      (matched : phase.dfaRun body = .matched pattern) (more : Nat) :
      FirstHit phase body (some (⟨pattern, true⟩, more + 1))
  | early {idx pattern : Nat} {before : Bytes}
      (found : phase.literalIn body = some idx) (isBefore : before <+: body)
      (quiet : phase.literalIn before = none)
      (matched : phase.dfaRun before = .matched pattern) (more : Nat) :
      FirstHit phase body (some (⟨pattern, true⟩, more + 2))
  | ended (quiet : phase.literalIn body = none)
      (unmatched : ∀ pattern, phase.dfaRun body ≠ .matched pattern) :
      FirstHit phase body ((phase.eoiHit body).map fun info => (info, 1))

variable {phase : CompiledBodyPhase}

variable {before : Bytes} {pattern : Nat}

theorem report_of_matched {text : Bytes}
    (matched : phase.dfaRun text = .matched pattern) (endBody : Bool) :
    phase.report none text endBody = some ⟨pattern, true⟩ := by
  simp only [CompiledBodyPhase.report, matched]

theorem report_of_unmatched {text : Bytes}
    (unmatched : ∀ pattern, phase.dfaRun text ≠ .matched pattern) (endBody : Bool) :
    phase.report none text endBody = if endBody then phase.eoiHit text else none := by
  unfold CompiledBodyPhase.report
  cases run : phase.dfaRun text with
  | matched pattern => exact absurd run (unmatched pattern)
  | gaveUp | reached => rfl

theorem firstHit_cases (findsFirst : phase.FindsFirst) (before : Bytes)
    {chunks : List Bytes} (delivered : chunks ≠ []) :
    FirstHit phase (before ++ chunks.flatten) (phase.firstHit before chunks) := by
  induction chunks generalizing before with
  | nil => exact absurd rfl delivered
  | cons chunk rest ih =>
    have cut : before ++ (chunk :: rest).flatten = (before ++ chunk) ++ rest.flatten := by
      rw [flatten_cons, append_assoc]
    rw [cut, CompiledBodyPhase.firstHit]
    cases found : phase.literalIn (before ++ chunk) with
    | some idx => exact .literal (findsFirst.stable found _) _
    | none =>
      by_cases matched : ∃ pattern, phase.dfaRun (before ++ chunk) = .matched pattern
      · obtain ⟨pattern, run⟩ := matched
        simp only [report_of_matched run]
        cases later : phase.literalIn ((before ++ chunk) ++ rest.flatten) with
        | none => exact .regex later (by rw [dfaRun_append, run]; rfl) _
        | some idx =>
          -- the literal ends in a later chunk, so this one is not the last
          cases rest with
          | nil => simp [flatten_nil, append_nil, found] at later
          | cons next rest => exact .early later (prefix_append _ _) found run _
      · have unmatched : ∀ pattern, phase.dfaRun (before ++ chunk) ≠ .matched pattern :=
          fun pattern run => matched ⟨pattern, run⟩
        simp only [report_of_unmatched unmatched]
        cases rest with
        | nil =>
          have ended := FirstHit.ended found unmatched
          rw [flatten_nil, append_nil]
          cases isEoi : phase.eoiHit (before ++ chunk) with
          | none | some =>
            rw [isEoi] at ended
            exact ended
        | cons next rest => exact ih (before ++ chunk) (cons_ne_nil _ _)

variable (config : WafConfig)

/-- The score and the decision that the first hit of a body leads to. -/
def sentence (phase : CompiledBodyPhase) (hit : Option (BodyMatchInfo × Nat))
    (score : UInt32) : UInt32 × Option WafAction :=
  hit.elim (score, none) fun found => charge config (phase.metaOf (some found.1)) found.2 score

/-- The rules that a body can hit leave the same score and decision, whichever is
hit first and however often it is applied.  A regex can come before a literal
only in a chunk that is not the last. -/
structure CutSafe (phase : CompiledBodyPhase) (body : Bytes) (score : UInt32) :
    Prop where
  literal : ∀ idx, phase.literalIn body = some idx →
    Settled config (phase.metaOf (some ⟨idx, false⟩)) score
  regex : ∀ pattern, phase.literalIn body = none →
    phase.dfaRun body = .matched pattern →
    Settled config (phase.metaOf (some ⟨pattern, true⟩)) score
  early : ∀ idx pattern before, phase.literalIn body = some idx → before <+: body →
    phase.literalIn before = none → phase.dfaRun before = .matched pattern →
    ∀ count, count = 2 ∨ count = 3 →
      charge config (phase.metaOf (some ⟨pattern, true⟩)) count score =
        charge config (phase.metaOf (some ⟨idx, false⟩)) 1 score

variable {config} {body : Bytes} {score : UInt32}

/-- Every first hit leads to what the body leads to in one chunk. -/
theorem sentence_eq (safe : CutSafe config phase body score)
    {hit : Option (BodyMatchInfo × Nat)} (first : FirstHit phase body hit) :
    sentence config phase hit score =
      sentence config phase
        ((phase.report (phase.literalIn body) body true).map fun info => (info, 1))
        score := by
  cases first with
  | literal found more =>
    rw [found]
    exact charge_of_settled (safe.literal _ found) more
  | regex quiet matched more =>
    rw [quiet, report_of_matched matched]
    exact charge_of_settled (safe.regex _ quiet matched) more
  | early found isBefore quiet matched more =>
    have two := safe.early _ _ _ found isBefore quiet matched 2 (Or.inl rfl)
    have three := safe.early _ _ _ found isBefore quiet matched 3 (Or.inr rfl)
    rw [found]
    exact (charge_of_two (three.trans two.symm) more).trans two
  | ended quiet unmatched =>
    rw [quiet, report_of_unmatched unmatched]
    rfl

theorem firstHit_of_literal {chunk : Bytes} {idx : Nat}
    (found : phase.literalIn (before ++ chunk) = some idx) (rest : List Bytes) :
    phase.firstHit before (chunk :: rest) = some (⟨idx, false⟩, rest.length + 1) := by
  rw [CompiledBodyPhase.firstHit, found]
  rfl

theorem firstHit_of_regex {chunk : Bytes} (quiet : phase.literalIn (before ++ chunk) = none)
    (matched : phase.dfaRun (before ++ chunk) = .matched pattern) (rest : List Bytes) :
    phase.firstHit before (chunk :: rest) = some (⟨pattern, true⟩, rest.length + 1) := by
  rw [CompiledBodyPhase.firstHit, quiet]
  simp only [report_of_matched matched]

/-- The ways to cut a body lead to the same score and decision exactly when the
body is cut safe. -/
theorem cutSafe_iff (findsFirst : phase.FindsFirst) :
    (∀ first second : List Bytes, first ≠ [] → second ≠ [] →
      first.flatten = body → second.flatten = body →
      sentence config phase (phase.firstHit [] first) score =
        sentence config phase (phase.firstHit [] second) score) ↔
      CutSafe config phase body score := by
  constructor
  · intro same
    have whole : [body].flatten = body := by simp
    have trailed : [body, []].flatten = body := by simp
    constructor
    · intro idx found
      have twice := same [body, []] [body] (by simp) (by simp) trailed whole
      rw [firstHit_of_literal (by exact found), firstHit_of_literal (by exact found)] at twice
      exact settled_of_charge twice
    · intro pattern quiet matched
      have twice := same [body, []] [body] (by simp) (by simp) trailed whole
      rw [firstHit_of_regex quiet matched, firstHit_of_regex quiet matched] at twice
      exact settled_of_charge twice
    · rintro idx pattern before found ⟨after, rfl⟩ quiet matched count isCount
      rcases isCount with rfl | rfl
      · have agree := same [before, after] [before ++ after] (by simp) (by simp) (by simp) whole
        rw [firstHit_of_regex quiet matched, firstHit_of_literal (by exact found)] at agree
        exact agree
      · have agree := same [before, [], after] [before ++ after] (by simp) (by simp) (by simp) whole
        rw [firstHit_of_regex quiet matched, firstHit_of_literal (by exact found)] at agree
        exact agree
  · intro safe first second firstDelivered secondDelivered isFirst isSecond
    have firstCases := firstHit_cases findsFirst [] firstDelivered
    have secondCases := firstHit_cases findsFirst [] secondDelivered
    rw [nil_append, isFirst] at firstCases
    rw [nil_append, isSecond] at secondCases
    rw [sentence_eq safe firstCases, sentence_eq safe secondCases]

end Hits

section Sessions

inductive Direction where
  | request
  | response
  deriving DecidableEq, Repr

namespace Direction

def rules (direction : Direction) (rules : CompiledWafRules) : List CompiledBodyRule :=
  match direction with
  | request => rules.requestBody
  | response => rules.responseBody

def phase (direction : Direction) (rules : CompiledWafRules) : CompiledBodyPhase :=
  match direction with
  | request => rules.requestBodyPhase
  | response => rules.responseBodyPhase

def wrap (direction : Direction) : BodySession → SessionState :=
  match direction with
  | request => .requestBody
  | response => .responseBody

def name (direction : Direction) : Phase :=
  match direction with
  | request => .inboundBody
  | response => .outboundBody

end Direction

namespace WafSession

variable (libs : Libraries) (config : WafConfig) (direction : Direction)

def onBodyChunk (session : WafSession) (chunk : Bytes) (endBody : Bool) : WafResult × WafSession :=
  match direction with
  | .request => session.onRequestBodyChunk libs config chunk endBody
  | .response => session.onResponseBodyChunk libs config chunk endBody

def deliver : WafSession → List Bytes → List WafResult × WafSession
  | session, [] => ([], session)
  | session, chunk :: rest =>
    let step := session.onBodyChunk libs config direction chunk rest.isEmpty
    let after := deliver step.2 rest
    (step.1 :: after.1, after.2)

def verdict (session : WafSession) (chunks : List Bytes) : UInt32 × Option WafAction :=
  let delivered := session.deliver libs config direction chunks
  (delivered.2.totalScore, delivered.1.findSome? (·.decision))

theorem verdict_cons (session : WafSession) (chunk : Bytes) (rest : List Bytes) :
    session.verdict libs config direction (chunk :: rest) =
      let step := session.onBodyChunk libs config direction chunk rest.isEmpty
      let after := step.2.verdict libs config direction rest
      (after.1, step.1.decision.or after.2) := by
  unfold verdict
  simp only [deliver, List.findSome?_cons]
  cases WafResult.decision _ with
  | none | some => rfl

variable {libs config direction}

variable {session : WafSession}

theorem verdict_done (done : session.state = .done) (chunks : List Bytes) :
    session.verdict libs config direction chunks = (session.totalScore, none) := by
  induction chunks with
  | nil => rfl
  | cons chunk rest ih =>
    have step : session.onBodyChunk libs config direction chunk rest.isEmpty =
        (.pass, session) := by
      unfold onBodyChunk
      cases direction with
      | request => simp only [onRequestBodyChunk, done]
      | response => simp only [onResponseBodyChunk, done]
    rw [verdict_cons, step]
    simp only
    rw [ih]
    rfl

/-- The body session that a session feeds next. -/
def Holds (direction : Direction) (session : WafSession) (body : BodySession) : Prop :=
  session.state = direction.wrap body ∨
    (session.state = .initial ∨ session.state = .responseHeaders) ∧ body = .new

theorem onBodyChunk_eq {body : BodySession}
    (holds : Holds direction session body) (chunk : Bytes) (endBody : Bool) :
    session.onBodyChunk libs config direction chunk endBody =
      session.feedBody libs config (direction.phase config.compiled) direction.wrap
        direction.name body chunk endBody := by
  unfold onBodyChunk
  cases direction with
  | request =>
    rcases holds with isState | ⟨isState | isState, rfl⟩ <;>
      simp only [onRequestBodyChunk, isState] <;> rfl
  | response =>
    rcases holds with isState | ⟨isState | isState, rfl⟩ <;>
      simp only [onResponseBodyChunk, isState] <;> rfl

section Hit

variable {session : WafSession} {body after : BodySession} {chunk : Bytes}
  {rest : List Bytes} {phase : CompiledBodyPhase}
  (isPhase : direction.phase config.compiled = phase)

include isPhase

theorem verdict_cons_hit (holds : Holds direction session body)
    (fed : body.feed libs phase chunk rest.isEmpty = (.block, after))
    (later : ∀ next : WafSession, next.state = direction.wrap after →
      next.verdict libs config direction rest =
        charge config (phase.metaOf after.lastHit) rest.length next.totalScore) :
    session.verdict libs config direction (chunk :: rest) =
      charge config (phase.metaOf after.lastHit) (rest.length + 1) session.totalScore := by
  rw [verdict_cons, onBodyChunk_eq holds, isPhase]
  unfold feedBody
  simp only [fed]
  cases isMeta : phase.metaOf after.lastHit with
  | none =>
    simp only [isMeta] at later ⊢
    rw [later _ rfl]
    rfl
  | some ruleMeta =>
    simp only [isMeta, charge, Option.elim_some] at later ⊢
    obtain ⟨decision, applied⟩ := applyMatch_eq config
      { session with state := direction.wrap after } direction.name ruleMeta .body
    rw [decision, applied]
    simp only
    cases decided : (weigh config ruleMeta session.totalScore).2 with
    | some action =>
      rw [verdict_done (by rfl), tally_of_ends decided]
      rfl
    | none =>
      rw [later _ (by rfl), tally_of_goes decided]
      rfl

theorem verdict_matched (holds : session.state = direction.wrap after)
    (matched : after.phaseState = .matched) (chunks : List Bytes) :
    session.verdict libs config direction chunks =
      charge config (phase.metaOf after.lastHit) chunks.length session.totalScore := by
  induction chunks generalizing session with
  | nil =>
    cases phase.metaOf after.lastHit with
    | none | some => rfl
  | cons chunk rest ih =>
    apply verdict_cons_hit isPhase (Or.inl holds)
    · unfold BodySession.feed
      rw [matched]
    · simp_all

/-- A session passes the sentence of the first hit. -/
theorem verdict_eq (findsFirst : phase.FindsFirst) {before : Bytes}
    (holds : Holds direction session body) (streaming : Streaming phase before body)
    (chunks : List Bytes) :
    session.verdict libs config direction chunks =
      sentence config phase (phase.firstHit before chunks) session.totalScore := by
  induction chunks generalizing session body before with
  | nil => rfl
  | cons chunk rest ih =>
    have answers := streaming.answers libs findsFirst.windowed chunk rest.isEmpty
    have window : phase.literalIn (before.rtake phase.overlapLen ++ chunk) =
        phase.literalIn (before ++ chunk) := by
      rcases streaming.literal with rfl | quiet
      · simp [List.rtake]
      · exact findsFirst.window before chunk quiet
    rw [window] at answers
    rw [CompiledBodyPhase.firstHit]
    cases fed : body.feed libs phase chunk rest.isEmpty with
    | mk action after =>
      rw [fed] at answers
      cases reported : phase.report (phase.literalIn (before ++ chunk)) (before ++ chunk)
          rest.isEmpty with
      | some info =>
        obtain ⟨blocks, isHit, matched⟩ := answers.hit info reported
        simp only at blocks isHit matched
        rw [blocks] at fed
        -- from the hit on, the rule is applied once for every chunk
        rw [verdict_cons_hit isPhase holds fed fun next isNext =>
          verdict_matched isPhase isNext matched rest, isHit]
        rfl
      | none =>
        cases rest with
        | nil =>
          have allows := answers.clean reported rfl
          simp only at allows
          rw [allows] at fed
          rw [verdict_cons, onBodyChunk_eq holds, isPhase]
          unfold feedBody
          simp only [fed]
          rfl
        | cons next rest =>
          obtain ⟨proceeds, streamingAfter⟩ := answers.going reported rfl
          simp only at proceeds streamingAfter
          rw [proceeds] at fed
          rw [verdict_cons, onBodyChunk_eq holds, isPhase]
          unfold feedBody
          simp only [fed]
          rw [ih (Or.inl rfl) streamingAfter]
          rfl

end Hit

end WafSession

end Sessions

section Policies

variable (libs : Libraries)

/-- The search for these patterns reports the one whose occurrence ends first. -/
structure Libraries.FindsFirst (patterns : List Bytes) : Prop
    extends libs.FindsOccurrences patterns where
  findsFirst : ∀ {ac}, libs.ahoCorasick .standard patterns = some ac →
    ∀ text, ac.streamFind text = findFirst patterns text

/-- The body phases of a policy are those of its body rules. -/
structure CompiledWafRules.Built (rules : CompiledWafRules) : Prop where
  request : rules.requestBodyPhase = CompiledBodyPhase.compile libs rules.requestBody
  response : rules.responseBodyPhase = CompiledBodyPhase.compile libs rules.responseBody

variable {libs}

theorem literalIn_compile_first {rules : List CompiledBodyRule}
    (lawful : libs.FindsFirst (CompiledBodyPhase.literals rules)) (text : Bytes) :
    (CompiledBodyPhase.compile libs rules).literalIn text =
      findFirst (CompiledBodyPhase.literals rules) text := by
  unfold CompiledBodyPhase.literalIn CompiledBodyPhase.compile
  by_cases empty : (CompiledBodyPhase.literals rules).isEmpty = true
  · have none : findFirst (CompiledBodyPhase.literals rules) text = Option.none := by
      rw [findFirst_eq_none, List.isEmpty_iff.mp empty]
      simp
    simp only [empty, if_true, Option.bind_none, none]
  · obtain ⟨ac, isAc⟩ := lawful.builds (by simpa using empty)
    simp only [empty, Bool.false_eq_true, if_false, isAc, Option.bind_some]
    exact lawful.findsFirst isAc text

theorem findsFirst_compile {rules : List CompiledBodyRule}
    (lawful : libs.FindsFirst (CompiledBodyPhase.literals rules)) :
    (CompiledBodyPhase.compile libs rules).FindsFirst := by
  constructor
  · intro before chunk quiet
    rw [literalIn_compile_first lawful] at quiet
    rw [literalIn_compile_first lawful, literalIn_compile_first lawful,
      findFirst_rtake (length_le_overlapLen lawful.toFindsOccurrences) quiet]
  · intro before idx found chunk
    rw [literalIn_compile_first lawful] at found ⊢
    rw [findFirst_append, found]
    rfl

variable {rules : CompiledWafRules}

theorem CompiledWafRules.Built.phase_eq (built : rules.Built libs) (direction : Direction) :
    direction.phase rules = CompiledBodyPhase.compile libs (direction.rules rules) := by
  cases direction with
  | request => exact built.request
  | response => exact built.response

theorem CompiledWafRules.Built.findsFirst (built : rules.Built libs) (direction : Direction)
    (lawful : libs.FindsFirst (CompiledBodyPhase.literals (direction.rules rules))) :
    (direction.phase rules).FindsFirst := by
  rw [built.phase_eq]
  exact findsFirst_compile lawful

theorem compile_built {root : Expr}
    (accepted : compile libs root = .ok rules) : rules.Built libs := by
  unfold compile at accepted
  rw [Outcome.map_eq_ok_iff] at accepted
  obtain ⟨lists, -, rfl⟩ := accepted
  constructor
  · rfl
  · rfl

/-- A policy whose body rules are literals reports the chunks of a body as the
body itself: some chunk blocks exactly when some literal occurs in the whole
body, however it was cut. -/
theorem chunks_report_iff {root : Expr} {rules : CompiledWafRules}
    (accepted : compile libs root = .ok rules) (direction : Direction)
    (lawful : libs.FindsOccurrences (CompiledBodyPhase.literals (direction.rules rules)))
    (literal : ∀ rule ∈ direction.rules rules, rule.regexes = [])
    {chunks : List Bytes} (delivered : chunks ≠ []) :
    .block ∈ BodySession.new.deliver libs (direction.phase rules) chunks ↔
      ∃ rule ∈ direction.rules rules, ∃ text ∈ rule.literals, text <:+: chunks.flatten := by
  have plain : ∀ rule ∈ direction.rules rules, rule.negated = false := by
    intro rule member
    apply compile_plain accepted rule
    cases direction with
    | request => exact mem_append_left _ member
    | response => exact mem_append_right _ member
  rw [(compile_built accepted).phase_eq]
  apply block_mem_deliver_compile lawful _ delivered
  intro rule member
  exact ⟨literal rule member, plain rule member⟩

def evilRule : Expr :=
  .predicate
    { phase := .inboundBody
      field := .body
      op := .contains
      value := .string [101, 118, 105, 108]
      ruleMeta := ⟨"evil", 3, .log, .a03Injection⟩ }

theorem evilRule_accepted : ∃ rules, compile .naive evilRule.alone = .ok rules := ⟨_, rfl⟩

/-- A body with `evil` in it, cut in the middle of it. -/
theorem chunks_report_evil :
    ∃ rules, compile .naive evilRule.alone = .ok rules ∧
      (.block ∈ BodySession.new.deliver .naive (Direction.request.phase rules)
          [[120, 101, 118], [], [105, 108]] ↔
        ∃ rule ∈ Direction.request.rules rules, ∃ text ∈ rule.literals,
          text <:+: [[120, 101, 118], [], [105, 108]].flatten) := by
  obtain ⟨rules, accepted, literal⟩ : ∃ rules,
      compile .naive evilRule.alone = .ok rules ∧
        ∀ rule ∈ Direction.request.rules rules, rule.regexes = [] := by
    refine ⟨_, rfl, ?_⟩
    decide
  exact ⟨rules, accepted,
    chunks_report_iff accepted .request (naive_findsOccurrences _) literal (by simp)⟩

theorem naive_findsFirst (patterns : List Bytes) : Libraries.naive.FindsFirst patterns where
  toFindsOccurrences := naive_findsOccurrences patterns
  findsFirst isAc text := by
    cases isAc
    rfl

theorem onRequestHeaders_state (config : WafConfig) (clientIp : Option IpAddr) (host : Option Bytes)
    (req : RequestParts) (requestIp : Option IpAddr) :
    let session := ((WafSession.new clientIp).onRequestHeaders config host req requestIp).2
    session.state = .done ∨ session.state = .responseHeaders := by
  unfold WafSession.onRequestHeaders
  rw [if_neg (by simp [WafSession.isDone, WafSession.new])]
  simp only
  cases WafSession.firstRequestMatch _ _ _ _ with
  | none => exact Or.inr rfl
  | some ruleMeta =>
    simp only [applyMatch_eq]
    split
    · exact Or.inl rfl
    · exact Or.inr rfl

/-- The score and the decision after the body of a request do not depend on how it
was cut exactly when the request was answered by its headers, or when the rules
that the body can hit leave the same behind. -/
theorem verdict_cut_iff (config : WafConfig)
    (lawful : libs.FindsFirst (CompiledBodyPhase.literals config.compiled.requestBody))
    (built : config.compiled.Built libs) (clientIp : Option IpAddr)
    (host : Option Bytes) (req : RequestParts) (requestIp : Option IpAddr)
    (body : Bytes) :
    let session := ((WafSession.new clientIp).onRequestHeaders config host req requestIp).2
    (∀ first second : List Bytes, first ≠ [] → second ≠ [] →
      first.flatten = body → second.flatten = body →
      session.verdict libs config .request first = session.verdict libs config .request second) ↔
      (session.state = .done ∨
        CutSafe config config.compiled.requestBodyPhase body session.totalScore) := by
  intro session
  have findsFirst := built.findsFirst .request lawful
  rcases onRequestHeaders_state config clientIp host req requestIp with
    done | between
  · apply iff_of_true
    · intro first second _ _ _ _
      rw [WafSession.verdict_done done, WafSession.verdict_done done]
    · exact Or.inl done
  · have passes : ∀ chunks, session.verdict libs config .request chunks =
        sentence config config.compiled.requestBodyPhase
          (config.compiled.requestBodyPhase.firstHit [] chunks) session.totalScore := by
      intro chunks
      exact WafSession.verdict_eq rfl findsFirst (Or.inr ⟨Or.inr between, rfl⟩) (streaming_new _)
        chunks
    have notDone : session.state ≠ .done := by grind
    simp only [passes, notDone, false_or]
    exact cutSafe_iff findsFirst

def blocking (rules : CompiledWafRules) : WafConfig := ⟨.blocking, rules, 100⟩

theorem verdict_cut_iff_evil :
    ∃ rules, compile .naive evilRule.alone = .ok rules ∧
      let session := ((WafSession.new none).onRequestHeaders (blocking rules) none
        (getRequest [47]).parts none).2
      ((∀ first second : List Bytes, first ≠ [] → second ≠ [] →
          first.flatten = [101, 118, 105, 108, 33] → second.flatten = [101, 118, 105, 108, 33] →
          session.verdict .naive (blocking rules) .request first =
            session.verdict .naive (blocking rules) .request second) ↔
        (session.state = .done ∨
          CutSafe (blocking rules) rules.requestBodyPhase [101, 118, 105, 108, 33]
            session.totalScore)) := by
  obtain ⟨rules, accepted⟩ := evilRule_accepted
  exact ⟨rules, accepted, verdict_cut_iff (blocking rules) (naive_findsFirst _)
    (compile_built accepted) none none (getRequest [47]).parts none _⟩

/-- The body `evil!` scores twice when it is cut behind `evil`. -/
theorem evil_scores_twice :
    ∃ rules, compile .naive evilRule.alone = .ok rules ∧
      let session := ((WafSession.new none).onRequestHeaders (blocking rules) none
        (getRequest [47]).parts none).2
      session.verdict .naive (blocking rules) .request [[101, 118, 105, 108, 33]] = (6, none) ∧
        session.verdict .naive (blocking rules) .request
          [[101, 118, 105, 108], [33]] = (9, none) := by
  refine ⟨_, rfl, ?_⟩
  decide

end Policies

end Ophan.Waf
