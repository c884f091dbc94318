import Ophan.Waf.Verdict

/-!
# The rule that speaks for a phase

A header phase stops at the first rule that fires, and a body phase at its first
hit.  The phase blocks when that rule does, whatever the rules behind it say.
-/

namespace Ophan.Waf

open List
open Ophan.Http Ophan.Net

/-- What comes in at one phase of a transaction. -/
inductive PhaseInput where
  | requestHeaders (host : Option Bytes) (req : RequestParts) (clientIp : Option IpAddr)
  | responseHeaders (status : StatusCode) (headers : HeaderMap)
  | body (direction : Direction) (chunks : List Bytes)

/-- Whether a body rule holds of a body, for a meaning of the regexes. -/
def CompiledBodyRule.HoldsOf (regexFinds : Bytes → Bytes → Prop)
    (body : Bytes) (rule : CompiledBodyRule) : Prop :=
  let found := (∃ literal ∈ rule.literals, literal <:+: body) ∨
    ∃ regex ∈ rule.regexes, regexFinds regex body
  if rule.negated then ¬ found else found

namespace PhaseInput

section Definitions

variable (libs : Libraries) (config : WafConfig) (session : WafSession)

def results : PhaseInput → List WafResult
  | requestHeaders host req clientIp => [(session.onRequestHeaders config host req clientIp).1]
  | responseHeaders status headers =>
    match session.onResponseHeaders config status headers with
    | .ok answer => [answer.1]
    | _ => []
  | body direction chunks => (session.deliver libs config direction chunks).1

def Blocks (input : PhaseInput) : Prop :=
  ∃ result ∈ input.results libs config session, result.decision.isSome = true

/-- A rule of the phase that matches has the meta `ruleMeta`. -/
def Matches (regexFinds : Bytes → Bytes → Prop) (ruleMeta : RuleMeta) : PhaseInput → Prop
  | requestHeaders host req clientIp =>
    ∃ rule ∈ config.compiled.requestHeaders,
      rule.evaluateRequest (clientIp.or session.clientIp) host req = some ruleMeta
  | responseHeaders status headers =>
    ∃ rule ∈ config.compiled.responseHeaders,
      rule.evaluateResponse status headers = .ok (some ruleMeta)
  | body direction chunks =>
    ∃ rule ∈ direction.rules config.compiled,
      rule.ruleMeta = some ruleMeta ∧ rule.HoldsOf regexFinds chunks.flatten

/-- The rule with the meta `ruleMeta` fires while those before it are silent, and
is applied `count` times. -/
def FiresFirst (ruleMeta : RuleMeta) (count : Nat) : PhaseInput → Prop
  | requestHeaders host req clientIp =>
    count = 1 ∧ ∃ before rule after,
      config.compiled.requestHeaders = before ++ rule :: after ∧
      rule.evaluateRequest (clientIp.or session.clientIp) host req = some ruleMeta ∧
      ∀ earlier ∈ before, earlier.evaluateRequest (clientIp.or session.clientIp) host req = none
  | responseHeaders status headers =>
    count = 1 ∧ ∃ before rule after,
      config.compiled.responseHeaders = before ++ rule :: after ∧
      rule.evaluateResponse status headers = .ok (some ruleMeta) ∧
      ∀ earlier ∈ before, earlier.evaluateResponse status headers = .ok none
  | body direction chunks =>
    ∃ info, (direction.phase config.compiled).firstHit [] chunks = some (info, count) ∧
      (direction.phase config.compiled).metaOf (some info) = some ruleMeta

def Ready : PhaseInput → Prop
  | requestHeaders _ _ _ => session.state ≠ .done
  | responseHeaders _ _ => session.state ≠ .done
  | body _ _ => session.state = .initial ∨ session.state = .responseHeaders

end Definitions

end PhaseInput

/-- A rule that is applied `count` times ends the session: it blocks or
challenges, or its score reaches the threshold. -/
def Ends (config : WafConfig) (ruleMeta : RuleMeta) (count : Nat) (score : UInt32) : Prop :=
  match ruleMeta.action with
  | .block _ => True
  | .challenge => True
  | .allow => False
  | .log => ∃ times, 0 < times ∧ times ≤ count ∧
      config.anomalyThreshold ≤ (· + ruleMeta.score)^[times] score

variable {libs : Libraries} {config : WafConfig}

/-- A rule that logs ends the session once its score has been added often enough. -/
theorem tally_log_ends_iff (blockingMode : config.mode = .blocking)
    {ruleMeta : RuleMeta} (logs : ruleMeta.action = .log) (count : Nat) (score : UInt32) :
    (tally config ruleMeta count score).2.isSome = true ↔
      ∃ times, 0 < times ∧ times ≤ count ∧
        config.anomalyThreshold ≤ (· + ruleMeta.score)^[times] score := by
  have weighed (score : UInt32) : weigh config ruleMeta score = (score + ruleMeta.score,
      if config.anomalyThreshold ≤ score + ruleMeta.score then some (.block 403) else none) := by
    simp [weigh, ending, blockingMode, logs]
  induction count generalizing score with
  | zero =>
    simp only [tally, Option.isSome_none, Bool.false_eq_true, false_iff]
    rintro ⟨times, positive, within, -⟩
    omega
  | succ count ih =>
    by_cases reached : config.anomalyThreshold ≤ score + ruleMeta.score
    · have ends : (weigh config ruleMeta score).2 = some (.block 403) := by
        rw [weighed]
        exact if_pos reached
      rw [tally_of_ends ends]
      exact iff_of_true rfl ⟨1, Nat.one_pos, by omega, reached⟩
    · have goes : (weigh config ruleMeta score).2 = none := by
        rw [weighed]
        exact if_neg reached
      rw [tally_of_goes goes, weighed]
      apply (ih _).trans
      constructor
      · rintro ⟨times, -, within, later⟩
        exact ⟨times + 1, Nat.succ_pos times, by omega, later⟩
      · rintro ⟨times, positive, within, later⟩
        cases times with
        | zero => omega
        | succ times =>
          cases times with
          | zero => exact absurd later reached
          | succ times => exact ⟨times + 1, Nat.succ_pos times, by omega, later⟩

theorem tally_ends_iff (blockingMode : config.mode = .blocking) (ruleMeta : RuleMeta)
    (count : Nat) (score : UInt32) :
    (tally config ruleMeta (count + 1) score).2.isSome = true ↔
      Ends config ruleMeta (count + 1) score := by
  unfold Ends
  cases isAction : ruleMeta.action with
  | allow =>
    have idle : weigh config ruleMeta score = (score, none) := by simp [weigh, isAction]
    simp [tally_of_idle idle]
  | block status =>
    have ends : (weigh config ruleMeta score).2 = some (.block status) := by
      simp [weigh, ending, isAction, blockingMode]
    simp [tally_of_ends ends]
  | challenge =>
    have ends : (weigh config ruleMeta score).2 = some (.challenge .jsChallenge) := by
      simp [weigh, ending, isAction, blockingMode]
    simp [tally_of_ends ends]
  | log => exact tally_log_ends_iff blockingMode isAction (count + 1) score

section Phases

variable {session : WafSession}

theorem firstResponseMatch_eq_some_iff {status : StatusCode} {headers : HeaderMap}
    {rules : List CompiledRule} {ruleMeta : RuleMeta} :
    WafSession.firstResponseMatch status headers rules = .ok (some ruleMeta) ↔
      ∃ before rule after, rules = before ++ rule :: after ∧
        rule.evaluateResponse status headers = .ok (some ruleMeta) ∧
        ∀ earlier ∈ before, earlier.evaluateResponse status headers = .ok none := by
  constructor
  · intro fired
    induction rules with
    | nil => cases fired
    | cons first rest ih =>
      rw [WafSession.firstResponseMatch] at fired
      cases evaluated : first.evaluateResponse status headers with
      | err error => cases error
      | panic => simp [evaluated] at fired
      | ok answer =>
        rw [evaluated] at fired
        cases answer with
        | some other =>
          cases fired
          exact ⟨[], first, rest, rfl, evaluated, by simp⟩
        | none =>
          obtain ⟨before, rule, after, rfl, fires, silent⟩ := ih fired
          grind
  · rintro ⟨before, rule, after, rfl, fires, silent⟩
    induction before with
    | nil =>
      rw [nil_append, WafSession.firstResponseMatch, fires]
      rfl
    | cons first before ih =>
      obtain ⟨quiet, silentRest⟩ := forall_mem_cons.mp silent
      rw [cons_append, WafSession.firstResponseMatch, quiet]
      exact ih silentRest

theorem firstHit_count {phase : CompiledBodyPhase} {before : Bytes}
    {chunks : List Bytes} {info : BodyMatchInfo} {count : Nat}
    (hit : phase.firstHit before chunks = some (info, count)) :
    ∃ more, count = more + 1 := by
  induction chunks generalizing before with
  | nil => cases hit
  | cons chunk rest ih =>
    rw [CompiledBodyPhase.firstHit] at hit
    split at hit
    · cases hit
      exact ⟨_, rfl⟩
    · exact ih hit

/-- A match that is applied blocks when its rule ends the session. -/
theorem applyMatch_blocks_iff (blockingMode : config.mode = .blocking)
    (session : WafSession) (phase : Phase) (ruleMeta : RuleMeta) (field : Field) :
    (session.applyMatch config phase ruleMeta field).1.decision.isSome = true ↔
      Ends config ruleMeta 1 session.totalScore := by
  rw [(applyMatch_eq config session phase ruleMeta field).1,
    ← tally_ends_iff blockingMode ruleMeta 0]
  cases decided : (weigh config ruleMeta session.totalScore).2 with
  | none =>
    rw [tally_of_goes decided]
    rfl
  | some action => rw [tally_of_ends decided]

theorem found_blocks_iff {Fires : RuleMeta → Nat → Prop} {score : UInt32}
    {found : Option RuleMeta} {decision : Option WafAction}
    (first : ∀ ruleMeta count, Fires ruleMeta count ↔ count = 1 ∧ found = some ruleMeta)
    (silent : found = none → decision = none)
    (speaks : ∀ ruleMeta, found = some ruleMeta →
      (decision.isSome = true ↔ Ends config ruleMeta 1 score)) :
    decision.isSome = true ↔
      ∃ ruleMeta count, Fires ruleMeta count ∧ Ends config ruleMeta count score := by
  cases found with
  | none => simp [silent rfl, first]
  | some ruleMeta => simp_all

theorem requestHeaders_blocks_iff (blockingMode : config.mode = .blocking)
    (ready : session.state ≠ .done) (host : Option Bytes) (req : RequestParts)
    (clientIp : Option IpAddr) :
    (PhaseInput.requestHeaders host req clientIp).Blocks libs config session ↔
      ∃ ruleMeta count,
        (PhaseInput.requestHeaders host req clientIp).FiresFirst config session ruleMeta count ∧
          Ends config ruleMeta count session.totalScore := by
  have begins : ¬ session.isDone = true := by simpa [WafSession.isDone] using ready
  simp only [PhaseInput.Blocks, PhaseInput.results, mem_singleton, exists_eq_left,
    WafSession.onRequestHeaders, begins, Bool.false_eq_true, if_false]
  apply found_blocks_iff
  · intro ruleMeta count
    rw [PhaseInput.FiresFirst, ← List.findSome?_eq_some_iff]
  · intro silent
    simp only [WafSession.firstRequestMatch, silent]
    rfl
  · intro ruleMeta fires
    simp only [WafSession.firstRequestMatch, fires]
    exact applyMatch_blocks_iff blockingMode _ _ ruleMeta _

theorem responseHeaders_blocks_iff (blockingMode : config.mode = .blocking)
    (ready : session.state ≠ .done) (status : StatusCode) (headers : HeaderMap) :
    (PhaseInput.responseHeaders status headers).Blocks libs config session ↔
      ∃ ruleMeta count,
        (PhaseInput.responseHeaders status headers).FiresFirst config session ruleMeta count ∧
          Ends config ruleMeta count session.totalScore := by
  have begins : ¬ session.isDone = true := by simpa [WafSession.isDone] using ready
  simp only [PhaseInput.Blocks, PhaseInput.results, WafSession.onResponseHeaders, begins,
    Bool.false_eq_true, if_false, PhaseInput.FiresFirst,
    ← firstResponseMatch_eq_some_iff]
  cases fired : WafSession.firstResponseMatch status headers config.compiled.responseHeaders with
  | err error => cases error
  | panic => simp [Outcome.map]
  | ok found =>
    simp only [Outcome.map, mem_singleton, exists_eq_left]
    apply found_blocks_iff
    · intro ruleMeta count
      rw [Outcome.ok.injEq]
    · rintro rfl
      rfl
    · rintro ruleMeta rfl
      exact applyMatch_blocks_iff blockingMode _ _ ruleMeta _

theorem body_blocks_iff {direction : Direction}
    (lawful : libs.FindsFirst (CompiledBodyPhase.literals (direction.rules config.compiled)))
    (built : config.compiled.Built libs) (blockingMode : config.mode = .blocking)
    (chunks : List Bytes)
    (ready : session.state = .initial ∨ session.state = .responseHeaders) :
    (PhaseInput.body direction chunks).Blocks libs config session ↔
      ∃ ruleMeta count,
        (PhaseInput.body direction chunks).FiresFirst config session ruleMeta count ∧
          Ends config ruleMeta count session.totalScore := by
  have passes : session.verdict libs config direction chunks =
      sentence config (direction.phase config.compiled)
        ((direction.phase config.compiled).firstHit [] chunks) session.totalScore :=
    WafSession.verdict_eq rfl (built.findsFirst direction lawful) (Or.inr ⟨ready, rfl⟩)
      (streaming_new _) chunks
  have decides : (PhaseInput.body direction chunks).Blocks libs config session ↔
      (session.verdict libs config direction chunks).2.isSome = true := by
    rw [WafSession.verdict, List.findSome?_isSome_iff]
    exact Iff.rfl
  rw [decides, passes]
  simp only [PhaseInput.FiresFirst]
  cases hit : (direction.phase config.compiled).firstHit [] chunks with
  | none => simp [sentence]
  | some found =>
    obtain ⟨info, count⟩ := found
    obtain ⟨more, rfl⟩ := firstHit_count hit
    simp only [sentence, Option.elim_some, charge]
    cases isMeta : (direction.phase config.compiled).metaOf (some info) with
    | none => simp_all
    | some ruleMeta =>
      rw [Option.elim_some, tally_ends_iff blockingMode]
      constructor
      · simp_all
      · simp_all

/-- A phase blocks exactly when the rule that fires first ends the session. -/
theorem blocks_iff
    (lawful : ∀ direction : Direction,
      libs.FindsFirst (CompiledBodyPhase.literals (direction.rules config.compiled)))
    (built : config.compiled.Built libs)
    (blockingMode : config.mode = .blocking) {input : PhaseInput} (ready : input.Ready session) :
    input.Blocks libs config session ↔
      ∃ ruleMeta count, input.FiresFirst config session ruleMeta count ∧
        Ends config ruleMeta count session.totalScore := by
  cases input with
  | requestHeaders host req clientIp =>
    exact requestHeaders_blocks_iff blockingMode ready host req clientIp
  | responseHeaders status headers =>
    exact responseHeaders_blocks_iff blockingMode ready status headers
  | body direction chunks =>
    exact body_blocks_iff (lawful direction) built blockingMode chunks ready

/-- In blocking mode, a phase where a blocking rule matches and no allowing one
blocks exactly when the rule that fires first ends the session: a rule that logs
hides the rules behind it unless its score reaches the threshold. -/
theorem block_not_hidden_iff
    (lawful : ∀ direction : Direction,
      libs.FindsFirst (CompiledBodyPhase.literals (direction.rules config.compiled)))
    (built : config.compiled.Built libs) (blockingMode : config.mode = .blocking)
    (regexFinds : Bytes → Bytes → Prop) {input : PhaseInput}
    (ready : input.Ready session) :
    ((∃ ruleMeta status, input.Matches config session regexFinds ruleMeta ∧
        ruleMeta.action = .block status) →
      (∀ ruleMeta, input.Matches config session regexFinds ruleMeta → ruleMeta.action ≠ .allow) →
      input.Blocks libs config session) ↔
    ((∃ ruleMeta status, input.Matches config session regexFinds ruleMeta ∧
        ruleMeta.action = .block status) →
      (∀ ruleMeta, input.Matches config session regexFinds ruleMeta → ruleMeta.action ≠ .allow) →
      ∃ ruleMeta count, input.FiresFirst config session ruleMeta count ∧
        Ends config ruleMeta count session.totalScore) := by
  rw [blocks_iff lawful built blockingMode ready]

def logPathRule : Expr :=
  .predicate
    { phase := .inboundHeaders
      field := .path
      op := .eq
      value := .string [47, 97]
      ruleMeta := ⟨"log", 1, .log, .a01BrokenAccessControl⟩ }

def logThenBlock : Expr := .allOf [logPathRule, pathRule]

theorem logThenBlock_accepted : ∃ rules, compile .naive logThenBlock = .ok rules := ⟨_, rfl⟩

theorem block_not_hidden_iff_path :
    ∃ rules, compile .naive logThenBlock = .ok rules ∧
      let input := PhaseInput.requestHeaders none (getRequest [47, 97]).parts none
      (((∃ ruleMeta status,
          input.Matches (blocking rules) (.new none) (fun _ _ => False) ruleMeta ∧
            ruleMeta.action = .block status) →
        (∀ ruleMeta,
          input.Matches (blocking rules) (.new none) (fun _ _ => False) ruleMeta →
            ruleMeta.action ≠ .allow) →
        input.Blocks .naive (blocking rules) (.new none)) ↔
      ((∃ ruleMeta status,
          input.Matches (blocking rules) (.new none) (fun _ _ => False) ruleMeta ∧
            ruleMeta.action = .block status) →
        (∀ ruleMeta,
          input.Matches (blocking rules) (.new none) (fun _ _ => False) ruleMeta →
            ruleMeta.action ≠ .allow) →
        ∃ ruleMeta count,
          input.FiresFirst (blocking rules) (.new none) ruleMeta count ∧
            Ends (blocking rules) ruleMeta count 0)) := by
  obtain ⟨rules, accepted⟩ := logThenBlock_accepted
  refine ⟨rules, accepted, ?_⟩
  exact block_not_hidden_iff (fun _ => naive_findsFirst _) (compile_built accepted) rfl _
    (by simp [PhaseInput.Ready, WafSession.new])

/-- The rule that logs `/a` hides the rule behind it that blocks `/a`. -/
theorem log_hides_block :
    ∃ rules, compile .naive logThenBlock = .ok rules ∧
      let input := PhaseInput.requestHeaders none (getRequest [47, 97]).parts none
      (∃ ruleMeta status,
          input.Matches (blocking rules) (.new none) (fun _ _ => False) ruleMeta ∧
            ruleMeta.action = .block status) ∧
        (∀ ruleMeta,
          input.Matches (blocking rules) (.new none) (fun _ _ => False) ruleMeta →
            ruleMeta.action ≠ .allow) ∧
        ¬ input.Blocks .naive (blocking rules) (.new none) := by
  refine ⟨_, rfl, ?_, ?_, ?_⟩
  · exact ⟨⟨"path", 10, .block 403, .a01BrokenAccessControl⟩, 403,
      ⟨_, mem_cons_of_mem _ mem_cons_self, rfl⟩, rfl⟩
  · rintro ruleMeta ⟨rule, member, fires⟩
    rcases mem_cons.mp member with rfl | inRest
    · cases fires
      decide
    · cases mem_singleton.mp inRest
      cases fires
      decide
  · rintro ⟨result, member, decided⟩
    cases mem_singleton.mp member
    revert decided
    decide

end Phases

end Ophan.Waf
