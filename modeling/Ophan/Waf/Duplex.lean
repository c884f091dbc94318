import Ophan.Waf.Verdict

/-!
# Both bodies at once

The request body and the response can arrive interleaved, but a session has one
state for both: the headers of a response drop the body that is inspected, and a
chunk of the other body is passed.
-/

namespace Ophan.Waf

open Ophan.Http

/-- A call of a hook after the headers of the request. -/
inductive HookCall where
  | bodyChunk (direction : Direction) (chunk : Bytes) (endBody : Bool)
  | responseHeaders (status : StatusCode) (headers : HeaderMap)

namespace HookCall

def bodyOf (direction : Direction) : List HookCall → Bytes
  | [] => []
  | .bodyChunk other chunk _ :: rest =>
    if other = direction then chunk ++ bodyOf direction rest else bodyOf direction rest
  | .responseHeaders _ _ :: rest => bodyOf direction rest

end HookCall

/-- Some literal rule for a body occurs in it. -/
def CompiledWafRules.OccursIn (rules : CompiledWafRules) (direction : Direction)
    (text : Bytes) : Prop :=
  ∃ literal ∈ CompiledBodyPhase.literals (direction.rules rules), literal <:+: text

namespace WafSession

variable (libs : Libraries) (config : WafConfig)

def perform (session : WafSession) : HookCall → Outcome Empty (WafResult × WafSession)
  | .bodyChunk direction chunk endBody =>
    .ok (session.onBodyChunk libs config direction chunk endBody)
  | .responseHeaders status headers => session.onResponseHeaders config status headers

/-- Whether a call finds a match, which it then applies. -/
def Finds (session : WafSession) : HookCall → Prop
  | .bodyChunk direction chunk endBody =>
    ∃ body, Holds direction session body ∧
      (body.feed libs (direction.phase config.compiled) chunk endBody).1 = .block
  | .responseHeaders status headers =>
    session.state ≠ .done ∧
      ∃ ruleMeta, firstResponseMatch status headers config.compiled.responseHeaders =
        .ok (some ruleMeta)

def FindsSome (session : WafSession) : List HookCall → Prop
  | [] => False
  | call :: rest =>
    session.Finds libs config call ∨
      ∃ result next, session.perform libs config call = .ok (result, next) ∧ next.FindsSome rest

end WafSession

/-- The piece of a body that is inspected. -/
inductive Watch where
  | idle
  | inside (direction : Direction) (text : Bytes)
  deriving DecidableEq, Repr

namespace Watch

/-- The inspected text in front of a chunk of a body; none if the chunk is passed. -/
def before (direction : Direction) : Watch → Option Bytes
  | .idle => some []
  | .inside other text => if other = direction then some text else none

/-- The piece after a call that found nothing. -/
def next (watch : Watch) : HookCall → Watch
  | .bodyChunk direction chunk endBody =>
    match watch.before direction with
    | some text => if endBody then .idle else .inside direction (text ++ chunk)
    | none => watch
  | .responseHeaders _ _ => .idle

variable (rules : CompiledWafRules)

/-- A literal or a regex in the piece that a chunk continues, or a rule for the
headers of the response. -/
def Hits (watch : Watch) : HookCall → Prop
  | .bodyChunk direction chunk endBody =>
    ∃ text, watch.before direction = some text ∧
      (rules.OccursIn direction (text ++ chunk) ∨
        ((direction.phase rules).report none (text ++ chunk) endBody).isSome = true)
  | .responseHeaders status headers =>
    ∃ ruleMeta, WafSession.firstResponseMatch status headers rules.responseHeaders =
      .ok (some ruleMeta)

def Panics : HookCall → Prop
  | .bodyChunk _ _ _ => False
  | .responseHeaders status headers =>
    WafSession.firstResponseMatch status headers rules.responseHeaders = .panic

def HitsSome (watch : Watch) : List HookCall → Prop
  | [] => False
  | call :: rest => watch.Hits rules call ∨ ¬ Panics rules call ∧ (watch.next call).HitsSome rest

end Watch

def Watches (rules : CompiledWafRules) (session : WafSession) : Watch → Prop
  | .idle => session.state = .initial ∨ session.state = .responseHeaders
  | .inside direction text =>
    ∃ body, session.state = direction.wrap body ∧ Streaming (direction.phase rules) text body

section Chunks

variable {libs : Libraries} {rules : CompiledWafRules} {direction : Direction}
  {text : Bytes} {body : BodySession}

theorem report_isSome (phase : CompiledBodyPhase) (literal : Option Nat) (text : Bytes)
    (endBody : Bool) :
    (phase.report literal text endBody).isSome = true ↔
      literal.isSome = true ∨ (phase.report none text endBody).isSome = true := by
  cases literal with
  | none => simp
  | some pattern => simp [CompiledBodyPhase.report]

section

variable (lawful : libs.FindsOccurrences (CompiledBodyPhase.literals (direction.rules rules)))
  (built : rules.Built libs)
  (streaming : Streaming (direction.phase rules) text body) (chunk : Bytes) (endBody : Bool)

include lawful built

theorem windowed_phase : (direction.phase rules).Windowed := by
  rw [built.phase_eq]
  exact windowed_compile lawful

include streaming

/-- What is reported for a chunk by the piece that it continues. -/
theorem report_isSome_iff :
    ((direction.phase rules).report
        ((direction.phase rules).literalIn (text.rtake (direction.phase rules).overlapLen ++ chunk))
        (text ++ chunk) endBody).isSome = true ↔
      rules.OccursIn direction (text ++ chunk) ∨
        ((direction.phase rules).report none (text ++ chunk) endBody).isSome = true := by
  have occurs : ((direction.phase rules).literalIn (text ++ chunk)).isSome = true ↔
      rules.OccursIn direction (text ++ chunk) := by
    rw [built.phase_eq]
    exact literalIn_compile lawful _
  rw [report_isSome, streaming.window (windowed_phase lawful built), occurs]

/-- A chunk blocks exactly when the piece that it continues has a match; otherwise
the piece goes on, up to the end of the body. -/
theorem feed_piece {action : BodyAction} {after : BodySession}
    (isFed : body.feed libs (direction.phase rules) chunk endBody = (action, after)) :
    (action = .block ↔ rules.OccursIn direction (text ++ chunk) ∨
      ((direction.phase rules).report none (text ++ chunk) endBody).isSome = true) ∧
    (action ≠ .block → if endBody then action = .allow
      else action = .proceed ∧ Streaming (direction.phase rules) (text ++ chunk) after) := by
  have answers := streaming.answers libs (windowed_phase lawful built) chunk endBody
  rw [isFed] at answers
  rw [← report_isSome_iff lawful built streaming]
  cases reported : (direction.phase rules).report
      ((direction.phase rules).literalIn
        (text.rtake (direction.phase rules).overlapLen ++ chunk)) (text ++ chunk) endBody with
  | some info =>
    have isBlock := (answers.hit info reported).1
    exact ⟨iff_of_true isBlock rfl, fun notBlock => absurd isBlock notBlock⟩
  | none =>
    cases endBody with
    | true =>
      have isAllow := answers.clean reported rfl
      simp_all
    | false =>
      have proceeds := answers.going reported rfl
      simp_all

end

theorem holds_unique {session : WafSession} {body' : BodySession}
    (holds : WafSession.Holds direction session body)
    (holds' : WafSession.Holds direction session body') : body' = body := by
  have injective : ∀ first second, direction.wrap first = direction.wrap second →
      first = second := by
    cases direction <;> intro first second same <;> cases same <;> rfl
  rcases holds with inBody | ⟨between, isNew⟩
  · rcases holds' with inBody' | ⟨between', _⟩
    · exact injective _ _ (inBody'.symm.trans inBody)
    · rw [inBody] at between'
      cases direction <;> rcases between' with isState | isState <;> cases isState
  · rcases holds' with inBody' | ⟨_, isNew'⟩
    · rw [inBody'] at between
      cases direction <;> rcases between with isState | isState <;> cases isState
    · rw [isNew, isNew']

end Chunks

namespace Watches

open WafSession

variable {libs : Libraries} {config : WafConfig} {session : WafSession} {watch : Watch}
  {direction : Direction}

theorem notDone (watches : Watches config.compiled session watch) : session.state ≠ .done := by
  intro done
  cases watch with
  | idle =>
    rcases watches with isState | isState
    · simp [isState] at done
    · simp_all
  | inside direction text =>
    obtain ⟨body, isState, _⟩ := watches
    rw [isState] at done
    cases direction <;> cases done

theorem holds (watches : Watches config.compiled session watch) {text : Bytes}
    (isBefore : watch.before direction = some text) :
    ∃ body, Holds direction session body ∧
      Streaming (direction.phase config.compiled) text body := by
  cases watch with
  | idle =>
    cases isBefore
    exact ⟨.new, Or.inr ⟨watches, rfl⟩, streaming_new _⟩
  | inside other kept =>
    obtain ⟨same, isText⟩ := Option.ite_none_right_eq_some.mp isBefore
    cases isText
    subst same
    obtain ⟨body, isState, streaming⟩ := watches
    exact ⟨body, Or.inl isState, streaming⟩

theorem passes (libs : Libraries) (watches : Watches config.compiled session watch)
    (isBefore : watch.before direction = none) (chunk : Bytes) (endBody : Bool) :
    (∀ body, ¬ Holds direction session body) ∧
      session.onBodyChunk libs config direction chunk endBody = (.pass, session) := by
  cases watch with
  | idle => cases isBefore
  | inside other kept =>
    have differ : other ≠ direction := by
      intro same
      simp [Watch.before, if_pos same] at isBefore
    obtain ⟨body, isState, _⟩ := watches
    cases other with
    | request =>
      cases direction with
      | request => exact absurd rfl differ
      | response =>
        change session.state = .requestBody body at isState
        constructor
        · rintro other (isOther | ⟨isOther | isOther, _⟩) <;> rw [isState] at isOther <;>
            cases isOther
        · simp only [onBodyChunk, onResponseBodyChunk, isState]
    | response =>
      cases direction with
      | request =>
        change session.state = .responseBody body at isState
        constructor
        · rintro other (isOther | ⟨isOther | isOther, _⟩) <;> rw [isState] at isOther <;>
            cases isOther
        · simp only [onBodyChunk, onRequestBodyChunk, isState]
      | response => exact absurd rfl differ

/-- A call finds a match exactly when the watch does; otherwise both panic, or both go
on. -/
structure Agrees (libs : Libraries) (config : WafConfig) (session : WafSession) (watch : Watch)
    (call : HookCall) : Prop where
  finds : session.Finds libs config call ↔ watch.Hits config.compiled call
  goes : ¬ watch.Hits config.compiled call →
    (Watch.Panics config.compiled call ∧ session.perform libs config call = .panic) ∨
      ¬ Watch.Panics config.compiled call ∧
        ∃ result next, session.perform libs config call = .ok (result, next) ∧
          Watches config.compiled next (watch.next call)

theorem bodyChunk
    (lawful : libs.FindsOccurrences (CompiledBodyPhase.literals (direction.rules config.compiled)))
    (built : config.compiled.Built libs)
    (watches : Watches config.compiled session watch) (chunk : Bytes) (endBody : Bool) :
    Agrees libs config session watch (.bodyChunk direction chunk endBody) := by
  cases isBefore : watch.before direction with
  | none =>
    obtain ⟨notHeld, isPassed⟩ := passes libs watches isBefore chunk endBody
    constructor
    · apply iff_of_false
      · rintro ⟨body, holds, _⟩
        exact notHeld body holds
      · rintro ⟨text, isText, _⟩
        simp [isBefore] at isText
    · intro _
      refine Or.inr ⟨id, .pass, session, congrArg Outcome.ok isPassed, ?_⟩
      simp only [Watch.next, isBefore]
      exact watches
  | some text =>
    obtain ⟨body, holds, streaming⟩ := watches.holds isBefore
    obtain ⟨⟨action, after⟩, isFed⟩ : ∃ fed,
      body.feed libs (direction.phase config.compiled) chunk endBody = fed := ⟨_, rfl⟩
    obtain ⟨blocks, goes⟩ := feed_piece lawful built streaming chunk endBody isFed
    have hits : watch.Hits config.compiled (.bodyChunk direction chunk endBody) ↔
        action = .block := by
      rw [blocks]
      constructor
      · rintro ⟨other, isOther, found⟩
        simp_all
      · intro found
        exact ⟨text, isBefore, found⟩
    constructor
    · rw [hits]
      constructor
      · rintro ⟨other, holds', found⟩
        rw [holds_unique holds holds', isFed] at found
        exact found
      · intro found
        exact ⟨body, holds, isFed ▸ found⟩
    · intro quiet
      rw [hits] at quiet
      refine Or.inr ⟨id, _, _, congrArg Outcome.ok (onBodyChunk_eq holds chunk endBody), ?_⟩
      have fed := goes quiet
      simp only [Watch.next, isBefore, isFed]
      cases endBody with
      | true =>
        cases fed
        exact Or.inr rfl
      | false =>
        obtain ⟨rfl, streamingAfter⟩ := fed
        exact ⟨after, rfl, streamingAfter⟩

theorem responseHeaders (watches : Watches config.compiled session watch)
    (status : StatusCode) (headers : HeaderMap) :
    Agrees libs config session watch (.responseHeaders status headers) := by
  have notDone := watches.notDone
  constructor
  · exact ⟨fun finds => finds.2, fun hits => ⟨notDone, hits⟩⟩
  · intro quiet
    have isRunning : ¬session.isDone = true := by simpa [isDone] using notDone
    have isPerformed : session.perform libs config (.responseHeaders status headers) = _ :=
      if_neg isRunning
    rw [isPerformed]
    cases isFired : firstResponseMatch status headers config.compiled.responseHeaders with
    | err error => cases error
    | panic => exact Or.inl ⟨isFired, rfl⟩
    | ok fired =>
      cases fired with
      | some ruleMeta => exact absurd ⟨ruleMeta, isFired⟩ quiet
      | none =>
        refine Or.inr ⟨?_, .pass, _, rfl, Or.inr rfl⟩
        intro panics
        change firstResponseMatch _ _ _ = _ at panics
        simp [isFired] at panics

/-- A session finds a match in a run exactly when its watch does. -/
theorem findsSome_iff
    (lawful : ∀ direction : Direction,
      libs.FindsOccurrences (CompiledBodyPhase.literals (direction.rules config.compiled)))
    (built : config.compiled.Built libs)
    (watches : Watches config.compiled session watch) (calls : List HookCall) :
    session.FindsSome libs config calls ↔ watch.HitsSome config.compiled calls := by
  induction calls generalizing session watch with
  | nil => exact Iff.rfl
  | cons call rest ih =>
    have step : Agrees libs config session watch call := by
      cases call with
      | bodyChunk direction chunk endBody =>
        exact watches.bodyChunk (lawful direction) built chunk endBody
      | responseHeaders status headers => exact watches.responseHeaders status headers
    obtain ⟨finds, goes⟩ := step
    rw [WafSession.FindsSome, Watch.HitsSome, finds]
    by_cases hits : watch.Hits config.compiled call
    · exact iff_of_true (Or.inl hits) (Or.inl hits)
    · grind

end Watches

section Transactions

variable {libs : Libraries}

/-- Where a literal rule occurs in a body, some call after the headers of the request
finds a match unless they ended the session, exactly when an inspected piece has
a match. -/
theorem duplex_finds_iff (config : WafConfig)
    (lawful : ∀ direction : Direction,
      libs.FindsOccurrences (CompiledBodyPhase.literals (direction.rules config.compiled)))
    (built : config.compiled.Built libs) (clientIp : Option Net.IpAddr)
    (host : Option Bytes) (req : RequestParts) (requestIp : Option Net.IpAddr)
    (calls : List HookCall) :
    let session := ((WafSession.new clientIp).onRequestHeaders config host req requestIp).2
    ((∃ direction, config.compiled.OccursIn direction (HookCall.bodyOf direction calls)) →
        session.state = .done ∨ session.FindsSome libs config calls) ↔
      ((¬ ∃ direction,
          config.compiled.OccursIn direction (HookCall.bodyOf direction calls)) ∨
        session.state = .done ∨ Watch.idle.HitsSome config.compiled calls) := by
  intro session
  have finds : session.state ≠ .done →
      (session.FindsSome libs config calls ↔ Watch.idle.HitsSome config.compiled calls) := by
    intro notDone
    have watches : Watches config.compiled session .idle :=
      Or.inr ((onRequestHeaders_state config clientIp host req requestIp).resolve_left notDone)
    exact watches.findsSome_iff lawful built calls
  by_cases done : session.state = .done
  · simp [done]
  · rw [finds done]
    tauto

def okStatus : StatusCode := serverResponse.status

/-- A body with `evil` in it, cut in the middle of it by the headers of the response. -/
def splitEvil : List HookCall :=
  [.bodyChunk .request [101, 118] false, .responseHeaders okStatus ⟨[]⟩,
    .bodyChunk .request [105, 108] true]

/-- A request with a method of its own, which no rule for headers knows. -/
def ownMethod : RequestParts := ⟨.extension [88], [47], none, ⟨[]⟩⟩

theorem duplex_finds_iff_evil :
    ∃ rules, compile .naive evilRule.alone = .ok rules ∧
      let session := ((WafSession.new none).onRequestHeaders (blocking rules) none ownMethod none).2
      ((∃ direction, rules.OccursIn direction (HookCall.bodyOf direction splitEvil)) →
          session.state = .done ∨ session.FindsSome .naive (blocking rules) splitEvil) ↔
        ((¬ ∃ direction, rules.OccursIn direction (HookCall.bodyOf direction splitEvil)) ∨
          session.state = .done ∨ Watch.idle.HitsSome rules splitEvil) := by
  obtain ⟨rules, accepted⟩ := evilRule_accepted
  exact ⟨rules, accepted, duplex_finds_iff (blocking rules) (fun _ => naive_findsOccurrences _)
    (compile_built accepted) none none ownMethod none splitEvil⟩

/-- The headers of the response drop the first half of the literal. -/
theorem headers_drop_body :
    ∃ rules, compile .naive evilRule.alone = .ok rules ∧
      let entry := (WafSession.new none).onRequestHeaders (blocking rules) none ownMethod none
      entry.1 = .pass ∧ entry.2.state ≠ .done ∧
        rules.OccursIn .request (HookCall.bodyOf .request splitEvil) ∧
        ¬ entry.2.FindsSome .naive (blocking rules) splitEvil := by
  obtain ⟨rules, accepted, passes, notDone, isLiteral, noRegex, noHeaders⟩ : ∃ rules,
      compile .naive evilRule.alone = .ok rules ∧
        ((WafSession.new none).onRequestHeaders (blocking rules) none ownMethod none).1 = .pass ∧
        ((WafSession.new none).onRequestHeaders (blocking rules) none ownMethod none).2.state =
          .responseHeaders ∧
        CompiledBodyPhase.literals rules.requestBody = [[101, 118, 105, 108]] ∧
        (Direction.request.phase rules).dfa = none ∧
        WafSession.firstResponseMatch okStatus ⟨[]⟩ rules.responseHeaders = .ok none :=
    ⟨_, rfl, by decide +kernel, by decide +kernel, by decide +kernel, rfl, by decide +kernel⟩
  have quiet : ∀ text endBody, (Direction.request.phase rules).report none text endBody = none := by
    intro text endBody
    simp [CompiledBodyPhase.report, CompiledBodyPhase.eoiHit, CompiledBodyPhase.dfaRun, noRegex]
  have occurs : ∀ text, rules.OccursIn .request text ↔ [101, 118, 105, 108] <:+: text := by
    intro text
    unfold CompiledWafRules.OccursIn
    change (∃ literal ∈ CompiledBodyPhase.literals rules.requestBody, _) ↔ _
    rw [isLiteral]
    simp
  refine ⟨rules, accepted, passes, ?_, ?_, ?_⟩
  · rw [notDone]
    decide
  · rw [occurs]
    decide
  · have watches : Watches (blocking rules).compiled _ .idle := Or.inr notDone
    rw [watches.findsSome_iff (fun _ => naive_findsOccurrences _) (compile_built accepted)]
    change ¬ Watch.idle.HitsSome rules splitEvil
    simp [splitEvil, Watch.HitsSome, Watch.Hits, Watch.next, Watch.before, Watch.Panics,
      noHeaders, quiet, occurs]
    decide

end Transactions

end Ophan.Waf
