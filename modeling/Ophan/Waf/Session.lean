import Ophan.Waf.Compiler

/-!
# The firewall session

One session follows one transaction through its hooks.  A rule that fires is
applied: its score is added, and its action, the mode and the threshold decide
whether the session ends.
-/

namespace Ophan.Waf

open Ophan.Http Ophan.Net

inductive WafMode where
  | disabled
  | detectionOnly
  | blocking
  deriving DecidableEq, Repr

structure WafConfig where
  mode : WafMode
  compiled : CompiledWafRules
  anomalyThreshold : UInt32

inductive ChallengeKind where
  | captcha
  | jsChallenge
  deriving DecidableEq, Repr

inductive WafAction where
  | allow
  | log
  | block (status : UInt16)
  | challenge (kind : ChallengeKind)
  | redirect (target : String) (status : UInt16)
  deriving DecidableEq, Repr

structure WafMatch where
  phase : Phase
  ruleId : String
  field : Field
  category : Option String
  deriving DecidableEq, Repr

inductive WafResult where
  | pass
  | log (scoreDelta : UInt32) (matched : List WafMatch)
  | block (scoreDelta : UInt32) (matched : List WafMatch) (action : WafAction)
  deriving DecidableEq, Repr

/-- What a result makes the proxy do: the action of a block. -/
def WafResult.decision : WafResult → Option WafAction
  | .block _ _ action => some action
  | _ => none

inductive SessionState where
  | initial
  | requestBody (body : BodySession)
  | responseHeaders
  | responseBody (body : BodySession)
  | done
  deriving DecidableEq, Repr

structure WafSession where
  state : SessionState
  totalScore : UInt32
  clientIp : Option IpAddr
  deriving DecidableEq, Repr

namespace WafSession

variable (libs : Libraries) (config : WafConfig)

/-- `WafEngine::session` -/
def new (clientIp : Option IpAddr) : WafSession := ⟨.initial, 0, clientIp⟩

def isDone (session : WafSession) : Bool := session.state = .done

/-- Apply one match.  The score wraps around, as in a release build. -/
def applyMatch (session : WafSession) (phase : Phase) (ruleMeta : RuleMeta)
    (field : Field) : WafResult × WafSession :=
  if ruleMeta.action = .allow then (.pass, session)
  else
    let scored := { session with totalScore := session.totalScore + ruleMeta.score }
    let matched : List WafMatch := [⟨phase, ruleMeta.id, field, some ruleMeta.category.code⟩]
    match config.mode with
    | .disabled => (.pass, scored)
    | .detectionOnly => (.log ruleMeta.score matched, scored)
    | .blocking =>
      match ruleMeta.action with
      | .block status =>
        (.block ruleMeta.score matched (.block status), { scored with state := .done })
      | .challenge =>
        (.block ruleMeta.score matched (.challenge .jsChallenge), { scored with state := .done })
      | .log =>
        if scored.totalScore ≥ config.anomalyThreshold then
          (.block ruleMeta.score matched (.block 403), { scored with state := .done })
        else (.log ruleMeta.score matched, scored)
      | .allow => (.pass, scored)

def firstRequestMatch (rules : List CompiledRule) (ip : Option IpAddr)
    (host : Option Bytes) (req : RequestParts) : Option RuleMeta :=
  rules.findSome? fun rule => rule.evaluateRequest ip host req

def onRequestHeaders (session : WafSession) (host : Option Bytes)
    (req : RequestParts) (clientIp : Option IpAddr) : WafResult × WafSession :=
  if session.isDone then (.pass, session)
  else
    let session := { session with clientIp := clientIp.or session.clientIp }
    let session := { session with state := .responseHeaders }
    match firstRequestMatch config.compiled.requestHeaders session.clientIp host req with
    | some ruleMeta => session.applyMatch config .inboundHeaders ruleMeta .host
    | none => (.pass, session)

/-- The meta of the first rule that fires on a response.  The rules before it
are evaluated, and can panic. -/
def firstResponseMatch (status : StatusCode) (headers : HeaderMap) :
    List CompiledRule → Outcome Empty (Option RuleMeta)
  | [] => .ok none
  | rule :: rest =>
    (rule.evaluateResponse status headers).bind fun fired =>
      match fired with
      | some ruleMeta => .ok (some ruleMeta)
      | none => firstResponseMatch status headers rest

def onResponseHeaders (session : WafSession) (status : StatusCode)
    (headers : HeaderMap) : Outcome Empty (WafResult × WafSession) :=
  if session.isDone then .ok (.pass, session)
  else
    let session := { session with state := .responseHeaders }
    (firstResponseMatch status headers config.compiled.responseHeaders).map fun fired =>
      match fired with
      | some ruleMeta => session.applyMatch config .outboundHeaders ruleMeta .statusCode
      | none => (.pass, session)

/-- Feed a chunk to the body session of a phase, which is put back with
`wrap`. -/
def feedBody (session : WafSession) (phase : CompiledBodyPhase)
    (wrap : BodySession → SessionState) (name : Phase) (body : BodySession)
    (chunk : Bytes) (endBody : Bool) : WafResult × WafSession :=
  match body.feed libs phase chunk endBody with
  | (.block, after) =>
    let session := { session with state := wrap after }
    match phase.metaOf after.lastHit with
    | some ruleMeta => session.applyMatch config name ruleMeta .body
    | none => (.pass, session)
  | (.proceed, after) => (.pass, { session with state := wrap after })
  | (.allow, _) => (.pass, { session with state := .responseHeaders })

def onRequestBodyChunk (session : WafSession) (chunk : Bytes)
    (endBody : Bool) : WafResult × WafSession :=
  match session.state with
  | .done | .responseBody _ => (.pass, session)
  | .initial | .responseHeaders =>
    session.feedBody libs config config.compiled.requestBodyPhase .requestBody
      .inboundBody .new chunk endBody
  | .requestBody body =>
    session.feedBody libs config config.compiled.requestBodyPhase .requestBody
      .inboundBody body chunk endBody

def onResponseBodyChunk (session : WafSession) (chunk : Bytes)
    (endBody : Bool) : WafResult × WafSession :=
  match session.state with
  | .done | .requestBody _ => (.pass, session)
  | .initial | .responseHeaders =>
    session.feedBody libs config config.compiled.responseBodyPhase .responseBody
      .outboundBody .new chunk endBody
  | .responseBody body =>
    session.feedBody libs config config.compiled.responseBodyPhase .responseBody
      .outboundBody body chunk endBody

end WafSession

end Ophan.Waf
