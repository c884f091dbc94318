import Ophan.Http.Request

/-!
# The CORS stage of the request pipeline

A request without an `Origin` header, and an `OPTIONS` request that does not ask
for a method, are outside of CORS and go on.  A preflight is answered here with
`204 No Content`; every other request goes on, with the headers of its response
prepared.
-/

namespace Ophan.Gateway

open Http

inductive FilterAction where
  | proceed
  | earlyResponse (status : Nat)
  | reject (status : Nat)
  deriving DecidableEq, Repr

structure VarySet where
  bits : UInt32
  deriving DecidableEq, Repr

namespace VarySet

def origin : VarySet := ⟨(1 : UInt32) <<< 1⟩
def accessControlRequestMethod : VarySet := ⟨(1 : UInt32) <<< 6⟩
def accessControlRequestHeaders : VarySet := ⟨(1 : UInt32) <<< 7⟩

def insert (set other : VarySet) : VarySet := ⟨set.bits ||| other.bits⟩

end VarySet

inductive Scheme where
  | http
  | https
  deriving DecidableEq, Repr

def Scheme.asBytes : Scheme → Bytes
  | .http => bytes "http://"
  | .https => bytes "https://"

structure WildcardOrigin where
  scheme : Scheme
  suffix : Bytes
  deriving DecidableEq, Repr

/-- `WildcardOrigin::matches` -/
def WildcardOrigin.allows (wildcard : WildcardOrigin) (origin : Bytes) : Bool :=
  let scheme := wildcard.scheme.asBytes
  if scheme <+: origin then
    let hostPart := origin.drop scheme.length
    wildcard.suffix.length < hostPart.length && wildcard.suffix <:+ hostPart
  else
    false

inductive AllowedOrigins where
  | all
  | list (exact : List Bytes) (wildcards : List WildcardOrigin)
  deriving DecidableEq, Repr

namespace AllowedOrigins

def isAllowAll : AllowedOrigins → Bool
  | .all => true
  | .list _ _ => false

/-- `AllowedOrigins::matches` -/
def allows (origins : AllowedOrigins) (origin : Bytes) : Bool :=
  match origins with
  | .all => true
  | .list exact wildcards => exact.contains origin || wildcards.any (·.allows origin)

end AllowedOrigins

structure CorsConfig where
  allowOrigins : AllowedOrigins
  allowCredentials : Bool
  allowHeaders : Option Bytes
  deriving DecidableEq, Repr

structure CorsContext where
  isPreflight : Bool
  allowOrigin : Option Bytes
  allowHeaders : Option Bytes
  allowCredentials : Bool
  deriving DecidableEq, Repr

structure OphanCtx where
  vary : VarySet
  cors : Option CorsContext
  deriving DecidableEq, Repr

/-- `header::ORIGIN` -/
def originHeader : Bytes := bytes "origin"

/-- `header::ACCESS_CONTROL_REQUEST_METHOD` -/
def requestMethodHeader : Bytes := bytes "access-control-request-method"

/-- `header::ACCESS_CONTROL_REQUEST_HEADERS` -/
def requestHeadersHeader : Bytes :=
  bytes "access-control-request-headers"

def containsKey (headers : HeaderMap) (name : Bytes) : Bool := (headers.get name).isSome

/-- `method == Method::OPTIONS`.  An extension method never has the name of a
standard one, so that methods are equal when they are the same member. -/
def isOptions (method : Method) : Bool := method.member = .inl HttpMethod.options

namespace CorsMiddleware

/-- The context of a CORS request with an allowed or refused origin. -/
def answerOrigin (config : CorsConfig) (isPreflight : Bool) (origin : Bytes) : CorsContext :=
  if config.allowOrigins.isAllowAll then
    { isPreflight := isPreflight
      allowOrigin := some (bytes "*")
      allowHeaders := none
      allowCredentials := false }
  else if config.allowOrigins.allows origin then
    { isPreflight := isPreflight
      allowOrigin := some origin
      allowHeaders := none
      allowCredentials := config.allowCredentials && !config.allowOrigins.isAllowAll }
  else
    { isPreflight := isPreflight
      allowOrigin := none
      allowHeaders := none
      allowCredentials := false }

def onRequest (request : RequestParts) (config : CorsConfig) (ctx : OphanCtx) :
    FilterAction × OphanCtx :=
  match request.headers.get originHeader with
  | none =>
    if !config.allowOrigins.isAllowAll then
      (.proceed, { ctx with vary := ctx.vary.insert .origin })
    else
      (.proceed, ctx)
  | some origin =>
    let isPreflight := isOptions request.method
    if isPreflight && !containsKey request.headers requestMethodHeader then
      (.proceed, { ctx with vary := ctx.vary.insert .origin })
    else
      let answer := answerOrigin config isPreflight origin
      if !isPreflight then
        let vary :=
          if !config.allowOrigins.isAllowAll then ctx.vary.insert .origin
          else ctx.vary
        (.proceed, { vary := vary, cors := some answer })
      else
        let reflected :=
          if config.allowHeaders.isNone then
            request.headers.get requestHeadersHeader
          else
            none
        (.earlyResponse 204,
          { vary := ((ctx.vary.insert .origin).insert
              .accessControlRequestHeaders).insert .accessControlRequestMethod
            cors := some { answer with allowHeaders := reflected } })

/-- The stage stops exactly the preflights of CORS. -/
theorem onRequest_proceeds_iff (request : RequestParts) (config : CorsConfig) (ctx : OphanCtx) :
    (onRequest request config ctx).1 = .proceed ↔
      (request.headers.get originHeader = none ∨
        isOptions request.method = false ∨
        containsKey request.headers requestMethodHeader = false) := by
  rw [onRequest]
  cases request.headers.get originHeader with
  | none => grind
  | some origin => grind

/-! ## Cached responses -/

/-- The fields of a configuration that only the response reads. -/
structure ResponseConfig extends CorsConfig where
  allowMethods : Option Bytes
  allowExposeHeaders : Option Bytes
  allowMaxAge : Option Bytes
  deriving DecidableEq, Repr

/-- The headers that are added to the response. -/
def prepareResponse (config : ResponseConfig) (cors : CorsContext) : List (Bytes × Bytes) :=
  match cors.allowOrigin with
  | none => []
  | some origin =>
    let optional (name : String) (value : Option Bytes) :=
      value.toList.map fun text => (bytes name, text)
    (bytes "access-control-allow-origin", origin) ::
      (if cors.allowCredentials then [(bytes "access-control-allow-credentials", bytes "true")]
        else []) ++
      optional "access-control-expose-headers" config.allowExposeHeaders ++
      if cors.isPreflight then
        optional "access-control-allow-methods" config.allowMethods ++
          optional "access-control-allow-headers" (config.allowHeaders <|> cors.allowHeaders) ++
          optional "access-control-max-age" config.allowMaxAge
      else []

def addedHeaders (config : ResponseConfig) (request : RequestParts) : List (Bytes × Bytes) :=
  match (onRequest request config.toCorsConfig ⟨⟨0⟩, none⟩).2.cors with
  | none => []
  | some cors => prepareResponse config cors

/-- The request headers that this stage names in `Vary`. -/
def varyHeaders : List (VarySet × Bytes) :=
  [(.origin, originHeader), (.accessControlRequestMethod, requestMethodHeader),
    (.accessControlRequestHeaders, requestHeadersHeader)]

def AgreeOn (vary : VarySet) (first second : HeaderMap) : Prop :=
  ∀ named ∈ varyHeaders, vary.bits &&& named.1.bits ≠ 0 →
    first.getAll named.2 = second.getAll named.2

/-- A cache may answer the second request with the response to the first. -/
def CacheSafe (config : ResponseConfig) (first second : RequestParts) : Prop :=
  isOptions first.method = false → isOptions second.method = false →
    AgreeOn (onRequest first config.toCorsConfig ⟨⟨0⟩, none⟩).2.vary first.headers second.headers →
      addedHeaders config first = addedHeaders config second

theorem agreeOn_zero (first second : HeaderMap) : AgreeOn ⟨0⟩ first second :=
  fun _ _ contains => absurd (by simp) contains

theorem addedHeaders_eq (config : ResponseConfig) {request : RequestParts}
    (notOptions : isOptions request.method = false) :
    addedHeaders config request =
      ((request.headers.get originHeader).map fun origin =>
        prepareResponse config (answerOrigin config.toCorsConfig false origin)).getD [] := by
  rw [addedHeaders, onRequest]
  cases request.headers.get originHeader with
  | none => cases config.allowOrigins.isAllowAll <;> rfl
  | some origin => simp [notOptions]

theorem vary_onRequest (config : CorsConfig) {request : RequestParts}
    (notOptions : isOptions request.method = false) :
    (onRequest request config ⟨⟨0⟩, none⟩).2.vary =
      if config.allowOrigins.isAllowAll then ⟨0⟩ else .origin := by
  rw [onRequest]
  cases config.allowOrigins.isAllowAll with
  | false | true => cases request.headers.get originHeader <;> simp [notOptions] <;> rfl

/-- With all origins allowed a response says so only to requests that have an
`Origin` header, and does not name that header in `Vary`. -/
theorem cache_safe_iff (config : ResponseConfig) (first second : RequestParts) :
    CacheSafe config first second ↔
      ¬ (isOptions first.method = false ∧ isOptions second.method = false ∧
        config.allowOrigins.isAllowAll = true ∧
        (first.headers.get originHeader).isSome ≠ (second.headers.get originHeader).isSome) := by
  cases isFirst : isOptions first.method with
  | true => simp [CacheSafe, isFirst]
  | false =>
    cases isSecond : isOptions second.method with
    | true => simp [CacheSafe, isSecond]
    | false =>
      simp only [CacheSafe, isFirst, isSecond, vary_onRequest _ isFirst,
        addedHeaders_eq _ isFirst, addedHeaders_eq _ isSecond, forall_const, true_and, not_and]
      cases allowAll : config.allowOrigins.isAllowAll with
      | false =>
        refine iff_of_true (fun agree => ?_) (by simp)
        have same := agree (.origin, originHeader) (by simp [varyHeaders]) (by decide)
        rw [HeaderMap.get, same, HeaderMap.get]
      | true =>
        have agree := agreeOn_zero first.headers second.headers
        cases first.headers.get originHeader <;> cases second.headers.get originHeader <;>
          simp [agree, answerOrigin, allowAll, prepareResponse]

/-- The response to a request of the same origin, without `Origin`, is cached and
lacks the header that a request with `Origin` needs. -/
theorem all_origins_poison :
    ¬ CacheSafe ⟨⟨.all, false, none⟩, none, none, none⟩ ⟨.get, bytes "/", none, ⟨[]⟩⟩
      ⟨.get, bytes "/", none, ⟨[(originHeader, bytes "https://a.example")]⟩⟩ := by
  intro safe
  exact absurd (safe rfl rfl (agreeOn_zero _ _)) (by decide +kernel)

end CorsMiddleware

end Ophan.Gateway
