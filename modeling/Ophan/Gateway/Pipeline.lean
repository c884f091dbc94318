import Ophan.Gateway.Context

/-!
# The request pipeline and the methods of a route

`on_request` runs the stages of a matched route: CORS, the rate limit and the
authentication (the firewall stage is switched off here).  The router admits
`OPTIONS` on CORS routes for preflights; what is not one passes the pipeline if
it asks for a method and has no origin.

The other way past the list of methods is the set itself: with `OPTIONS` added,
a list of the eight other standard methods stands for every method.
-/

namespace Ophan.Gateway

open Http Rewrite Router

variable {lib : Regexes}

/-- What the rate limiter and the authentication answer to a request. -/
structure Stages where
  rateLimit : FilterAction
  auth : FilterAction

def FilterAction.andThen (action next : FilterAction) : FilterAction :=
  match action with
  | .proceed => next
  | stopped => stopped

namespace Pipeline

def isToken : LimiterIdentifier → Bool
  | .token _ => true
  | _ => false

def policies (stages : Stages) (route : HttpRoute lib) : FilterAction :=
  let limitAfterAuth := route.limiterPolicy.any (isToken ·.identifier)
  let limit := if route.limiterPolicy.isSome then stages.rateLimit else .proceed
  let auth := if route.authPolicy.isSome then stages.auth else .proceed
  let before := if limitAfterAuth then .proceed else limit
  let behind := if limitAfterAuth then limit else .proceed
  (before.andThen auth).andThen behind

def onRequest (stages : Stages) (request : RequestParts)
    (route : HttpRoute lib) (ctx : OphanCtx) : FilterAction × OphanCtx :=
  match route.corsPolicy with
  | none => (policies stages route, ctx)
  | some cors =>
    let notPreflight := isOptions request.method && !containsKey request.headers requestMethodHeader
    if notPreflight && !route.methods.isEmpty && !route.methods.containsMethod request.method then
      (.reject 405, ctx)
    else
      let answered := CorsMiddleware.onRequest request cors ctx
      (answered.1.andThen (policies stages route), answered.2)

end Pipeline

/-- `request_filter`: the route of a request, and what its pipeline says.  The headers of the
request are those behind the header mutations of the route, which leave its method. -/
def requestFilter (router : Router (HttpRoute lib)) (stages : Stages)
    (host : Option Bytes) (path : Bytes) (request : RequestParts)
    (ctx : OphanCtx) : Outcome MatchError (HttpRoute lib × FilterAction) :=
  (router.matchRoute host request.method path).map fun (route, _) =>
    (route, (Pipeline.onRequest stages request route ctx).1)

/-- Every request that is let through has a method of the list of its route. -/
def RestrictsMethods (router : Router (HttpRoute lib))
    (host : Option Bytes) (path : Bytes) (request : RequestParts) :
    Prop :=
  ∀ stages ctx route,
    requestFilter router stages host path request ctx = .ok (route, .proceed) →
    route.methods.isEmpty = false → route.methods.Allows request.method

/-- An `OPTIONS` request that asks for a method and has no origin, to a CORS
route that does not list `OPTIONS`. -/
def LooksLikePreflight (route : HttpRoute lib) (request : RequestParts) : Prop :=
  route.corsPolicy.isSome = true ∧ isOptions request.method = true ∧
    ¬ route.methods.Allows request.method ∧
    containsKey request.headers requestMethodHeader = true ∧
    request.headers.get originHeader = none

/-- A custom method that the route does not list, where the list, with
`OPTIONS` if there is a CORS policy, has all nine standard methods. -/
def SlipsThroughAny (route : HttpRoute lib) (request : RequestParts) : Prop :=
  request.method.isStandard = false ∧ ¬ route.methods.Allows request.method ∧
    route.widest.standard.bits &&& HttpMethod.all.bits = HttpMethod.all.bits

/-! ## What passes the pipeline -/

namespace Pipeline

theorem policies_proceed (route : HttpRoute lib) :
    policies ⟨.proceed, .proceed⟩ route = .proceed := by
  simp [policies, FilterAction.andThen]

theorem andThen_eq_proceed_iff {action next : FilterAction} :
    action.andThen next = .proceed ↔ action = .proceed ∧ next = .proceed := by
  cases action <;> simp [FilterAction.andThen]

/-- A request on a CORS route passes if it is not a preflight, and not an
`OPTIONS` request without a right to it. -/
theorem passes_of_cors {route : HttpRoute lib} {request : RequestParts}
    {cors : CorsConfig} (hasCors : route.corsPolicy = some cors) (ctx : OphanCtx)
    (admitted : isOptions request.method = false ∨
      containsKey request.headers requestMethodHeader = true ∧
        request.headers.get originHeader = none) :
    (onRequest ⟨.proceed, .proceed⟩ request route ctx).1 = .proceed := by
  have proceeds : (CorsMiddleware.onRequest request cors ctx).1 = .proceed := by
    rw [CorsMiddleware.onRequest_proceeds_iff]
    tauto
  have isPreflight : (isOptions request.method &&
      !containsKey request.headers requestMethodHeader) = false := by
    rcases admitted with other | ⟨asks, -⟩
    · simp [other]
    · simp [asks]
  simp only [onRequest, hasCors, isPreflight, Bool.false_and, Bool.false_eq_true,
    if_false, proceeds, policies_proceed, FilterAction.andThen]

/-- An `OPTIONS` request that a CORS route does not list passes only if it asks
for a method and has no origin. -/
theorem looksLikePreflight_of_passes {stages : Stages} {route : HttpRoute lib}
    {request : RequestParts} {ctx : OphanCtx}
    (passes : (onRequest stages request route ctx).1 = .proceed)
    (hasCors : route.corsPolicy.isSome = true) (restricted : route.methods.isEmpty = false)
    (isOptionsRequest : isOptions request.method = true)
    (unlisted : ¬ route.methods.Allows request.method) :
    LooksLikePreflight route request := by
  obtain ⟨cors, isCors⟩ := Option.isSome_iff_exists.mp hasCors
  have notContained : route.methods.containsMethod request.method = false := by
    by_contra contained
    exact unlisted (Or.inr (by simpa using contained))
  simp only [onRequest, isCors, isOptionsRequest, restricted, notContained,
    Bool.true_and, Bool.not_false, Bool.and_true] at passes
  cases asks : containsKey request.headers requestMethodHeader with
  | false => simp [asks] at passes
  | true =>
    simp only [asks, Bool.not_true, Bool.false_eq_true, if_false,
      andThen_eq_proceed_iff, CorsMiddleware.onRequest_proceeds_iff,
      isOptionsRequest, reduceCtorEq, or_false] at passes
    exact ⟨hasCors, isOptionsRequest, unlisted, asks, passes.1⟩

end Pipeline

variable {route : HttpRoute lib}

/-- What the methods of the entry say of an unlisted method that it allows. -/
theorem unlisted_cases {methods : HttpMethodSet} {method : Method} (narrow : Narrow route methods)
    (restricted : route.methods.isEmpty = false) (allows : methods.Allows method)
    (unlisted : ¬ route.methods.Allows method) :
    route.corsPolicy.isSome = true ∧ isOptions method = true ∨
      method.isStandard = false ∧
        route.widest.standard.bits &&& HttpMethod.all.bits =
          HttpMethod.all.bits := by
  have ofContained (contained : methods.containsMethod method = true) :
      route.corsPolicy.isSome = true ∧ isOptions method = true := by
    have wide := narrow.containsMethod contained
    rw [HttpRoute.widest] at wide
    split at wide
    · rename_i widened
      rcases containsMethod_addStandard (by simp [HttpMethod.Standard]) wide with
        listed | same
      · exact absurd (Or.inr listed) unlisted
      · simp only [Bool.and_eq_true] at widened
        exact ⟨widened.1, by simp [isOptions, same]⟩
    · rw [registered, restricted] at wide
      exact absurd (Or.inr wide) unlisted
  rcases allows with any | contained
  · cases found : method.member with
    | inl mask =>
      left
      exact ofContained (HttpMethodSet.containsMethod_of_isAny any found)
    | inr name =>
      right
      exact ⟨by simp [Method.isStandard, found], narrow.standard_of_isAny any⟩
  · exact Or.inl (ofContained contained)

variable {request : RequestParts}

/-- A request that neither looks like a preflight nor slips through the set of
all standard methods is let through only with a method of the list. -/
theorem listed_of_passes {routes : List RoutesConfig} {router : Router (HttpRoute lib)}
    (built : AppContext.build lib routes = .ok router)
    {host : Option Bytes} {path : Bytes} {params : Params}
    (matched : router.matchRoute host request.method path = .ok (route, params))
    (restricted : route.methods.isEmpty = false) (noPreflight : ¬ LooksLikePreflight route request)
    (noSlip : ¬ SlipsThroughAny route request) {stages : Stages} {ctx : OphanCtx}
    (passes : (Pipeline.onRequest stages request route ctx).1 = .proceed) :
    route.methods.Allows request.method := by
  by_contra unlisted
  obtain ⟨methods, narrow, allows⟩ := (AppContext.build_keeps built).matchRoute matched
  rcases unlisted_cases narrow restricted allows unlisted with
    ⟨hasCors, isOptionsRequest⟩ | ⟨custom, all⟩
  · exact noPreflight (Pipeline.looksLikePreflight_of_passes passes hasCors
      restricted isOptionsRequest unlisted)
  · exact noSlip ⟨custom, unlisted, all⟩

/-- Either of the two ways passes a pipeline whose stages are willing. -/
theorem passes_of_unlisted (ctx : OphanCtx)
    (slips : LooksLikePreflight route request ∨ SlipsThroughAny route request) :
    (Pipeline.onRequest ⟨.proceed, .proceed⟩ request route ctx).1 = .proceed := by
  cases hasCors : route.corsPolicy with
  | none => simp only [Pipeline.onRequest, hasCors, Pipeline.policies_proceed]
  | some cors =>
    apply Pipeline.passes_of_cors hasCors
    rcases slips with ⟨-, -, -, asks, noOrigin⟩ | ⟨custom, -⟩
    · exact Or.inr ⟨asks, noOrigin⟩
    · left
      cases found : request.method.member with
      | inl mask => simp [Method.isStandard, found] at custom
      | inr name => simp [isOptions, found]

theorem not_allows_of_slips
    (slips : LooksLikePreflight route request ∨ SlipsThroughAny route request) :
    ¬ route.methods.Allows request.method := by
  rcases slips with ⟨-, -, unlisted, -⟩ | ⟨-, unlisted, -⟩
  · exact unlisted
  · exact unlisted

/-- In every gateway that is built, the requests that are let through to a route
with a list of methods have a method of that list, exactly when its request
neither looks like a preflight without an origin nor has a custom method that the
widened set lets pass. -/
theorem method_restriction_iff (lib : Regexes) (routes : List RoutesConfig)
    (router : Router (HttpRoute lib)) (built : AppContext.build lib routes = .ok router)
    (host : Option Bytes) (path : Bytes) (request : RequestParts) :
    RestrictsMethods router host path request ↔
      ∀ route params,
        router.matchRoute host request.method path = .ok (route, params) →
        route.methods.isEmpty = false →
        ¬ LooksLikePreflight route request ∧ ¬ SlipsThroughAny route request := by
  constructor
  · intro restricts route params matched restricted
    rw [← not_or]
    intro slips
    apply not_allows_of_slips slips
    apply restricts ⟨.proceed, .proceed⟩ ⟨⟨0⟩, none⟩ route _ restricted
    rw [requestFilter, matched, Outcome.map_ok]
    change Outcome.ok (route, (Pipeline.onRequest ⟨.proceed, .proceed⟩ request
      route ⟨⟨0⟩, none⟩).1) = _
    rw [passes_of_unlisted ⟨⟨0⟩, none⟩ slips]
  · intro clean stages ctx route filtered restricted
    obtain ⟨⟨matchedRoute, params⟩, matched, result⟩ := Outcome.map_eq_ok_iff.mp filtered
    obtain ⟨isRoute, passes⟩ := Prod.mk.inj result
    subst isRoute
    obtain ⟨noPreflight, noSlip⟩ := clean matchedRoute params matched restricted
    exact listed_of_passes built matched restricted noPreflight noSlip passes

def corsRoute : RoutesConfig where
  path := bytes "/api"
  hosts := []
  methods := HttpMethodSet.new HttpMethod.get
  rewrite := none
  auth := none
  cors := some ⟨.all, false, none⟩
  limiter := none

def apiRequest (method : Method) (headers : List (Bytes × Bytes)) : RequestParts where
  method := method
  path := bytes "/api"
  query := none
  headers := ⟨headers⟩

/-- What the pipeline with willing stages makes of a request to a gateway with
the one route. -/
def corsAnswer (request : RequestParts) : Option (HttpMethodSet × FilterAction) :=
  match AppContext.build Regexes.none [corsRoute] with
  | .ok router =>
    match requestFilter router ⟨.proceed, .proceed⟩ none request.path request ⟨⟨0⟩, none⟩ with
    | .ok (route, action) => some (route.methods, action)
    | _ => none
  | _ => none

theorem build_corsRoute : ∃ router, AppContext.build Regexes.none [corsRoute] = .ok router := by
  have isOk : (AppContext.build Regexes.none [corsRoute]).isOk = true := by decide +kernel
  cases built : AppContext.build Regexes.none [corsRoute] with
  | ok router => exact ⟨router, rfl⟩
  | err | panic => simp [built] at isOk

theorem method_restriction_get :
    ∃ router, AppContext.build Regexes.none [corsRoute] = .ok router ∧
      RestrictsMethods router none (bytes "/api") (apiRequest .get []) := by
  obtain ⟨router, built⟩ := build_corsRoute
  refine ⟨router, built, (method_restriction_iff Regexes.none [corsRoute] router
    built none (bytes "/api") (apiRequest .get [])).mpr ?_⟩
  intro route params matched restricted
  refine ⟨?_, ?_⟩
  · intro preflight
    exact absurd preflight.2.1 (by decide)
  · intro slips
    exact absurd slips.1 (by decide)

/-- An `OPTIONS` request that asks for a method but has no origin goes to the
backend of a route for `GET` requests. -/
theorem options_is_forwarded :
    corsAnswer (apiRequest .options [(requestMethodHeader, bytes "GET")]) =
      some (HttpMethodSet.new HttpMethod.get, .proceed) ∧
    ¬ (HttpMethodSet.new HttpMethod.get).Allows .options := by
  refine ⟨by decide +kernel, ?_⟩
  simp only [HttpMethodSet.Allows]
  decide

end Ophan.Gateway
