import Ophan.Auth.Tokens
import Ophan.Gateway.Cors
import Ophan.Rewrite.Engine
import Ophan.Router.Values

/-!
# Building the router of a gateway

`AppContext::build` adds the configured routes one after the other.  A CORS route
with a list of methods also gets `OPTIONS`, for its preflights, unless a route of
one of its hosts and its path takes `OPTIONS` requests already (`widest`).
-/

namespace Ophan.Gateway

open Http Lib Rewrite Router

inductive LimiterIdentifier where
  | ip
  | header (name : Str)
  | token (claim : Str)
  deriving DecidableEq, Repr

structure LimiterConfig where
  identifier : LimiterIdentifier
  deriving DecidableEq, Repr

structure RouteRewrites where
  replaces : List (Str × Str)
  stripPrefix : Option Str
  stripSuffix : Option Str
  trailingSlash : Option TrailingSlashAction
  deriving DecidableEq, Repr

/-- A configured route: what routing and the request pipeline read of it. -/
structure RoutesConfig where
  path : Bytes
  hosts : List Bytes
  methods : HttpMethodSet
  rewrite : Option RouteRewrites
  auth : Option Auth.AuthConfig
  cors : Option CorsConfig
  limiter : Option LimiterConfig
  deriving DecidableEq, Repr

structure HttpRoute (lib : Regexes) where
  methods : HttpMethodSet
  rewrite : Option (RewriteEngine lib)
  authPolicy : Option Auth.AuthConfig
  corsPolicy : Option CorsConfig
  limiterPolicy : Option LimiterConfig

inductive BuildError (lib : Regexes) where
  | rewrite (error : lib.Error)
  | insert (error : InsertError)

namespace AppContext

variable {lib : Regexes}

/-- The host and path pairs a route serves; routes without hosts serve the
default host. -/
def routeKeys (route : RoutesConfig) : List (Bytes × Bytes) :=
  let path := trimEndSlashes route.path
  if route.hosts = [] then [([], path)]
  else route.hosts.map fun host => (toAsciiLowercase host, path)

/-- The paths whose `OPTIONS` requests go to a route that lists the method. -/
def optionsListed (routes : List RoutesConfig) : List (Bytes × Bytes) :=
  (routes.filter (·.methods.standard.contains HttpMethod.options)).flatMap routeKeys

/-- The methods to register for a route, and the paths whose `OPTIONS` requests
are routed after it. -/
def preflightMethods (route : RoutesConfig) (optionsRouted : List (Bytes × Bytes)) :
    HttpMethodSet × List (Bytes × Bytes) :=
  if route.cors.isSome && !route.methods.isEmpty then
    let keys := routeKeys route
    if keys.all fun key => !optionsRouted.contains key then
      (route.methods.addStandard HttpMethod.options, optionsRouted ++ keys)
    else
      (route.methods, optionsRouted)
  else
    (route.methods, optionsRouted)

def compileRewrite (lib : Regexes) (rules : Option RouteRewrites) :
    Outcome (BuildError lib) (Option (RewriteEngine lib)) :=
  match rules with
  | none => .ok none
  | some rules =>
    match RewriteEngine.new lib rules.replaces rules.stripPrefix
      rules.stripSuffix (rules.trailingSlash.getD .ignore) with
    | .ok engine => .ok (some engine)
    | .err error => .err (.rewrite error)
    | .panic => .panic

def compileRoute (route : RoutesConfig) (rewrite : Option (RewriteEngine lib)) : HttpRoute lib where
  methods := route.methods
  rewrite := rewrite
  authPolicy := route.auth
  corsPolicy := route.cors
  limiterPolicy := route.limiter

def addRoutes (router : Router (HttpRoute lib)) (optionsRouted : List (Bytes × Bytes)) :
    List RoutesConfig → Outcome (BuildError lib) (Router (HttpRoute lib))
  | [] => .ok router
  | route :: routes =>
    (compileRewrite lib route.rewrite).bind fun rewrite =>
      let registered := preflightMethods route optionsRouted
      let added := router.addRoute route.path registered.1 route.hosts (compileRoute route rewrite)
      match added.2 with
      | .ok () => addRoutes added.1 registered.2 routes
      | .err error => .err (.insert error)
      | .panic => .panic

def build (lib : Regexes) (routes : List RoutesConfig) :
    Outcome (BuildError lib) (Router (HttpRoute lib)) :=
  addRoutes Router.new (optionsListed routes) routes

end AppContext

/-! ## The registered methods -/

structure Within (set other : HttpMethodSet) : Prop where
  standard : set.standard.bits &&& other.standard.bits = set.standard.bits
  custom : ∀ name ∈ set.custom, name ∈ other.custom

namespace Within

variable {set other : HttpMethodSet}

theorem refl (set : HttpMethodSet) : Within set set := ⟨UInt16.and_self .., fun _ member => member⟩

theorem addStandard (set : HttpMethodSet) (mask : HttpMethod) :
    Within set (set.addStandard mask) where
  standard := by
    apply UInt16.toBitVec_inj.mp
    ext i
    simp [HttpMethodSet.addStandard]
    tauto
  custom _ member := member

theorem without (within : Within set other) (taken : HttpMethodSet) :
    Within (set.without taken) other := by
  rw [HttpMethodSet.without]
  split
  · exact ⟨by simp [HttpMethodSet.new, HttpMethod.none], by simp [HttpMethodSet.new]⟩
  · refine ⟨?_, ?_⟩
    · calc set.standard.bits &&& ~~~taken.standard.bits &&& other.standard.bits
          = set.standard.bits &&& other.standard.bits &&& ~~~taken.standard.bits := by
            rw [UInt16.and_assoc, UInt16.and_assoc, UInt16.and_comm (~~~taken.standard.bits)]
        _ = set.standard.bits &&& ~~~taken.standard.bits := by rw [within.standard]
    · intro name member
      exact within.custom name (List.mem_filter.mp member).1

theorem containsMethod (within : Within set other) {method : Method}
    (contained : set.containsMethod method = true) :
    other.containsMethod method = true := by
  cases found : method.member with
  | inl mask =>
    rw [HttpMethodSet.containsMethod_standard found] at contained ⊢
    calc other.standard.bits &&& mask.bits
        = other.standard.bits &&& (set.standard.bits &&& mask.bits) := by rw [contained]
      _ = set.standard.bits &&& other.standard.bits &&& mask.bits := by
          rw [← UInt16.and_assoc, UInt16.and_comm other.standard.bits]
      _ = mask.bits := by rw [within.standard, contained]
  | inr name =>
    rw [HttpMethodSet.containsMethod_custom found] at contained ⊢
    exact within.custom name contained

theorem standard_of_isAny (within : Within set other) (any : set.isAny = true) :
    other.standard.bits &&& HttpMethod.all.bits = HttpMethod.all.bits := by
  have bits := within.standard
  rw [((HttpMethodSet.isAny_iff set).mp any).1] at bits
  rw [UInt16.and_comm]
  exact bits

end Within

theorem containsMethod_addStandard {set : HttpMethodSet} {mask : HttpMethod}
    (standard : mask.Standard) {method : Method}
    (contained : (set.addStandard mask).containsMethod method = true) :
    set.containsMethod method = true ∨ method.member = .inl mask := by
  cases found : method.member with
  | inr name =>
    rw [HttpMethodSet.containsMethod_custom found] at contained ⊢
    exact Or.inl contained
  | inl other =>
    rw [HttpMethodSet.containsMethod_standard found] at contained ⊢
    have each : ∀ mask ∈ [HttpMethod.get, .post, .put, .delete, .patch, .head,
          .options, .trace, .connect],
        ∀ other ∈ [HttpMethod.get, .post, .put, .delete, .patch, .head, .options, .trace, .connect],
        other = mask ∨ mask.bits &&& other.bits = 0 := by
      decide
    rcases each mask standard other (Method.member_standard found) with
      rfl | apart
    · exact Or.inr rfl
    · left
      have cut : (set.standard.bits ||| mask.bits) &&& other.bits =
          set.standard.bits &&& other.bits ||| mask.bits &&& other.bits := by
        apply UInt16.toBitVec_inj.mp
        ext i
        simp [Bool.and_or_distrib_right]
      rw [apart, UInt16.or_zero] at cut
      rw [← cut]
      exact contained

variable {lib : Regexes}

def HttpRoute.widest (route : HttpRoute lib) : HttpMethodSet :=
  if route.corsPolicy.isSome && !route.methods.isEmpty then
    route.methods.addStandard HttpMethod.options
  else
    registered route.methods

def Narrow (route : HttpRoute lib) (methods : HttpMethodSet) : Prop := Within methods route.widest

theorem narrow_shrinks : Shrinks (@Narrow lib) := by
  intro route methods other within
  exact within.without other

theorem isEmpty_addStandard_options (set : HttpMethodSet) :
    (set.addStandard HttpMethod.options).isEmpty = false := by
  by_contra empty
  have noBits : set.standard.bits ||| HttpMethod.options.bits = 0 := by
    simp only [HttpMethodSet.isEmpty, HttpMethodSet.addStandard,
      HttpMethod.isEmpty, Bool.not_eq_false, Bool.and_eq_true] at empty
    simpa using empty.2
  have bit := (UInt16.or_eq_zero_iff.mp noBits).2
  exact absurd bit (by decide)

namespace AppContext

theorem narrow_preflightMethods (route : RoutesConfig) (rewrite : Option (RewriteEngine lib))
    (optionsRouted : List (Bytes × Bytes)) :
    Narrow (compileRoute route rewrite) (registered (preflightMethods route optionsRouted).1) := by
  rw [Narrow, HttpRoute.widest, preflightMethods]
  change Within _ (if route.cors.isSome && !route.methods.isEmpty then
    route.methods.addStandard HttpMethod.options else registered route.methods)
  by_cases widened : (route.cors.isSome && !route.methods.isEmpty) = true
  · rw [if_pos widened, if_pos widened]
    have listed : route.methods.isEmpty = false := by simp_all
    dsimp only
    split
    · rw [registered, isEmpty_addStandard_options]
      exact Within.refl _
    · rw [registered, listed]
      exact Within.addStandard _ _
  · rw [if_neg widened, if_neg widened]
    exact Within.refl _

theorem addRoutes_keeps (routes : List RoutesConfig) :
    ∀ {router final : Router (HttpRoute lib)}
      {optionsRouted : List (Bytes × Bytes)},
      Keeps Narrow router →
      addRoutes router optionsRouted routes = .ok final → Keeps Narrow final := by
  induction routes with
  | nil =>
    intro router final optionsRouted keeps built
    rw [← Outcome.ok.inj built]
    exact keeps
  | cons route routes ih =>
    intro router final optionsRouted keeps built
    rw [addRoutes, Outcome.bind_eq_ok_iff] at built
    obtain ⟨rewrite, -, built⟩ := built
    have next := keeps.addRoute narrow_shrinks route.path route.hosts
      (narrow_preflightMethods route rewrite optionsRouted)
    dsimp only at built
    split at built
    · exact ih next built
    · cases built
    · cases built

/-- Every entry of a built router stays within the widest set of its route. -/
theorem build_keeps {routes : List RoutesConfig}
    {router : Router (HttpRoute lib)} (built : build lib routes = .ok router) :
    Keeps Narrow router :=
  addRoutes_keeps routes keeps_new built

end AppContext

end Ophan.Gateway
