import Mathlib.Data.List.Infix
import Ophan.Gateway.Context
import Ophan.Glob.Set
import Ophan.Limiter.Config

/-!
# Limiter policies of the configuration

A limiter block is built by one function of the source and merged, as the
overrides of a route, by another.  Both read the same strategy and identifier
texts.  What a rejection says is kept as its parts; `text` puts them together.
-/

namespace Ophan.Config

open Lib (Str)
open Lib.Str (utf8 trim)
open Gateway (LimiterIdentifier)
open Glob (GlobError GlobPattern PathMatcherSet)
open Limiter (RateLimitAlgorithm)

abbrev LimiterRate := UInt64 × Nat

/-- `LimiterRate::default` -/
def defaultRate : LimiterRate := (60, 60 * 10 ^ 9)

structure RawLimiterConfig where
  rate : Option LimiterRate
  burst : Option UInt64
  identifier : Option Str
  strategy : Option Str
  excludePaths : List Str
  deriving DecidableEq, Repr

/-- The built policy without its scope, the namespace of its counters. -/
structure LimiterPolicy where
  rate : LimiterRate
  burst : UInt64
  algorithm : RateLimitAlgorithm
  identifier : LimiterIdentifier
  skipPatterns : Option PathMatcherSet
  deriving DecidableEq, Repr

inductive IdentifierError where
  | emptyHeaderName
  | emptyClaimPath
  | unknown (value : Str)
  deriving DecidableEq, Repr

inductive LimiterRejection where
  | algorithm (value : Str)
  | identifier (error : IdentifierError)
  | excludePath (context : String) (pattern : Str) (error : GlobError)
  deriving DecidableEq, Repr

inductive PolicyError where
  | rejected (rejection : LimiterRejection)
  | notFound (name : Str)
  | isOff
  deriving DecidableEq, Repr

def IdentifierError.text : IdentifierError → String
  | .emptyHeaderName => "Header name cannot be empty after 'header:' prefix"
  | .emptyClaimPath => "Token claim path cannot be empty after 'token:' prefix"
  | .unknown value => "invalid identifier '" ++ String.ofList value ++
      "', expected 'ip', 'header', 'header:<name>', 'token', or 'token:<claim>'"

def LimiterRejection.text : LimiterRejection → String
  | .algorithm value => "invalid rate limit algorithm '" ++ String.ofList value ++
      "', expected one of: sliding_window, token_bucket"
  | .identifier error => error.text
  | .excludePath context pattern error => context ++ ": invalid exclude_paths pattern '" ++
      String.ofList pattern ++ "': " ++ error.asStr

def PolicyError.text : PolicyError → String
  | .rejected rejection => rejection.text
  | .notFound name => "limiter policy '" ++ String.ofList name ++ "' not found"
  | .isOff => "limiter is off"

/-! ## The texts of a block -/

def toAsciiLowercase (text : Str) : Str := text.map Char.toLower

def eqIgnoreAsciiCase (text other : Str) : Bool := toAsciiLowercase text = toAsciiLowercase other

/-- `str::strip_prefix` -/
def stripFront (front text : Str) : Option Str :=
  if front <+: text then some (text.drop front.length) else none

/-- `RateLimitAlgorithm::from_str` -/
def algorithmFromStr (value : Str) : Except LimiterRejection RateLimitAlgorithm :=
  if value = "sliding_window".toList ∨ value = "sliding-window".toList then .ok .slidingWindow
  else if value = "token_bucket".toList ∨ value = "token-bucket".toList then .ok .tokenBucket
  else .error (.algorithm value)

/-- `LimiterIdentifier::from_str` -/
def identifierFromStr (s : Str) : Except LimiterRejection LimiterIdentifier :=
  let trimmed := trim s
  if eqIgnoreAsciiCase trimmed "ip".toList then .ok .ip
  else if eqIgnoreAsciiCase trimmed "header".toList then .ok (.header "authorization".toList)
  else
    match stripFront "header:".toList trimmed with
    | some headerName =>
      let name := trim headerName
      if name = [] then .error (.identifier .emptyHeaderName)
      else .ok (.header (toAsciiLowercase name))
    | none =>
      if eqIgnoreAsciiCase trimmed "token".toList then .ok (.token "sub".toList)
      else
        match stripFront "token:".toList trimmed with
        | some tokenPath =>
          let path := trim tokenPath
          if path = [] then .error (.identifier .emptyClaimPath) else .ok (.token path)
        | none => .error (.identifier (.unknown s))

def compilePatterns (context : String) : List Str → Except LimiterRejection (List GlobPattern)
  | [] => .ok []
  | pattern :: rest =>
    match GlobPattern.compile (utf8 pattern) with
    | .error error => .error (.excludePath context pattern error)
    | .ok compiled =>
      match compilePatterns context rest with
      | .error error => .error error
      | .ok others => .ok (compiled :: others)

def compileExcludePatterns (patterns : List Str) (context : String) :
    Except LimiterRejection PathMatcherSet :=
  (compilePatterns context patterns).map PathMatcherSet.fromPatterns

/-! ## Building a block and merging overrides -/

def readField {α β : Type} (read : α → Except LimiterRejection β) (initial : β) :
    Option α → Except LimiterRejection β
  | none => .ok initial
  | some value => read value

/-- The excludes of a block; an empty list leaves what was there. -/
def readExcludes (context : String) (initial : Option PathMatcherSet) (excludePaths : List Str) :
    Except LimiterRejection (Option PathMatcherSet) :=
  if excludePaths = [] then .ok initial
  else (compileExcludePatterns excludePaths context).map some

def buildLimiterFromRaw (raw : RawLimiterConfig) : Except LimiterRejection LimiterPolicy := do
  let algorithm ← readField algorithmFromStr .slidingWindow raw.strategy
  let identifier ← readField identifierFromStr .ip raw.identifier
  let skipPatterns ← readExcludes "limiter" none raw.excludePaths
  return {
    rate := raw.rate.getD defaultRate
    burst := raw.burst.getD 15
    algorithm := algorithm
    identifier := identifier
    skipPatterns := skipPatterns }

/-- `RateLimitAlgorithm::try_from(v).unwrap_or_default()` -/
def mergedAlgorithm (value : Str) : RateLimitAlgorithm :=
  match algorithmFromStr value with
  | .ok algorithm => algorithm
  | .error _ => .slidingWindow

def mergedIdentifier (value : Str) : LimiterIdentifier :=
  if value = "ip".toList then .ip else .header value

def mergeLimiterOverride (cfg : LimiterPolicy) (overrides : RawLimiterConfig) :
    Except LimiterRejection LimiterPolicy := do
  let skipPatterns ← readExcludes "limiter override" cfg.skipPatterns overrides.excludePaths
  return {
    rate := overrides.rate.getD cfg.rate
    burst := overrides.burst.getD cfg.burst
    algorithm := (overrides.strategy.map mergedAlgorithm).getD cfg.algorithm
    identifier := (overrides.identifier.map mergedIdentifier).getD cfg.identifier
    skipPatterns := skipPatterns }

inductive RawRouteAction (config : Type) where
  | ref (name : Str)
  | extends (base : Str) (overrides : config)
  | inline (config : config)
  | off
  deriving Repr

def resolveLimiter (scope : KeyMap Str LimiterPolicy) :
    RawRouteAction RawLimiterConfig → Except PolicyError LimiterPolicy
  | .ref name =>
    match scope.lookup name with
    | some cfg => .ok cfg
    | none => .error (.notFound name)
  | .extends base overrides =>
    match scope.lookup base with
    | some cfg => (mergeLimiterOverride cfg overrides).mapError .rejected
    | none => .error (.notFound base)
  | .inline config => (buildLimiterFromRaw config).mapError .rejected
  | .off => .error .isOff

/-- The policies of a gateway that are built; the others are reported. -/
def buildLimiterMap : List (Str × RawLimiterConfig) → KeyMap Str LimiterPolicy →
    KeyMap Str LimiterPolicy
  | [], map => map
  | (name, config) :: rest, map =>
    match buildLimiterFromRaw config with
    | .ok cfg => buildLimiterMap rest (map.insert name cfg)
    | .error _ => buildLimiterMap rest map

/-! ## Overriding the fields of a block -/

/-- The block in which every field that the overrides set replaces the field of
the base. -/
def RawLimiterConfig.overlay (base overrides : RawLimiterConfig) : RawLimiterConfig where
  rate := overrides.rate <|> base.rate
  burst := overrides.burst <|> base.burst
  identifier := overrides.identifier <|> base.identifier
  strategy := overrides.strategy <|> base.strategy
  excludePaths := if overrides.excludePaths = [] then base.excludePaths else overrides.excludePaths

/-- Overrides that both functions read alike. -/
structure RawLimiterConfig.Plain (overrides : RawLimiterConfig) : Prop where
  strategy : ∀ value ∈ overrides.strategy, (algorithmFromStr value).isOk
  identifier : ∀ value ∈ overrides.identifier, value = "ip".toList
  excludePaths : ∀ pattern ∈ overrides.excludePaths, (GlobPattern.compile (utf8 pattern)).isOk

theorem length_trim_le (text : Str) : (trim text).length ≤ text.length := by
  unfold trim
  have front := (List.dropWhile_sublist (l := text) Lib.Str.isWhitespace).length_le
  have back := (List.dropWhile_sublist (l := (text.dropWhile Lib.Str.isWhitespace).reverse)
    Lib.Str.isWhitespace).length_le
  grind

theorem length_of_stripFront {front text rest : Str}
    (stripped : stripFront front text = some rest) :
    text.length = front.length + rest.length := by
  unfold stripFront at stripped
  split at stripped
  case isTrue begins =>
    cases stripped
    have shorter := begins.length_le
    simp only [List.length_drop]
    omega
  case isFalse => cases stripped

/-- What an identifier can be read as.  The name of a header is never the whole
text, which is what the overrides make it. -/
theorem identifierFromStr_cases (s : Str) :
    identifierFromStr s = .ok .ip ∨ (∃ claim, identifierFromStr s = .ok (.token claim)) ∨
      (∃ name, identifierFromStr s = .ok (.header name) ∧ name ≠ s) ∨
      ∃ error, identifierFromStr s = .error (.identifier error) := by
  fun_cases identifierFromStr s
  case case1 => exact .inl rfl
  case case2 named =>
    refine .inr (.inr (.inl ⟨_, rfl, ?_⟩))
    rintro rfl
    exact absurd named (by decide)
  case case4 headerName stripped name _ =>
    refine .inr (.inr (.inl ⟨_, rfl, fun same => ?_⟩))
    have long := length_of_stripFront stripped
    have lengths := congrArg List.length same
    have inner := length_trim_le headerName
    have outer := length_trim_le s
    simp only [name, toAsciiLowercase, List.length_map] at lengths
    change (trim s).length = 7 + headerName.length at long
    omega
  case case5 | case7 => exact .inr (.inl ⟨_, rfl⟩)
  all_goals exact .inr (.inr (.inr ⟨_, rfl⟩))

theorem identifierFromStr_eq_merged_iff (value : Str) :
    identifierFromStr value = .ok (mergedIdentifier value) ↔ value = "ip".toList := by
  constructor
  · intro same
    by_contra different
    rw [mergedIdentifier, if_neg different] at same
    rcases identifierFromStr_cases value with
      read | ⟨_, read⟩ | ⟨name, read, shorter⟩ | ⟨_, read⟩ <;>
      rw [same] at read
    all_goals cases read
    exact shorter rfl
  · rintro rfl
    decide

theorem algorithmFromStr_eq_merged_iff (value : Str) :
    algorithmFromStr value = .ok (mergedAlgorithm value) ↔ (algorithmFromStr value).isOk := by
  unfold mergedAlgorithm
  cases algorithmFromStr value <;> simp [Except.isOk, Except.toBool]

theorem compilePatterns_cases (patterns : List Str) :
    ((∀ pattern ∈ patterns, (GlobPattern.compile (utf8 pattern)).isOk) ∧
        ∃ compiled, ∀ context, compilePatterns context patterns = .ok compiled) ∨
      ((¬ ∀ pattern ∈ patterns, (GlobPattern.compile (utf8 pattern)).isOk) ∧
        ∃ pattern error, ∀ context,
          compilePatterns context patterns = .error (.excludePath context pattern error)) := by
  induction patterns with
  | nil => exact .inl ⟨by simp, [], fun _ => rfl⟩
  | cons pattern rest ih =>
    simp only [List.forall_mem_cons, compilePatterns]
    cases GlobPattern.compile (utf8 pattern) with
    | error error => exact .inr ⟨(fun both => nomatch both.1), pattern, error, fun _ => rfl⟩
    | ok head =>
      rcases ih with ⟨valid, compiled, success⟩ | ⟨invalid, bad, error, failure⟩
      · exact .inl ⟨⟨rfl, valid⟩, head :: compiled, fun context => by rw [success]⟩
      · exact .inr ⟨fun both => invalid both.2, bad, error, fun context => by rw [failure]⟩

/-- The excludes are read alike in every context, or not at all; what a rejection says
begins with the context. -/
theorem readExcludes_cases (patterns : List Str) :
    ((∀ pattern ∈ patterns, (GlobPattern.compile (utf8 pattern)).isOk) ∧ ∃ set,
        ∀ context initial, readExcludes context initial patterns =
          .ok (if patterns = [] then initial else set)) ∨
      ((¬ ∀ pattern ∈ patterns, (GlobPattern.compile (utf8 pattern)).isOk) ∧
        ∃ pattern error, ∀ context initial,
          readExcludes context initial patterns = .error (.excludePath context pattern error)) := by
  unfold readExcludes compileExcludePatterns
  rcases compilePatterns_cases patterns with
    ⟨valid, compiled, success⟩ | ⟨invalid, bad, error, failure⟩
  · refine .inl ⟨valid, some (.fromPatterns compiled), fun context initial => ?_⟩
    rw [success]
    split <;> rfl
  · refine .inr ⟨invalid, bad, error, fun context initial => ?_⟩
    rw [failure, if_neg (by rintro rfl; exact invalid (List.forall_mem_nil _))]
    rfl

theorem readField_overlay_iff {α β : Type} {read : α → Except LimiterRejection β}
    {initial value : β} {base : Option α} (built : readField read initial base = .ok value)
    (override : Option α) (merged : α → β) :
    readField read initial (override <|> base) = .ok ((override.map merged).getD value) ↔
      ∀ text ∈ override, read text = .ok (merged text) := by
  cases override with
  | none => simpa using built
  | some text => simp [readField]

theorem buildLimiterFromRaw_eq_ok_iff (raw : RawLimiterConfig) (cfg : LimiterPolicy) :
    buildLimiterFromRaw raw = .ok cfg ↔
      readField algorithmFromStr .slidingWindow raw.strategy = .ok cfg.algorithm ∧
        readField identifierFromStr .ip raw.identifier = .ok cfg.identifier ∧
        readExcludes "limiter" none raw.excludePaths = .ok cfg.skipPatterns ∧
        raw.rate.getD defaultRate = cfg.rate ∧ raw.burst.getD 15 = cfg.burst := by
  unfold buildLimiterFromRaw
  cases readField algorithmFromStr .slidingWindow raw.strategy with
  | error _ => simp [bind, Except.bind]
  | ok algorithm =>
    cases readField identifierFromStr .ip raw.identifier with
    | error _ => simp [bind, Except.bind]
    | ok identifier =>
      cases readExcludes "limiter" none raw.excludePaths with
      | error _ => simp [bind, Except.bind]
      | ok skipPatterns =>
        rcases cfg with ⟨rate, burst, algorithm', identifier', skipPatterns'⟩
        simp only [bind, Except.bind, pure, Except.pure, Except.ok.injEq, LimiterPolicy.mk.injEq]
        tauto

theorem readField_ne_error {α β : Type} {read : α → Except LimiterRejection β}
    {rejection : LimiterRejection} (never : ∀ value, read value ≠ .error rejection) (initial : β)
    (field : Option α) : readField read initial field ≠ .error rejection := by
  cases field with
  | none => nofun
  | some value => exact never value

/-- A block that is built never speaks of the overrides. -/
theorem buildLimiterFromRaw_ne_override (raw : RawLimiterConfig) (pattern : Str)
    (error : GlobError) :
    buildLimiterFromRaw raw ≠ .error (.excludePath "limiter override" pattern error) := by
  have algorithm (value : Str) :
      algorithmFromStr value ≠ .error (.excludePath "limiter override" pattern error) := by
    unfold algorithmFromStr
    split_ifs <;> nofun
  have identifier (value : Str) :
      identifierFromStr value ≠ .error (.excludePath "limiter override" pattern error) := by
    rcases identifierFromStr_cases value with read | ⟨_, read⟩ | ⟨_, read, _⟩ | ⟨_, read⟩ <;>
      simp [read]
  have algorithms := readField_ne_error algorithm .slidingWindow raw.strategy
  have identifiers := readField_ne_error identifier .ip raw.identifier
  unfold buildLimiterFromRaw
  rcases readExcludes_cases raw.excludePaths with ⟨-, _, read⟩ | ⟨-, _, _, read⟩ <;>
    cases algorithmRead : readField algorithmFromStr .slidingWindow raw.strategy <;>
    cases identifierRead : readField identifierFromStr .ip raw.identifier <;>
    simp_all [bind, Except.bind, pure, Except.pure]

theorem merge_eq_build_overlay_iff {base : RawLimiterConfig} {cfg : LimiterPolicy}
    (built : buildLimiterFromRaw base = .ok cfg) (overrides : RawLimiterConfig) :
    mergeLimiterOverride cfg overrides = buildLimiterFromRaw (base.overlay overrides) ↔
      overrides.Plain := by
  unfold mergeLimiterOverride
  rcases readExcludes_cases overrides.excludePaths with
    ⟨valid, set, read⟩ | ⟨invalid, pattern, error, read⟩
  case inr =>
    rw [read]
    constructor
    · intro same
      exact absurd same.symm (buildLimiterFromRaw_ne_override _ pattern error)
    · intro plain
      exact absurd plain.excludePaths invalid
  case inl =>
    obtain ⟨algorithm, identifier, excludes, rate, burst⟩ :=
      (buildLimiterFromRaw_eq_ok_iff base cfg).mp built
    have rates : (base.overlay overrides).rate.getD defaultRate = overrides.rate.getD cfg.rate := by
      unfold RawLimiterConfig.overlay
      cases overrides.rate <;> simp [rate]
    have bursts : (base.overlay overrides).burst.getD 15 = overrides.burst.getD cfg.burst := by
      unfold RawLimiterConfig.overlay
      cases overrides.burst <;> simp [burst]
    have excluded : readExcludes "limiter" none (base.overlay overrides).excludePaths =
        .ok (if overrides.excludePaths = [] then cfg.skipPatterns else set) := by
      unfold RawLimiterConfig.overlay
      split_ifs with empty
      · exact excludes
      · simp [read, empty]
    rw [read]
    change Except.ok _ = _ ↔ _
    rw [eq_comm, buildLimiterFromRaw_eq_ok_iff]
    simp only [rates, bursts, excluded, and_true]
    rw [RawLimiterConfig.overlay, readField_overlay_iff algorithm, readField_overlay_iff identifier]
    simp only [algorithmFromStr_eq_merged_iff, identifierFromStr_eq_merged_iff]
    constructor
    · rintro ⟨strategies, identifiers⟩
      exact ⟨strategies, identifiers, valid⟩
    · intro plain
      exact ⟨plain.strategy, plain.identifier⟩

/-- In every scope that holds the policy built from a block, extending it by
overrides gives what the overlaid block gives, exactly when the block is accepted
and the overrides name a known strategy, no identifier but `ip`, and patterns that
compile. -/
theorem extends_eq_overlay_iff {scope : KeyMap Str LimiterPolicy} {name : Str}
    {base : RawLimiterConfig} (registered : scope.lookup name = (buildLimiterFromRaw base).toOption)
    (overrides : RawLimiterConfig) :
    resolveLimiter scope (.extends name overrides) =
        resolveLimiter scope (.inline (base.overlay overrides)) ↔
      (buildLimiterFromRaw base).isOk ∧ overrides.Plain := by
  simp only [resolveLimiter, registered]
  cases built : buildLimiterFromRaw base with
  | error rejection =>
    cases buildLimiterFromRaw (base.overlay overrides) <;>
      simp [Except.mapError, Except.toOption, Except.isOk, Except.toBool]
  | ok cfg =>
    rw [← merge_eq_build_overlay_iff built]
    simp only [Except.toOption, Except.isOk, Except.toBool, true_and]
    cases mergeLimiterOverride cfg overrides <;>
      cases buildLimiterFromRaw (base.overlay overrides) <;> simp [Except.mapError]

def emptyBlock : RawLimiterConfig := ⟨none, none, none, none, []⟩

theorem extends_eq_overlay_iff_burst :
    resolveLimiter (buildLimiterMap [("api".toList, emptyBlock)] ∅)
        (.extends "api".toList { emptyBlock with burst := some 3 }) =
      resolveLimiter (buildLimiterMap [("api".toList, emptyBlock)] ∅)
        (.inline (emptyBlock.overlay { emptyBlock with burst := some 3 })) :=
  (extends_eq_overlay_iff rfl _).mpr ⟨rfl, nofun, nofun, nofun⟩

/-- The same identifier text names a header in the overrides, and a claim of the
token in a block. -/
theorem token_identifier_becomes_header :
    (resolveLimiter (buildLimiterMap [("api".toList, emptyBlock)] ∅)
        (.extends "api".toList
          { emptyBlock with identifier := some "token:sub".toList })).toOption.map
            LimiterPolicy.identifier = some (.header "token:sub".toList) ∧
      (resolveLimiter (buildLimiterMap [("api".toList, emptyBlock)] ∅)
        (.inline (emptyBlock.overlay
          { emptyBlock with identifier := some "token:sub".toList }))).toOption.map
          LimiterPolicy.identifier = some (.token "sub".toList) := by
  decide

/-! ## Scopes -/

/-- The part of a route that its limiter reads, and the gateway of the route. -/
structure LimitedRoute where
  gateway : Str
  hosts : List Str
  methods : List Str
  path : Str
  action : RawRouteAction RawLimiterConfig

/-- The fields of a policy that its scope shows. -/
def LimiterPolicy.shown (cfg : LimiterPolicy) :
    LimiterRate × UInt64 × RateLimitAlgorithm × LimiterIdentifier :=
  (cfg.rate, cfg.burst, cfg.algorithm, cfg.identifier)

namespace LimitedRoute

def identity (route : LimitedRoute) : Str :=
  if route.hosts = [] ∧ route.methods = [] then route.path
  else
    [','].intercalate route.hosts ++ '|' :: ['|'].intercalate route.methods ++ '|' :: route.path

/-- The text for a limiter that is given inline or extends a policy. -/
def origin (route : LimitedRoute) : Option Str :=
  match route.action with
  | .extends _ _ => some ("route:".toList ++ route.identity ++ ":extends".toList)
  | .inline _ => some ("route:".toList ++ route.identity)
  | _ => none

/-- The separators of the identity do not occur in its parts, and the path can be told from
the methods before it. -/
structure Tidy (route : LimitedRoute) : Prop where
  hosts : ∀ host ∈ route.hosts, host ≠ [] ∧ ',' ∉ host ∧ '|' ∉ host ∧ '/' ∉ host
  methods : ∀ method ∈ route.methods, method ≠ [] ∧ '|' ∉ method ∧ '/' ∉ method
  path : ∃ rest, route.path = '/' :: rest

theorem Tidy.append {route : LimitedRoute} (tidy : route.Tidy) (text : Str) :
    ({ route with path := route.path ++ text } : LimitedRoute).Tidy where
  hosts := tidy.hosts
  methods := tidy.methods
  path := by
    obtain ⟨rest, isPath⟩ := tidy.path
    exact ⟨rest ++ text, by rw [isPath, List.cons_append]⟩

end LimitedRoute

end Ophan.Config
