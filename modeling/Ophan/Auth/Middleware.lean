import Ophan.Auth.Tokens

/-!
# Authentication of a request

A request is accepted by its access token, or by the tokens that the identity
provider issues for its refresh token.  The proof of possession is checked for the
access token.
-/

namespace Ophan.Auth

open Http

section Errors

inductive AuthError where
  | transport
  | serialization
  | invalidToken (kind : TokenErrorKind)
  | keyNotFound (kid : Bytes)
  | invalidJwkComponents
  | missingToken
  | unsupportedAlgorithm (alg : Algorithm)
  | clientNotConfigured
  | refreshFlowDisabled
  /-- Too many token refreshes are in flight. -/
  | refreshBusy
  | providerStatus
  | invalidDiscovery
  | dpop (error : DpopError)
  /-- An error produced by an operation shared between concurrent callers. -/
  | shared (error : AuthError)
  deriving DecidableEq, Repr

namespace AuthError

/-- Returns the original error behind `shared`, or `self`. -/
def resolve : AuthError → AuthError
  | .shared error => error.resolve
  | error => error

def isRefreshable (error : AuthError) : Bool :=
  match error.resolve with
  | .invalidToken .expiredSignature => true
  | .invalidToken .invalidSignature => true
  | .missingToken => true
  | _ => false

def statusCode (error : AuthError) : Nat :=
  match error.resolve with
  | .invalidToken _ | .missingToken | .keyNotFound _ => 401
  | .dpop .replayCacheFull => 503
  | .dpop _ => 401
  | .clientNotConfigured => 404
  | .refreshFlowDisabled => 403
  | .refreshBusy => 503
  | .providerStatus | .invalidDiscovery => 502
  | _ => 500

/-- `log_and_explain` -/
def explain (error : AuthError) : String :=
  match error.resolve with
  | .missingToken => "missing authentication token"
  | .invalidToken .expiredSignature => "expired authentication token"
  | .invalidToken _ => "invalid authentication token"
  | .dpop .required => "DPoP proof is required"
  | .dpop .thumbprintMismatch | .dpop .athMismatch => "DPoP proof does not match token"
  | .dpop .htmMismatch | .dpop .htuMismatch => "DPoP proof does not match request"
  | .dpop .nonceMismatch => "DPoP nonce mismatch — possible replay attack"
  | .dpop .invalidFormat | .dpop .invalidType => "invalid DPoP proof format"
  | .dpop .boundTokenAsBearer => "DPoP-bound token requires the DPoP scheme"
  | .dpop .replayed => "DPoP proof was already used"
  | .dpop .replayCacheFull => "DPoP proof cannot be verified right now"
  | .refreshBusy => "token refresh temporarily unavailable"
  | .invalidDiscovery => "identity provider misconfigured"
  | .keyNotFound _ => "signing key not found"
  | .refreshFlowDisabled => "token refresh is not allowed for this client"
  | _ => "internal security processing failure"

def ofProof : ProofError → AuthError
  | .token kind => .invalidToken kind
  | .dpop error => .dpop error

end AuthError

structure GatewayError where
  status : Nat
  message : Option String
  deriving DecidableEq, Repr

def authErrorToGateway (error : AuthError) : GatewayError := ⟨error.statusCode, some error.explain⟩

def refreshErrorToGateway (error : AuthError) : GatewayError :=
  match error.resolve with
  | .transport | .providerStatus => ⟨502, none⟩
  | .serialization | .invalidDiscovery => ⟨502, some "invalid response from identity provider"⟩
  | .refreshBusy => ⟨503, some "token refresh temporarily unavailable"⟩
  | _ => ⟨401, none⟩

end Errors

structure TokenResponse where
  accessToken : Bytes
  expiresIn : Nat
  refreshToken : Option Bytes
  refreshExpiresIn : Option Nat
  idToken : Option Bytes
  deriving DecidableEq, Repr

structure RefreshedTokens where
  accessToken : Bytes
  refreshToken : Option Bytes
  expiresIn : Option Nat
  refreshExpiresIn : Option Nat
  deriving DecidableEq, Repr

structure World (Jwk : Type) where
  crypto : Crypto Jwk
  /-- `validate_token` with the configured audiences, or with a client as the only one. -/
  validateToken : Bytes → Option Bytes → Except AuthError Claims
  /-- `decode_header` accepts the token. -/
  isJwt : Bytes → Bool
  /-- The response of the provider for a refresh token, kept or fetched. -/
  exchange : Bytes → Option Bytes → Except AuthError TokenResponse
  now : Nat
  /-- `ReplayCache::insert` -/
  record : ProofId → Except DpopError Unit

structure Validation where
  proof : Bytes
  accessToken : Bytes
  cnf : CnfClaim
  ctx : DpopRequestContext
  deriving DecidableEq, Repr

/-- Successful authentication result, with the proof that was validated on the way. -/
structure Authentication where
  claims : Claims
  refresh : Option RefreshedTokens
  validated : Option Validation

section Service

variable {Jwk : Type} (world : World Jwk)

/-- `DpopValidator::validate` -/
def validateProof (proof accessToken : Bytes) (cnf : CnfClaim) (ctx : DpopRequestContext) :
    Except AuthError Unit :=
  match openProof world.crypto proof with
  | .error error => .error (.ofProof error)
  | .ok (jwk, claims) =>
    match checkProof world.crypto jwk claims accessToken cnf ctx world.now with
    | .error error => .error (.ofProof error)
    | .ok id =>
      match world.record id with
      | .error error => .error (.dpop error)
      | .ok () => .ok ()

/-- What the policy refuses before the token is looked at. -/
def policyError (policy : DpopPolicy) (ttype : TokenType) (dpopProof : Option Bytes) :
    Option DpopError :=
  match policy with
  | .auto => if ttype = .dpop ∧ dpopProof = none then some .proofRequired else none
  | .required =>
    if ttype ≠ .dpop then some .required
    else if dpopProof = none then some .proofRequired
    else none
  | .disabled => if ttype = .dpop then some .disabled else none

def authenticate (policy : DpopPolicy) (token : Bytes) (ttype : TokenType)
    (ctx : DpopRequestContext) : Except AuthError (Claims × Option Validation) :=
  match policyError policy ttype ctx.dpopProof with
  | some error => .error (.dpop error)
  | none =>
    match world.validateToken token none with
    | .error error => .error error
    | .ok claims =>
      match ttype with
      | .dpop =>
        match ctx.dpopProof with
        | none => .error (.dpop .proofRequired)
        | some proof =>
          match claims.cnf with
          | none => .error (.dpop .bindingMissing)
          | some cnf =>
            match validateProof world proof token cnf ctx with
            | .error error => .error error
            | .ok () => .ok (claims, some ⟨proof, token, cnf, ctx⟩)
      | .bearer =>
        if claims.cnf.isSome then .error (.dpop .boundTokenAsBearer)
        else .ok (claims, none)

def validateRefreshed (clientId : Bytes) (response : TokenResponse) : Except AuthError Claims :=
  if world.isJwt response.accessToken then world.validateToken response.accessToken none
  else
    match response.idToken with
    | none => .error (.invalidToken .other)
    | some idToken => world.validateToken idToken (some clientId)

/-- The claims of the tokens that a refresh token is exchanged for. -/
def refreshClaims (oauthClient : Option OAuthClientConfig) (refreshToken : Bytes)
    (dpopProof : Option Bytes) : Except AuthError (Claims × TokenResponse) :=
  match oauthClient with
  | none => .error .clientNotConfigured
  | some client =>
    if client.refreshFlowEnabled = false then .error .refreshFlowDisabled
    else
      match world.exchange refreshToken dpopProof with
      | .error error => .error (.shared error)
      | .ok response =>
        match validateRefreshed world client.clientId response with
        | .error error => .error error
        | .ok claims => .ok (claims, response)

/-- A lifetime of zero seconds is none. -/
def lifetime (seconds : Nat) : Option Nat := if 0 < seconds then some seconds else none

def refreshSession (config : AuthConfig) (refreshToken : Bytes)
    (dpopProof : Option Bytes) : Except GatewayError Authentication :=
  match refreshClaims world config.oauthClient refreshToken dpopProof with
  | .error error => .error (refreshErrorToGateway error)
  | .ok (claims, response) =>
    .ok
      { claims
        refresh := some
          { accessToken := response.accessToken
            refreshToken := response.refreshToken
            expiresIn := lifetime response.expiresIn
            refreshExpiresIn := response.refreshExpiresIn.bind lifetime }
        validated := none }

def requestContext (request : AuthRequest) (scheme : Bytes)
    (dpopProof : Option Bytes) : DpopRequestContext where
  method := request.parts.method.name
  scheme := scheme
  authority := requestAuthority request
  path := request.parts.path
  nonce := none
  dpopProof := dpopProof

def authenticateRequest (config : AuthConfig) (request : AuthRequest) (scheme : Bytes) :
    Except GatewayError Authentication :=
  let tokens := extractRequestTokens request.parts config
  match tokens.accessToken with
  | none =>
    match tokens.refreshToken with
    | some refresh => refreshSession world config refresh tokens.dpopProof
    | none => .error ⟨401, none⟩
  | some accessToken =>
    match authenticate world config.dpopPolicy accessToken tokens.accessTokenType
        (requestContext request scheme tokens.dpopProof) with
    | .ok (claims, validated) => .ok { claims, refresh := none, validated }
    | .error error =>
      if error.isRefreshable then
        match tokens.refreshToken with
        | some refresh => refreshSession world config refresh tokens.dpopProof
        | none => .error (authErrorToGateway error)
      else .error (authErrorToGateway error)

end Service

/-! ## Which requests are accepted without a proof -/

section Enforcement

variable {Jwk : Type} {world : World Jwk}

/-- A proof on the request was validated against the binding of the claims, for the
method and URI of the request and its access token. -/
def ProofValidated (world : World Jwk) (config : AuthConfig) (request : AuthRequest)
    (scheme : Bytes) (auth : Authentication) : Prop :=
  let tokens := extractRequestTokens request.parts config
  let ctx := requestContext request scheme tokens.dpopProof
  ∃ proof accessToken cnf jwk claims,
    tokens.dpopProof = some proof ∧ tokens.accessToken = some accessToken ∧
      auth.claims.cnf = some cnf ∧ auth.validated = some ⟨proof, accessToken, cnf, ctx⟩ ∧
      openProof world.crypto proof = .ok (jwk, claims) ∧
      Checked world.crypto jwk claims accessToken cnf ctx world.now

theorem authenticate_bound {policy : DpopPolicy} {token : Bytes} {ttype : TokenType}
    {ctx : DpopRequestContext} {claims : Claims} {validated : Option Validation}
    (isOk : authenticate world policy token ttype ctx = .ok (claims, validated))
    (isBound : policy = .required ∨ claims.cnf.isSome = true) :
    ∃ proof cnf, ctx.dpopProof = some proof ∧ claims.cnf = some cnf ∧
      validated = some ⟨proof, token, cnf, ctx⟩ ∧
      validateProof world proof token cnf ctx = .ok () := by
  revert isOk
  fun_cases authenticate world policy token ttype ctx <;> intro isOk <;> cases isOk
  case case6 proof isProof cnf isValid _ _ isCnf => exact ⟨proof, cnf, isProof, isCnf, rfl, isValid⟩
  case case8 isAllowed _ notBound =>
    rcases isBound with rfl | isSome
    · cases isAllowed
    · exact absurd isSome notBound

/-- The access token is missing, or refused by an error that a refresh may mend. -/
def FallsBack (world : World Jwk) (config : AuthConfig) (request : AuthRequest)
    (scheme : Bytes) : Prop :=
  let tokens := extractRequestTokens request.parts config
  ∀ accessToken, tokens.accessToken = some accessToken →
    ∃ error, authenticate world config.dpopPolicy accessToken tokens.accessTokenType
        (requestContext request scheme tokens.dpopProof) = .error error ∧
      error.isRefreshable = true

theorem authenticateRequest_of_fallsBack {config : AuthConfig} {request : AuthRequest}
    {scheme refresh : Bytes} (fallsBack : FallsBack world config request scheme)
    (isRefresh : (extractRequestTokens request.parts config).refreshToken = some refresh) :
    authenticateRequest world config request scheme =
      refreshSession world config refresh
        (extractRequestTokens request.parts config).dpopProof := by
  rw [authenticateRequest]
  generalize isTokens : extractRequestTokens request.parts config = tokens at *
  cases isToken : tokens.accessToken with
  | none => simp only [isRefresh]
  | some accessToken =>
    obtain ⟨error, isError, refreshable⟩ := fallsBack accessToken (by rw [isTokens, isToken])
    simp_all

theorem authenticateRequest_eq_ok {config : AuthConfig} {request : AuthRequest}
    {scheme : Bytes} {auth : Authentication}
    (isOk : authenticateRequest world config request scheme = .ok auth) :
    (∃ accessToken,
        (extractRequestTokens request.parts config).accessToken = some accessToken ∧
        authenticate world config.dpopPolicy accessToken
            (extractRequestTokens request.parts config).accessTokenType
            (requestContext request scheme (extractRequestTokens request.parts config).dpopProof) =
          .ok (auth.claims, auth.validated)) ∨
      FallsBack world config request scheme ∧
        ∃ refresh, (extractRequestTokens request.parts config).refreshToken = some refresh ∧
          refreshSession world config refresh
            (extractRequestTokens request.parts config).dpopProof = .ok auth := by
  revert isOk
  fun_cases authenticateRequest world config request scheme <;> intro isOk
  case case1 isNone refresh isRefresh =>
    refine Or.inr ⟨fun accessToken isSome => ?_, refresh, isRefresh, isOk⟩
    cases isNone.symm.trans isSome
  case case3 accessToken isToken claims validated isAccepted =>
    cases isOk
    exact Or.inl ⟨accessToken, isToken, isAccepted⟩
  case case4 accessToken isToken error isRefused refreshable refresh isRefresh =>
    refine Or.inr ⟨fun other isSome => ?_, refresh, isRefresh, isOk⟩
    cases isToken.symm.trans isSome
    exact ⟨error, isRefused, refreshable⟩
  all_goals cases isOk

/-- A request that has to prove possession is accepted without a proof exactly when
its session is refreshed. -/
theorem possession_proved_iff (world : World Jwk) (config : AuthConfig) (request : AuthRequest)
    (scheme : Bytes) :
    (∀ auth, authenticateRequest world config request scheme = .ok auth →
        config.dpopPolicy = .required ∨ auth.claims.cnf.isSome = true →
          ProofValidated world config request scheme auth) ↔
      (FallsBack world config request scheme →
        ∀ refresh, (extractRequestTokens request.parts config).refreshToken = some refresh →
          ∀ claims response,
            refreshClaims world config.oauthClient refresh
                (extractRequestTokens request.parts config).dpopProof = .ok (claims, response) →
              config.dpopPolicy ≠ .required ∧ claims.cnf = none) := by
  constructor
  · intro enforced fallsBack refresh isRefresh claims response isRefreshed
    have isSession := authenticateRequest_of_fallsBack fallsBack isRefresh
    rw [refreshSession, isRefreshed] at isSession
    by_contra isBound
    have mustBind : config.dpopPolicy = .required ∨ claims.cnf.isSome = true := by
      rw [← Option.not_isSome_iff_eq_none] at isBound
      tauto
    obtain ⟨_, _, _, _, _, _, _, _, isValidated, _⟩ := enforced _ isSession mustBind
    cases isValidated
  · intro unbound auth isOk isBound
    rcases authenticateRequest_eq_ok isOk with
      ⟨accessToken, isToken, isAccepted⟩ | ⟨fallsBack, refresh, isRefresh, isSession⟩
    · obtain ⟨proof, cnf, isProof, isCnf, isValidated, isValid⟩ :=
        authenticate_bound isAccepted isBound
      rw [validateProof] at isValid
      split at isValid
      · cases isValid
      next jwk claims isOpen =>
        split at isValid
        · cases isValid
        next id isChecked =>
          exact ⟨proof, accessToken, cnf, jwk, claims, isProof, isToken, isCnf, isValidated,
            isOpen, (checkProof_eq_ok_iff.mp isChecked).1⟩
    · rw [refreshSession] at isSession
      split at isSession
      · cases isSession
      next claims response isRefreshed =>
        cases isSession
        obtain ⟨notRequired, isFree⟩ :=
          unbound fallsBack refresh isRefresh claims response isRefreshed
        rcases isBound with isRequired | isSome
        · exact absurd isRequired notRequired
        · simp [isFree] at isSome

/-- Nothing can be verified, and the provider issues a token that is bound to a key. -/
def issuingWorld : World Unit where
  crypto :=
    { decodeHeader := fun _ => .error .other
      decode := fun _ _ _ => .error .other
      thumbprint := fun _ => .error .other
      sha256 := id
      base64 := id }
  validateToken _ _ := .ok
    { sub := bytes "alice", exp := 2000, iat := 1000, nbf := none, iss := none, aud := none,
      jti := none, scope := none, cnf := some ⟨bytes "k"⟩, extraData := Json.Map.empty }
  isJwt _ := true
  exchange _ _ := .ok
    { accessToken := bytes "a", expiresIn := 60, refreshToken := none, refreshExpiresIn := none,
      idToken := none }
  now := 1000
  record _ := .ok ()

/-- A request with nothing but a refresh token is accepted where a proof is required. -/
theorem refresh_needs_no_proof :
    let config : AuthConfig :=
      { dpopPolicy := .required, oauthClient := some ⟨bytes "c", true⟩,
        sources := [.header (bytes "authorization") (some (bytes "DPoP "))],
        refreshSources := some (.cookie (bytes "refresh_token") none), dpopSource := none }
    let request : AuthRequest :=
      { parts :=
          { method := .get, path := bytes "/", query := none,
            headers := ⟨[(bytes "cookie", bytes "refresh_token=r")]⟩ },
        authority := none }
    (extractRequestTokens request.parts config).dpopProof = none ∧
      (authenticateRequest issuingWorld config request (bytes "https")).map
          (fun auth => (auth.claims.cnf, auth.validated)) =
        .ok (some ⟨bytes "k"⟩, none) := by
  decide +kernel

end Enforcement

end Ophan.Auth
