import Ophan.Auth.Dpop

/-!
# The tokens of a request

Where the access token, the refresh token and the proof of a request are looked for.
The type of an access token is the authentication scheme it was sent with.
-/

namespace Ophan.Auth

open Http Router

structure AuthRequest where
  parts : RequestParts
  authority : Option Bytes
  deriving DecidableEq, Repr

inductive TokenType where
  | bearer
  | dpop
  deriving DecidableEq, Repr

inductive TokenSource where
  | header (name : Bytes) (pfx : Option Bytes)
  | cookie (name : Bytes) (pfx : Option Bytes)
  | queryParam (name : Bytes) (pfx : Option Bytes)
  deriving DecidableEq, Repr

inductive DpopPolicy where
  /-- Accept Bearer and DPoP authorization schemes. -/
  | auto
  /-- Bearer authorization is rejected and a valid DPoP proof is required. -/
  | required
  /-- DPoP authorization is rejected. -/
  | disabled
  deriving DecidableEq, Repr

structure OAuthClientConfig where
  clientId : Bytes
  refreshFlowEnabled : Bool
  deriving DecidableEq, Repr

structure AuthConfig where
  dpopPolicy : DpopPolicy
  oauthClient : Option OAuthClientConfig
  /-- Locations used to search for access tokens. -/
  sources : List TokenSource
  refreshSources : Option TokenSource
  /-- When `none`, the `DPoP` header is used unless the DPoP policy is disabled. -/
  dpopSource : Option TokenSource
  deriving DecidableEq, Repr

structure RequestTokens where
  accessToken : Option Bytes
  accessTokenType : TokenType
  refreshToken : Option Bytes
  dpopProof : Option Bytes
  deriving DecidableEq, Repr

section Values

def toStr (value : Bytes) : Option Bytes :=
  if Net.Readable value then some value else none

/-- `split_once` at the first space or tab. -/
def splitBlank (text : Bytes) : Option (Bytes × Bytes) :=
  match text.dropWhile fun b => !Static.isWhitespace b with
  | [] => none
  | _ :: behind => some (text.takeWhile fun b => !Static.isWhitespace b, behind)

/-- Splits an `Authorization`-style value into scheme and credentials. -/
def splitAuthScheme (value : Bytes) : Option (Bytes × Bytes) :=
  (splitBlank (Static.trim value)).bind fun (scheme, credentials) =>
    if Static.trim credentials = [] then none else some (scheme, Static.trim credentials)

def tokenTypeForScheme (scheme : Bytes) : TokenType :=
  if eqIgnoreAsciiCase scheme (bytes "DPoP") then .dpop else .bearer

def expectedScheme (pfx : Option Bytes) : Option Bytes :=
  (pfx.map Static.trim).filter (· ≠ [])

def matchHeaderValue (name value : Bytes) (pfx : Option Bytes) : Option Bytes × TokenType :=
  match expectedScheme pfx with
  | some expected =>
    match splitAuthScheme value with
    | some (scheme, credentials) =>
      if eqIgnoreAsciiCase scheme expected then
        (some credentials, tokenTypeForScheme expected)
      else (none, .bearer)
    | none => (none, .bearer)
  | none =>
    if name = bytes "authorization" then
      match splitAuthScheme value with
      | some (scheme, credentials) =>
        if eqIgnoreAsciiCase scheme (bytes "DPoP") then (some credentials, .dpop)
        else if eqIgnoreAsciiCase scheme (bytes "Bearer") then (some credentials, .bearer)
        else (none, .bearer)
      | none => (some (Static.trim value), .bearer)
    else (some (Static.trim value), .bearer)

/-- `strip_prefix`, where one is configured. -/
def stripPfx (value : Bytes) : Option Bytes → Option Bytes
  | some pfx => if pfx <+: value then some (value.drop pfx.length) else none
  | none => some value

/-- Finds cookie `name` across all `Cookie` header fields, removing optional
surrounding double quotes. -/
def findCookie (headers : HeaderMap) (name : Bytes) : Option Bytes :=
  (((headers.getAll (bytes "cookie")).filterMap toStr).flatMap (splitAtEvery 59)).findSome?
    fun pair =>
      (splitOnce 61 pair).bind fun (key, value) =>
        if Net.trim key = name then some (Net.stripQuotes (Net.trim value)) else none

def findQueryParam (query : Option Bytes) (name : Bytes) (pfx : Option Bytes) : Option Bytes :=
  query.bind fun query =>
    (splitAtEvery 38 query).findSome? fun pair =>
      (splitOnce 61 pair).bind fun (key, value) => if key = name then stripPfx value pfx else none

/-- The value of `name` when the header is present exactly once. -/
def singleHeaderValue (headers : HeaderMap) (name : Bytes) : Option Bytes :=
  match headers.getAll name with
  | [value] => toStr value
  | _ => none

end Values

section Sources

def matchOne (request : RequestParts) : TokenSource → Option Bytes × TokenType
  | .header name pfx =>
    match (request.headers.get name).bind toStr with
    | some value => matchHeaderValue name value pfx
    | none => (none, .bearer)
  | .queryParam name pfx => (findQueryParam request.query name pfx, .bearer)
  | .cookie name pfx =>
    ((findCookie request.headers name).bind fun value => stripPfx value pfx, .bearer)

def matchSourceWithType (request : RequestParts) :
    List TokenSource → Option Bytes × TokenType
  | [] => (none, .bearer)
  | source :: rest =>
    match (matchOne request source).1.filter (· ≠ []) with
    | some token => (some token, (matchOne request source).2)
    | none => matchSourceWithType request rest

def matchSource (request : RequestParts) (source : TokenSource) : Option Bytes :=
  (matchSourceWithType request [source]).1

def AuthConfig.refreshes (config : AuthConfig) : Bool :=
  config.oauthClient.any (·.refreshFlowEnabled)

def extractRequestTokens (request : RequestParts) (config : AuthConfig) : RequestTokens where
  accessToken := (matchSourceWithType request config.sources).1
  accessTokenType := (matchSourceWithType request config.sources).2
  refreshToken :=
    if config.refreshes then config.refreshSources.bind (matchSource request) else none
  dpopProof :=
    match config.dpopSource with
    | some source => matchSource request source
    | none =>
      if config.dpopPolicy = .disabled then none
      else singleHeaderValue request.headers (bytes "dpop")

/-- The authority the client addressed: `:authority` for HTTP/2, else `Host`. -/
def requestAuthority (request : AuthRequest) : Bytes :=
  (request.authority.or ((request.parts.headers.get (bytes "host")).bind toStr)).getD []

end Sources

end Ophan.Auth
