import Ophan.Gateway.Forwarding
import Ophan.Lib.Json

/-!
# The claims of a token and the header they are sent in

The payload of a token is read into the claims that are known by name, and the other
members go to a map.  `encode_bytes` writes that map flat beside two members of its
own.
-/

namespace Ophan.Auth

open List
open Http

def usizeMax : Nat := 2 ^ 64 - 1

structure CnfClaim where
  /-- JWK SHA-256 Thumbprint (base64url-encoded). -/
  jkt : Bytes
  deriving DecidableEq, Repr

structure Claims where
  sub : Bytes
  exp : Nat
  iat : Nat
  nbf : Option Nat
  iss : Option Bytes
  aud : Option (List Bytes)
  jti : Option Bytes
  scope : Option Bytes
  cnf : Option CnfClaim
  extraData : Json.Map

/-! ## Reading the payload -/

section Reading

def readString : Json → Option Bytes
  | .string text => some text
  | _ => none

def readUsize : Json → Option Nat
  | .int value => if 0 ≤ value ∧ value.toNat ≤ usizeMax then some value.toNat else none
  | _ => none

/-- `Option<T>`, which reads `null` as well. -/
def readOptional {α : Type} (read : Json → Option α) : Json → Option (Option α)
  | .null => some none
  | value => (read value).map some

/-- `deserialize_audience` -/
def readAudience : Json → Option (List Bytes)
  | .string text => some [text]
  | .array items => items.mapM readString
  | _ => none

/-- `CnfClaim`, from an object or from the list of its fields.  A field that stands
twice is refused and other fields are skipped. -/
def readCnf : Json → Option CnfClaim
  | .object members =>
    match members.filter fun member => member.1 = bytes "jkt" with
    | [(_, value)] => (readString value).map CnfClaim.mk
    | _ => none
  | .array [value] => (readString value).map CnfClaim.mk
  | _ => none

/-- The fields of `Claims` that have been read so far. -/
structure ClaimFields where
  sub : Option Bytes := none
  exp : Option Nat := none
  iat : Option Nat := none
  nbf : Option (Option Nat) := none
  iss : Option (Option Bytes) := none
  aud : Option (Option (List Bytes)) := none
  jti : Option (Option Bytes) := none
  scope : Option (Option Bytes) := none
  cnf : Option (Option CnfClaim) := none

def once {α : Type} (seen : Option α) (value : Option α) (store : α → ClaimFields) :
    Option ClaimFields :=
  if seen.isSome then none else value.map store

def readField (fields : ClaimFields) (key : Bytes) (value : Json) : Option ClaimFields :=
  if key = bytes "sub" then
    once fields.sub (readString value) fun sub => { fields with sub := some sub }
  else if key = bytes "exp" then
    once fields.exp (readUsize value) fun exp => { fields with exp := some exp }
  else if key = bytes "iat" then
    once fields.iat (readUsize value) fun iat => { fields with iat := some iat }
  else if key = bytes "nbf" then
    once fields.nbf (readOptional readUsize value) fun nbf => { fields with nbf := some nbf }
  else if key = bytes "iss" then
    once fields.iss (readOptional readString value) fun iss => { fields with iss := some iss }
  else if key = bytes "aud" then
    once fields.aud (readOptional readAudience value) fun aud => { fields with aud := some aud }
  else if key = bytes "jti" then
    once fields.jti (readOptional readString value) fun jti => { fields with jti := some jti }
  else if key = bytes "scope" then
    once fields.scope (readOptional readString value) fun scope =>
      { fields with scope := some scope }
  else
    once fields.cnf (readOptional readCnf value) fun cnf => { fields with cnf := some cnf }

end Reading

/-! ## Writing the header -/

section Writing

variable (codecs : Codecs)

end Writing

/-! ## What the header says -/

variable {codecs : Codecs}

end Ophan.Auth
