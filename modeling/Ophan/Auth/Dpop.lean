import Mathlib.Data.Nat.Bitwise
import Ophan.Auth.Claims

/-!
# Proofs of possession

What `DpopValidator::validate` checks of one proof, up to the record of the proofs
that were accepted before.  Signatures, keys and digests are those of the libraries
`jsonwebtoken` and `sha2`.
-/

namespace Ophan.Auth

open Http Router

section Errors

inductive DpopError where
  | invalidFormat
  | invalidType
  | thumbprintMismatch
  | athMismatch
  | htmMismatch
  | htuMismatch
  | nonceMismatch
  | required
  | proofRequired
  | disabled
  | bindingMissing
  /-- A DPoP-bound token (`cnf.jkt`) was presented with the Bearer scheme. -/
  | boundTokenAsBearer
  /-- The proof's `jti` was already used. -/
  | replayed
  /-- Too many live proofs are recorded to detect replays. -/
  | replayCacheFull
  deriving DecidableEq, Repr

/-- The kinds of `jsonwebtoken::errors::ErrorKind` that are told apart. -/
inductive TokenErrorKind where
  | expiredSignature
  | invalidSignature
  | other
  deriving DecidableEq, Repr

end Errors

section Algorithms

inductive Algorithm where
  | hs256 | hs384 | hs512
  | es256 | es384
  | rs256 | rs384 | rs512
  | ps256 | ps384 | ps512
  | edDsa
  deriving DecidableEq, Repr

inductive AlgorithmFamily where
  | hmac
  | rsa
  | ec
  | ed
  deriving DecidableEq, Repr

def Algorithm.family : Algorithm → AlgorithmFamily
  | .hs256 | .hs384 | .hs512 => .hmac
  | .es256 | .es384 => .ec
  | .rs256 | .rs384 | .rs512 | .ps256 | .ps384 | .ps512 => .rsa
  | .edDsa => .ed

/-- `PROOF_ALGORITHMS`, the keys of `validations`. -/
def proofAlgorithms : List Algorithm :=
  [.es256, .es384, .rs256, .rs384, .rs512, .ps256, .ps384, .ps512, .edDsa]

end Algorithms

structure ProofHeader (Jwk : Type) where
  typ : Option Bytes
  alg : Algorithm
  jwk : Option Jwk
  deriving DecidableEq, Repr

structure DpopProofClaims where
  /-- Unique proof identifier (prevents replay). -/
  jti : Bytes
  htm : Bytes
  htu : Bytes
  iat : Nat
  /-- Hash of the associated access token (base64url-encoded). -/
  ath : Bytes
  nonce : Option Bytes
  deriving DecidableEq, Repr

structure DpopRequestContext where
  method : Bytes
  scheme : Bytes
  authority : Bytes
  path : Bytes
  nonce : Option Bytes
  dpopProof : Option Bytes
  deriving DecidableEq, Repr

structure Crypto (Jwk : Type) where
  decodeHeader : Bytes → Except TokenErrorKind (ProofHeader Jwk)
  /-- `DecodingKey::from_jwk` and `decode` with the key and the rules of an algorithm. -/
  decode : Bytes → Jwk → Algorithm → Except TokenErrorKind DpopProofClaims
  thumbprint : Jwk → Except TokenErrorKind Bytes
  sha256 : Bytes → Bytes
  /-- `URL_SAFE_NO_PAD` -/
  base64 : Bytes → Bytes

def maxProofAgeSecs : Nat := 300

def isFresh (iat now : Nat) : Bool :=
  iat ≤ saturatingAdd now maxProofAgeSecs && now - iat ≤ maxProofAgeSecs

def constantTimeEq (left right : Bytes) : Bool :=
  (left.zip right).foldl (fun difference pair => difference ||| (pair.1 ^^^ pair.2).toNat)
    (left.length ^^^ right.length) = 0

/-! ## The address of a request -/

section Uri

/-- `str::parse::<u16>` -/
def parseU16 (text : Bytes) : Option Nat :=
  let digits := match text with
    | 43 :: rest => rest
    | _ => text
  if digits = [] then none else (Static.parseDigits 0 digits).filter (· ≤ 65535)

def splitHost (authority : Bytes) : Option (Bytes × Option Bytes) :=
  match authority with
  -- `[` up to `]`
  | 91 :: _ =>
    if 93 ∈ authority then
      match (authority.dropWhile (· ≠ 93)).tail with
      | [] => some (authority.takeWhile (· ≠ 93) ++ [93], none)
      | 58 :: port => some (authority.takeWhile (· ≠ 93) ++ [93], some port)
      | _ => none
    else none
  | _ =>
    match splitOnce 58 authority with
    | some (host, port) => some (host, some port)
    | none => some (authority, none)

def readPort : Option Bytes → Option (Option Nat)
  | none => some none
  | some [] => some none
  | some text => (parseU16 text).map some

/-- Splits an authority into host and optional port. Userinfo is rejected. -/
def splitAuthority (authority : Bytes) : Option (Bytes × Option Nat) :=
  if authority = [] ∨ 64 ∈ authority then none
  else
    (splitHost authority).bind fun (host, text) =>
      (readPort text).bind fun port => if host = [] then none else some (host, port)

def effectivePort (scheme : Bytes) (port : Option Nat) : Option Nat :=
  port.or <|
    if eqIgnoreAsciiCase scheme (bytes "https") then some 443
    else if eqIgnoreAsciiCase scheme (bytes "http") then some 80
    else none

def stripQueryAndFragment (text : Bytes) : Bytes :=
  text.takeWhile fun b => b ≠ 63 && b ≠ 35

def normalizeEmptyPath (path : Bytes) : Bytes :=
  if path = [] then [Http.slash] else path

/-- `split_once` at a text. -/
def splitOnceAt (mark : Bytes) : Bytes → Option (Bytes × Bytes)
  | [] => if mark = [] then some ([], []) else none
  | b :: rest =>
    if mark <+: b :: rest then some ([], (b :: rest).drop mark.length)
    else (splitOnceAt mark rest).map fun (before, behind) => (b :: before, behind)

/-- Compares the proof's `htu` with the request URI, ignoring query and fragment, with
the scheme and host compared case-insensitively and default ports elided. -/
def htuMatches (htu : Bytes) (ctx : DpopRequestContext) : Bool :=
  match splitOnceAt (bytes "://") (stripQueryAndFragment htu) with
  | none => false
  | some (scheme, rest) =>
    match splitAuthority (rest.takeWhile (· ≠ Http.slash)), splitAuthority ctx.authority with
    | some (proofHost, proofPort), some (requestHost, requestPort) =>
      eqIgnoreAsciiCase scheme ctx.scheme && eqIgnoreAsciiCase proofHost requestHost &&
        (effectivePort scheme proofPort = effectivePort ctx.scheme requestPort) &&
        (normalizeEmptyPath (rest.dropWhile (· ≠ Http.slash)) =
          normalizeEmptyPath (stripQueryAndFragment ctx.path))
    | _, _ => false

end Uri

/-! ## Validation -/

inductive ProofError where
  | token (kind : TokenErrorKind)
  | dpop (error : DpopError)
  deriving DecidableEq, Repr

structure ProofId where
  jkt : Bytes
  jti : Bytes
  iat : Nat
  deriving DecidableEq, Repr

def expiresAt (iat : Nat) : Nat := saturatingAdd (saturatingAdd iat maxProofAgeSecs) 1

section Validate

variable {Jwk : Type} (crypto : Crypto Jwk)

/-- The key and the claims of a proof, before the clock is read. -/
def openProof (dpopProof : Bytes) : Except ProofError (Jwk × DpopProofClaims) :=
  match crypto.decodeHeader dpopProof with
  | .error kind => .error (.token kind)
  | .ok header =>
    if header.typ ≠ some (bytes "dpop+jwt") then .error (.dpop .invalidType)
    else if header.alg.family = .hmac then .error (.dpop .invalidFormat)
    else if header.alg ∉ proofAlgorithms then .error (.dpop .invalidFormat)
    else
      match header.jwk with
      | none => .error (.dpop .invalidFormat)
      | some jwk =>
        match crypto.decode dpopProof jwk header.alg with
        | .error kind => .error (.token kind)
        | .ok claims => .ok (jwk, claims)

/-- The checks of an opened proof at a time, up to its record. -/
def checkProof (jwk : Jwk) (claims : DpopProofClaims) (accessToken : Bytes)
    (cnf : CnfClaim) (ctx : DpopRequestContext) (now : Nat) : Except ProofError ProofId :=
  if isFresh claims.iat now = false then .error (.dpop .invalidFormat)
  else
    match crypto.thumbprint jwk with
    | .error kind => .error (.token kind)
    | .ok actualJkt =>
      if constantTimeEq cnf.jkt actualJkt = false then .error (.dpop .thumbprintMismatch)
      else if claims.htm ≠ ctx.method then .error (.dpop .htmMismatch)
      else if htuMatches claims.htu ctx = false then .error (.dpop .htuMismatch)
      else if ctx.nonce.isSome ∧ claims.nonce ≠ ctx.nonce then .error (.dpop .nonceMismatch)
      else if constantTimeEq claims.ath (crypto.base64 (crypto.sha256 accessToken)) = false then
        .error (.dpop .athMismatch)
      else .ok ⟨actualJkt, claims.jti, claims.iat⟩

end Validate

/-! ## What a checked proof shows -/

theorem foldl_difference_eq_zero_iff (pairs : List (UInt8 × UInt8)) (difference : Nat) :
    pairs.foldl (fun difference pair => difference ||| (pair.1 ^^^ pair.2).toNat) difference = 0 ↔
      difference = 0 ∧ ∀ pair ∈ pairs, pair.1 = pair.2 := by
  induction pairs generalizing difference with
  | nil => simp
  | cons pair pairs ih =>
    have isXor : (pair.1 ^^^ pair.2).toNat = 0 ↔ pair.1 = pair.2 := by
      rw [UInt8.toNat_xor, Nat.xor_eq_zero_iff, UInt8.toNat_inj]
    rw [List.foldl_cons, ih, Nat.or_eq_zero_iff, List.forall_mem_cons, isXor, and_assoc]

theorem eq_of_zip {left right : Bytes} (sameLength : left.length = right.length)
    (same : ∀ pair ∈ left.zip right, pair.1 = pair.2) : left = right := by
  induction left generalizing right with
  | nil => exact (List.length_eq_zero_iff.mp sameLength.symm).symm
  | cons b left ih =>
    cases right with
    | nil => cases sameLength
    | cons c right =>
      rw [List.zip_cons_cons, List.forall_mem_cons] at same
      grind

theorem constantTimeEq_iff (left right : Bytes) :
    constantTimeEq left right = true ↔ left = right := by
  rw [constantTimeEq, decide_eq_true_eq, foldl_difference_eq_zero_iff, Nat.xor_eq_zero_iff]
  constructor
  · rintro ⟨sameLength, same⟩
    exact eq_of_zip sameLength same
  · rintro rfl
    refine ⟨rfl, fun pair isMem => ?_⟩
    obtain ⟨place, inside, rfl⟩ := List.getElem_of_mem isMem
    rw [List.getElem_zip]

section Spec

variable {Jwk : Type} {crypto : Crypto Jwk}

/-- What `validate` has established when it comes to the record: the proof is bound to
the key of the token, and to this method, URI and access token. -/
structure Checked (crypto : Crypto Jwk) (jwk : Jwk) (claims : DpopProofClaims)
    (accessToken : Bytes) (cnf : CnfClaim) (ctx : DpopRequestContext) (now : Nat) :
    Prop where
  fresh : isFresh claims.iat now = true
  bound : crypto.thumbprint jwk = .ok cnf.jkt
  htm : claims.htm = ctx.method
  htu : htuMatches claims.htu ctx = true
  nonce : ctx.nonce.isSome → claims.nonce = ctx.nonce
  ath : claims.ath = crypto.base64 (crypto.sha256 accessToken)

theorem checkProof_eq_ok_iff {jwk : Jwk} {claims : DpopProofClaims} {accessToken : Bytes}
    {cnf : CnfClaim} {ctx : DpopRequestContext} {now : Nat} {id : ProofId} :
    checkProof crypto jwk claims accessToken cnf ctx now = .ok id ↔
      Checked crypto jwk claims accessToken cnf ctx now ∧
        id = ⟨cnf.jkt, claims.jti, claims.iat⟩ := by
  constructor
  · intro isOk
    rw [checkProof] at isOk
    split at isOk
    · cases isOk
    next isFresh =>
    split at isOk
    · cases isOk
    next actualJkt isThumbprint =>
    split_ifs at isOk with notBound notMethod notUri notNonce notToken
    injection isOk with isId
    rw [Bool.not_eq_false, constantTimeEq_iff] at notBound notToken
    refine ⟨⟨by simpa using isFresh, notBound ▸ isThumbprint, not_not.mp notMethod,
      by simpa using notUri, fun isSome => ?_, notToken⟩, by rw [← isId, notBound]⟩
    exact not_not.mp fun isOther => notNonce ⟨isSome, isOther⟩
  · rintro ⟨checked, rfl⟩
    have bound : constantTimeEq cnf.jkt cnf.jkt = true := (constantTimeEq_iff _ _).mpr rfl
    have ath := (constantTimeEq_iff _ _).mpr checked.ath
    have nonce : ¬ (ctx.nonce.isSome = true ∧ claims.nonce ≠ ctx.nonce) :=
      fun isOther => isOther.2 (checked.nonce isOther.1)
    rw [checkProof, checked.fresh, if_neg (by decide), checked.bound]
    change (if constantTimeEq cnf.jkt cnf.jkt = false then _ else _) = _
    rw [bound, if_neg (by decide), if_neg (not_not.mpr checked.htm), checked.htu,
      if_neg (by decide), if_neg nonce, ath, if_neg (by decide)]

end Spec

end Ophan.Auth
