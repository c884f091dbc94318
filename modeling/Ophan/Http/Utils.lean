import Ophan.Lib.Split
import Ophan.Lib.Utf8

/-!
# Request paths and host names

The functions of the gateway that rewrite the path and the host of a request
before they are routed.
-/

namespace Ophan.Http

/-! ## The port of a host -/

/-- The parts before and behind the first `sep`, `split_once`. -/
def splitOnce (sep : UInt8) : Bytes → Option (Bytes × Bytes)
  | [] => none
  | b :: rest =>
    if b = sep then
      some ([], rest)
    else
      (splitOnce sep rest).map fun (before, behind) => (b :: before, behind)

/-- Removes the port from an authority host and the brackets of an IPv6
literal. -/
def stripPort (host : Bytes) : Bytes :=
  match host with
  -- `[`
  | 91 :: rest =>
    match splitOnce 93 rest with
    | some (ip, _) => ip
    | none => host
  | _ =>
    match splitOnce 58 host with
    | some (name, port) => if port.contains 58 then host else name
    | none => host

/-! ## Normalizing a path -/

/-- `b'%'` -/
abbrev percent : UInt8 := 37

/-- `b'/'` -/
abbrev slash : UInt8 := 47

/-- `b'.'` -/
abbrev dot : UInt8 := 46

def hexValue (b : UInt8) : Option UInt8 :=
  if 48 ≤ b ∧ b ≤ 57 then some (b - 48)
  else if 97 ≤ b ∧ b ≤ 102 then some (b - 97 + 10)
  else if 65 ≤ b ∧ b ≤ 70 then some (b - 65 + 10)
  else none

/-- `is_ascii_alphanumeric` or one of `-`, `.`, `_`, `~`. -/
def isUnreserved (c : UInt8) : Bool :=
  (48 ≤ c && c ≤ 57) || (65 ≤ c && c ≤ 90) || (97 ≤ c && c ≤ 122) ||
    c = 45 || c = 46 || c = 95 || c = 126

def toAsciiUppercase (b : UInt8) : UInt8 :=
  if 97 ≤ b ∧ b ≤ 122 then b - 32 else b

def hexPair (high low : UInt8) : Option UInt8 :=
  match hexValue high, hexValue low with
  | some hi, some lo => some ((hi <<< 4) ||| lo)
  | _, _ => none

/-- The loop of `decode_unreserved`.  The source copies a run of bytes up to
the next `%` at once. -/
def decodeLoop : Bytes → Bytes
  | [] => []
  | b :: rest =>
    match rest with
    | high :: low :: behind =>
      match if b = percent then hexPair high low else none with
      | some c =>
        if isUnreserved c then
          c :: decodeLoop behind
        else
          percent :: toAsciiUppercase high :: toAsciiUppercase low :: decodeLoop behind
      | none => b :: decodeLoop (high :: low :: behind)
    | [second] => [b, second]
    | [] => [b]

/-- Decodes `%XX` only when it encodes an unreserved character; other escapes
keep their meaning and are written in upper case. -/
def decodeUnreserved (path : Bytes) : Bytes :=
  if path.contains percent then
    let out := decodeLoop path
    if validUtf8 out then out else path
  else
    path

/-- The test for a `%`, or a `/` in front of a `/` or a `.`. -/
def suspicious : Bytes → Bool
  | [] => false
  | b :: rest =>
    b = percent ||
      (b = slash && (rest.head? = some slash || rest.head? = some dot)) || suspicious rest

def pushSegment (segments : List Bytes) (segment : Bytes) : List Bytes :=
  if segment = [] ∨ segment = [dot] then segments
  else if segment = [dot, dot] then segments.dropLast
  else segments ++ [segment]

/-- Whether the path ends with `/`, `/.` or `/..`. -/
def endsWithDir (decoded : Bytes) : Bool :=
  [slash].isSuffixOf decoded || [slash, dot].isSuffixOf decoded ||
    [slash, dot, dot].isSuffixOf decoded

/-- Writes the segments of a decoded path. -/
def writeSegments (segments : List Bytes) (asDir : Bool) : Bytes :=
  let out := joinAfter slash segments
  if out.isEmpty || (asDir && !segments.isEmpty) then out ++ [slash] else out

/-- Normalizes a request path the way an origin server resolves it.  Returns
`none` when the path is already normal. -/
def normalizePath (path : Bytes) : Option Bytes :=
  if suspicious path then
    let decoded := decodeUnreserved path
    let segments := (splitAtEvery slash decoded).foldl pushSegment []
    let out := writeSegments segments (endsWithDir decoded)
    if out ≠ path then some out else none
  else
    none

/-- The path the gateway routes on. -/
def routedPath (path : Bytes) : Bytes := (normalizePath path).getD path

end Ophan.Http
