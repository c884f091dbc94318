import Mathlib
import Ophan.Lib.Utf8

/-!
# Glob patterns

A pattern is read from left to right into tokens.  The model reads the rest of
the pattern instead of an index into it; errors are reported in the order in
which the source finds them.
-/

namespace Ophan.Glob

abbrev slash : UInt8 := 47
abbrev star : UInt8 := 42
abbrev question : UInt8 := 63
abbrev comma : UInt8 := 44
abbrev dash : UInt8 := 45
abbrev caret : UInt8 := 94
abbrev openBrace : UInt8 := 123
abbrev closeBrace : UInt8 := 125
abbrev openBracket : UInt8 := 91
abbrev closeBracket : UInt8 := 93

def maxGroupOptions : Nat := 16

def maxDeepWildcards : Nat := 6

inductive GlobError where
  | unclosedGroup
  | nestedGroup
  | emptyGroup
  | groupOptionsLimit
  | unclosedCharClass
  | emptyCharClass
  | invalidCharRange
  | tooManyDeepWildcards
  deriving DecidableEq, Repr

def GlobError.asStr : GlobError → String
  | .unclosedGroup => "unclosed group: missing '\x7d'"
  | .nestedGroup => "nested groups are not supported"
  | .emptyGroup => "empty group"
  | .groupOptionsLimit => "group exceeds maximum alternatives"
  | .unclosedCharClass => "unclosed character class: missing ']'"
  | .emptyCharClass => "empty character class"
  | .invalidCharRange => "invalid character range"
  | .tooManyDeepWildcards => "too many deep wildcards (**)"

/-- The bitmap of a class, 32 bytes in the source, is one word of 256 bits:
bit `c` is bit `c % 8` of byte `c / 8`. -/
inductive Tok where
  | literal (text : Bytes)
  | wildcard
  | deepWildcard
  | deepWildcardDir
  | anyChar
  | group (options : List Bytes)
  | charClass (bitmap : BitVec 256) (negated : Bool)
  deriving DecidableEq, Repr

def isPlain (b : UInt8) : Bool :=
  !(b == star || b == question || b == openBrace || b == openBracket)

/-- The text up to the closing brace and the text behind it. -/
def scanGroup : Bytes → Except GlobError (Bytes × Bytes)
  | [] => .error .unclosedGroup
  | b :: rest =>
    if b = closeBrace then .ok ([], rest)
    else if b = openBrace then .error .nestedGroup
    else
      match scanGroup rest with
      | .ok (content, after) => .ok (b :: content, after)
      | .error error => .error error

/-- The alternatives of a group; `count` is the number of the alternative
that `piece` has begun. -/
def splitOptions : Bytes → Bytes → Nat → Except GlobError (List Bytes)
  | [], piece, _ => if piece.isEmpty then .error .emptyGroup else .ok [piece]
  | b :: rest, piece, count =>
    if b = comma then
      if count + 1 > maxGroupOptions then .error .groupOptionsLimit
      else if piece.isEmpty then .error .emptyGroup
      else
        match splitOptions rest [] (count + 1) with
        | .ok options => .ok (piece :: options)
        | .error error => .error error
    else splitOptions rest (piece ++ [b]) count

/-- The text up to the closing bracket and the text behind it. -/
def scanClass : Bytes → Except GlobError (Bytes × Bytes)
  | [] => .error .unclosedCharClass
  | b :: rest =>
    if b = closeBracket then .ok ([], rest)
    else
      match scanClass rest with
      | .ok (content, after) => .ok (b :: content, after)
      | .error error => .error error

def setBit (bitmap : BitVec 256) (c : UInt8) : BitVec 256 := bitmap ||| BitVec.twoPow 256 c.toNat

def testBit (bitmap : BitVec 256) (b : UInt8) : Bool := bitmap.getLsbD b.toNat

/-- Set the bits of `a..=b`. -/
def setRange (bitmap : BitVec 256) (a b : UInt8) : BitVec 256 :=
  (List.range' a.toNat (b.toNat + 1 - a.toNat)).foldl
    (fun bits c => setBit bits (UInt8.ofNat c)) bitmap

/-- The bitmap of a class body.  A dash is a range only between two bytes. -/
def classBits : Bytes → BitVec 256 → Except GlobError (BitVec 256)
  | [], bitmap => .ok bitmap
  | a :: sep :: b :: rest, bitmap =>
    if sep = dash then
      if a > b then .error .invalidCharRange
      else classBits rest (setRange bitmap a b)
    else classBits (sep :: b :: rest) (setBit bitmap a)
  | c :: rest, bitmap => classBits rest (setBit bitmap c)

def prepend (tok : Tok) : Except GlobError (List Tok) → Except GlobError (List Tok)
  | .ok tokens => .ok (tok :: tokens)
  | .error error => .error error

/-- One token after another.  Every round takes at least one byte, so
`rounds` is the length of the pattern. -/
def tokenizeLoop : Nat → Bytes → Nat → Except GlobError (List Tok)
  | 0, _, _ => .ok []
  | _ + 1, [], _ => .ok []
  | rounds + 1, b :: rest, deepCount =>
    if b = star then
      match rest with
      | [] => prepend .wildcard (tokenizeLoop rounds [] deepCount)
      | next :: more =>
        if next = star then
          if deepCount + 1 > maxDeepWildcards then
            .error .tooManyDeepWildcards
          else
            match more with
            | [] => prepend .deepWildcard (tokenizeLoop rounds [] (deepCount + 1))
            | sep :: after =>
              if sep = slash then
                prepend .deepWildcardDir (tokenizeLoop rounds after (deepCount + 1))
              else
                prepend .deepWildcard (tokenizeLoop rounds (sep :: after) (deepCount + 1))
        else
          prepend .wildcard (tokenizeLoop rounds (next :: more) deepCount)
    else if b = question then
      prepend .anyChar (tokenizeLoop rounds rest deepCount)
    else if b = openBrace then
      match scanGroup rest with
      | .error error => .error error
      | .ok (content, after) =>
        if content.isEmpty then .error .emptyGroup
        else
          match splitOptions content [] 1 with
          | .error error => .error error
          | .ok options => prepend (.group options) (tokenizeLoop rounds after deepCount)
    else if b = openBracket then
      let negated := rest.head? == some caret
      match scanClass (if negated then rest.drop 1 else rest) with
      | .error error => .error error
      | .ok (body, after) =>
        if body.isEmpty then .error .emptyCharClass
        else
          match classBits body 0 with
          | .error error => .error error
          | .ok bitmap => prepend (.charClass bitmap negated) (tokenizeLoop rounds after deepCount)
    else
      prepend (.literal ((b :: rest).takeWhile isPlain))
        (tokenizeLoop rounds ((b :: rest).dropWhile isPlain) deepCount)

def tokenize (pattern : Bytes) : Except GlobError (List Tok) :=
  if pattern.isEmpty then .ok [.literal []]
  else tokenizeLoop pattern.length pattern 0

/-- The tokens of a pattern that was accepted.  `is_exact` is not kept: the
set looks at the tokens again. -/
structure GlobPattern where
  tokens : List Tok
  deriving DecidableEq, Repr

def GlobPattern.compile (pattern : Bytes) : Except GlobError GlobPattern :=
  match tokenize pattern with
  | .ok tokens => .ok ⟨tokens⟩
  | .error error => .error error

end Ophan.Glob
