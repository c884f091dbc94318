import Ophan.Router.Escape

/-!
# Wildcards of a route

`findWildcard` looks for the first wildcard of a route and rejects malformed
braces on the way.  `normalizeParams` replaces the name of each parameter by a
letter in alphabetical order and returns the original names.

`readPattern` reads the pattern as it was written, `Reads` says how a normalized
route is cut into the tokens that label the nodes of the tree.
-/

namespace Ophan.Router

inductive InsertError where
  | conflict (existing : Bytes)
  | invalidParamSegment
  | invalidParam
  | invalidCatchAll
  | methodConflict (path : Bytes)
  deriving DecidableEq, Repr

abbrev ParamRemapping := List Bytes

/-! ## The functions of the source -/

/-- The inner loop of `find_wildcard`: search the closing brace of the
wildcard opened at `start`.  The slice begins at index `i`, and `previous` is
the byte before it. -/
def findClose : List Mark → UInt8 → Nat → Nat →
    Outcome InsertError (Option (Nat × Nat))
  | [], _, _, _ => .err .invalidParam
  | (c, escaped) :: rest, previous, start, i =>
    if c = closeBrace then
      if escaped then
        findClose rest c start (i + 1)
      else if previous = star then
        .err .invalidParam
      else
        .ok (some (start, i + 1))
    else if c = star ∨ c = slash then
      .err .invalidParam
    else
      findClose rest c start (i + 1)

/-- The outer loop of `find_wildcard` from index `start` on. -/
def findWildcardFrom : List Mark → Nat →
    Outcome InsertError (Option (Nat × Nat))
  | [], _ => .ok none
  | (c, escaped) :: rest, start =>
    if c = closeBrace ∧ escaped = false then
      .err .invalidParam
    else if c ≠ openBrace ∨ escaped = true then
      findWildcardFrom rest (start + 1)
    else
      match rest with
      | [] => .err .invalidParam
      | (first, _) :: body =>
        if first = closeBrace then
          .err .invalidParam
        else
          findClose body first start (start + 2)

def findWildcard (path : UnescapedRef) : Outcome InsertError (Option (Nat × Nat)) :=
  findWildcardFrom path.marks 0

/-- The loop of `normalize_params`: `start` is where the search continues,
`original` the names found so far and `next` the next letter.  Every round
moves `start` towards the end of the route, so that the length of the route
bounds the number of rounds. -/
def normalizeLoop : Nat → UnescapedRoute → Nat → ParamRemapping → UInt8 →
    Outcome InsertError (UnescapedRoute × ParamRemapping)
  | 0, _, _, _, _ => .panic
  | rounds + 1, path, start, original, next =>
    match findWildcard (path.asRef.sliceOff start) with
    | .err error => .err error
    | .panic => .panic
    | .ok none => .ok (path, original)
    | .ok (some (relativeStart, relativeStop)) =>
      let wildcardStart := relativeStart + start
      let wildcardStop := relativeStop + start
      if wildcardStop - wildcardStart < 2 then
        .err .invalidParam
      else if path.inner[wildcardStart + 1]? = some star then
        normalizeLoop rounds path wildcardStop original next
      else
        let spliced := path.splice wildcardStart wildcardStop [openBrace, next, closeBrace]
        let removed := (spliced.2.drop 1).dropLast
        -- `assert!(next <= b'z', "Too many route parameters.")`
        if next + 1 ≤ 122 then
          normalizeLoop rounds spliced.1 (wildcardStart + 3) (original ++ [removed]) (next + 1)
        else
          .panic

/-- Returns `path` with normalized route parameters, and the names to store at
the node of the route. -/
def normalizeParams (path : UnescapedRoute) :
    Outcome InsertError (UnescapedRoute × ParamRemapping) :=
  normalizeLoop (path.inner.length + 1) path 0 [] 97

/-- The loop of `denormalize_params`; `none` stands for the panic of
`find_wildcard(..).unwrap()`. -/
def denormalizeLoop : Nat → UnescapedRoute → ParamRemapping → Nat →
    Option UnescapedRoute
  | 0, route, _, _ => some route
  | rounds + 1, route, params, start =>
    match findWildcard (route.asRef.sliceOff start) with
    | .ok none => some route
    | .ok (some (relativeStart, relativeStop)) =>
      match params with
      | [] => some route
      | param :: rest =>
        let next := openBrace :: param ++ [closeBrace]
        let spliced := route.splice (relativeStart + start) (relativeStop + start) next
        denormalizeLoop rounds spliced.1 rest (relativeStart + start + next.length)
    | _ => none

def denormalizeParams (route : UnescapedRoute) (params : ParamRemapping) : Option UnescapedRoute :=
  denormalizeLoop (params.length + 1) route params 0

/-! ## Reading a pattern as it was written -/

/-- A part of a pattern: a literal byte, a parameter or a catch-all with its
name. -/
inductive Piece where
  | byte (b : UInt8)
  | param (name : Bytes)
  | catchAll (name : Bytes)
  deriving DecidableEq, Repr

/-- The piece of a wildcard whose text between the braces is `name`. -/
def wildcardPiece (name : Bytes) : Piece :=
  if name.head? = some star then .catchAll (name.drop 1) else .param name

mutual

def readOutside : List Mark → Option (List Piece)
  | [] => some []
  | (c, escaped) :: rest =>
    if c = openBrace ∧ escaped = false then
      readName rest []
    else if c = closeBrace ∧ escaped = false then
      none
    else
      (readOutside rest).map (Piece.byte c :: ·)

def readName : List Mark → Bytes → Option (List Piece)
  | [], _ => none
  | (c, escaped) :: rest, name =>
    if c = closeBrace ∧ escaped = false then
      (readOutside rest).map (wildcardPiece name :: ·)
    else
      readName rest (name ++ [c])

end

def readPattern (text : Bytes) : Option (List Piece) :=
  readOutside (UnescapedRoute.new text).marks

/-- The names of the parameters of a pattern; the name of a catch-all is not
one of them. -/
def paramNames : List Piece → ParamRemapping
  | [] => []
  | .param name :: rest => name :: paramNames rest
  | _ :: rest => paramNames rest

/-! ## Tokens of a normalized route -/

/-- What a node of the tree stands for: a literal byte, a parameter, or a
catch-all with its name. -/
inductive Token where
  | byte (b : UInt8)
  | param
  | catchAll (name : Bytes)
  deriving DecidableEq, Repr

def Piece.token : Piece → Token
  | .byte b => .byte b
  | .param _ => .param
  | .catchAll name => .catchAll name

def tokens (pieces : List Piece) : List Token := pieces.map Piece.token

def paramCount : List Token → Nat
  | [] => 0
  | .param :: rest => paramCount rest + 1
  | _ :: rest => paramCount rest

def Plain (mark : Mark) : Prop := mark.2 = false → mark.1 ≠ openBrace ∧ mark.1 ≠ closeBrace

instance (mark : Mark) : Decidable (Plain mark) :=
  inferInstanceAs (Decidable (_ → _))

def IsLetter (c : UInt8) : Prop := 97 ≤ c ∧ c ≤ 122

/-- The text of a catch-all between `{*` and its closing brace. -/
structure CatchAllName (name : List Mark) : Prop where
  nonempty : name ≠ []
  body : ∀ mark ∈ name, mark.1 ≠ star ∧ mark.1 ≠ slash ∧ (mark.1 = closeBrace → mark.2 = true)

inductive Reads : List Mark → List Token → Prop
  | nil : Reads [] []
  | byte {mark : Mark} {marks : List Mark} {rest : List Token} :
      Plain mark → Reads marks rest →
      Reads (mark :: marks) (.byte mark.1 :: rest)
  | param {c : UInt8} {marks : List Mark} {rest : List Token} :
      IsLetter c → Reads marks rest →
      Reads ((openBrace, false) :: (c, false) :: (closeBrace, false) :: marks) (.param :: rest)
  | catchAll {flag : Bool} {name marks : List Mark} {rest : List Token} :
      CatchAllName name → Reads marks rest →
      Reads ((openBrace, false) :: (star, flag) :: (name ++ (closeBrace, false) :: marks))
        (.catchAll (name.map Prod.fst) :: rest)

end Ophan.Router
