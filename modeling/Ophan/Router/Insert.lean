import Ophan.Router.Node

/-!
# Inserting a route

`Node.insert` walks down the tree along the route.  A call returns the changed
tree together with its outcome: an error that is found late leaves the changes
on the way behind.

The loops that move a mutable reference to a child are recursions that put the
changed child back.  The names of a route are stored together with its value.
-/

namespace Ophan.Router

universe u

/-- The index behind the next `/`, or the end of the slice. -/
def terminatorOf (bytes : Bytes) : Nat :=
  match bytes.findIdx? (· = slash) with
  | some i => i + 1
  | none => bytes.length

/-- The index of the next `/`, or the end of the slice. -/
def segmentEnd (bytes : Bytes) : Nat := (bytes.findIdx? (· = slash)).getD bytes.length

/-- `matches!(*suffix, b"" | b"/")` -/
def emptyOrSlash (suffix : Bytes) : Bool := suffix = [] || suffix = [slash]

/-- `matches!(find_wildcard(slice), Ok(Some(_)))` -/
def hasWildcard (slice : UnescapedRef) : Bool :=
  match findWildcard slice with
  | .ok (some _) => true
  | _ => false

/-- `slice[0] == b'{' && !slice.is_escaped(0)` -/
def startsWildcard (slice : UnescapedRef) : Bool :=
  slice.inner.head? = some openBrace && !slice.isEscaped 0

namespace Node

variable {T : Type u}

/-- Insert a route at this node.  If the route starts with a wildcard, a child
node is created for the parameter and `wildChild` is set on the parent. -/
def insertRoute (remapping : ParamRemapping) (val : T) :
    Nat → Node T → UnescapedRef → Node T × Outcome InsertError Unit
  | 0, node, _ => (node, .panic)
  | rounds + 1, node, route =>
    match findWildcard route with
    | .err error => (node, .err error)
    | .panic => (node, .panic)
    | .ok none =>
      ({ node with
          value := some val
          pfx := route.toOwned
          remapping := remapping },
        .ok ())
    | .ok (some (start, stop)) =>
      let node' : Node T :=
        if 0 < start then
          { node with pfx := (route.sliceUntil start).toOwned }
        else
          node
      let route' := route.sliceOff start
      if route.inner[start + 1]? = some star then
        if stop ≠ route.inner.length then
          (node, .err .invalidCatchAll)
        else
          let child : Node T :=
            { empty with
              pfx := route'.toOwned
              nodeType := .catchAll
              value := some val
              remapping := remapping
              priority := 1 }
          ({ (node'.addChild child).1 with wildChild := true }, .ok ())
      else
        let terminator := terminatorOf route'.inner
        let wildcard := route'.sliceUntil (stop - start)
        let suffix := (route'.sliceUntil terminator).sliceOff (stop - start)
        let rest := route'.sliceOff terminator
        if hasWildcard suffix then
          (node', .err .invalidParamSegment)
        else
          let param : Node T :=
            { empty with
              priority := 1
              nodeType := .param (!emptyOrSlash suffix.inner)
              pfx := wildcard.toOwned }
          let last : Node T :=
            if suffix.inner = [] then
              param
            else
              { empty with priority := 1, pfx := suffix.toOwned }
          let below : Node T × Outcome InsertError Unit :=
            match rest.inner with
            | [] => ({ last with value := some val, remapping := remapping }, .ok ())
            | next :: _ =>
              if startsWildcard rest then
                insertRoute remapping val rounds last rest
              else
                let child := insertRoute remapping val rounds { empty with priority := 1 } rest
                ({ (last.addChild child.1).1 with
                    indices := last.indices ++ [next] },
                  child.2)
          let child : Node T :=
            if suffix.inner = [] then below.1
            else param.addSuffixChild below.1
          ({ (node'.addChild child).1 with wildChild := true }, below.2)

/-- The length of the common prefix of the route and the current node. -/
def commonPrefix (node : Node T) (remaining : UnescapedRef) : Nat :=
  let len := min remaining.inner.length node.pfx.inner.length
  ((List.range len).find? fun i =>
    remaining.inner[i]? ≠ node.pfx.inner[i]? ||
      remaining.isEscaped i != node.pfx.isEscaped i).getD len

/-- Extract a common prefix of length `common` into a parent that holds the rest
of the node as its only child. -/
def fork (node : Node T) (common : Nat) : Node T :=
  let child : Node T :=
    { pfx := (node.pfx.asRef.sliceOff common).toOwned
      value := node.value
      indices := node.indices
      wildChild := node.wildChild
      children := node.children
      remapping := node.remapping
      priority := node.priority - 1
      nodeType := .static }
  { node with
    value := none
    remapping := []
    children := [child]
    indices := (node.pfx.inner.drop common).take 1
    pfx := (node.pfx.asRef.sliceUntil common).toOwned
    wildChild := false }

/-- A suffix that differs from the prefix of a child by a trailing slash. -/
def extraTrailingSlash (suffix : Bytes) (child : Node T) : Bool :=
  child.pfx.inner ++ [slash] = suffix || suffix ++ [slash] = child.pfx.inner

section Walk

variable (route : UnescapedRoute) (remapping : ParamRemapping) (val : T)
variable
  (descend : Option (Node T → Node T) → Node T → UnescapedRef → Node T × Outcome InsertError Unit)

def putChild (node : Node T) (i : Nat) (child : Node T) : Node T :=
  { node with children := node.children.set i child }

/-- Continue at the `i`-th child and put the changed child back.  The rounds
below see their parent with the current state of the child in place. -/
def descendInto (node : Node T) (i : Nat) (child : Node T)
    (remaining : UnescapedRef) : Node T × Outcome InsertError Unit :=
  let below := descend (some (node.putChild i)) child remaining
  (node.putChild i below.1, below.2)

def insertSuffix (node : Node T) (hasSuffix : Bool) (terminator : Nat)
    (remaining : UnescapedRef) : Node T × Outcome InsertError Unit :=
  let suffix := remaining.sliceUntil terminator
  let rest := remaining.sliceOff terminator
  let fresh : Node T := { empty with priority := 1, pfx := suffix.toOwned }
  let below : Node T × Outcome InsertError Unit :=
    match rest.inner with
    | [] => ({ fresh with value := some val, remapping := remapping }, .ok ())
    | next :: _ =>
      if startsWildcard rest then
        insertRoute remapping val (rest.inner.length + 1) fresh rest
      else
        let child :=
          insertRoute remapping val (rest.inner.length + 1) { empty with priority := 1 } rest
        ({ (fresh.addChild child.1).1 with
            indices := fresh.indices ++ [next] },
          child.2)
  ({ node.addSuffixChild below.1 with
      nodeType := .param (hasSuffix || !emptyOrSlash suffix.inner) },
    below.2)

/-- The walk at a parameter node: find the matching suffix or create a new
child node. -/
def walkParam (parent : Option (Node T → Node T)) (node : Node T)
    (hasSuffix : Bool) (commonRemaining remaining : UnescapedRef) :
    Node T × Outcome InsertError Unit :=
  let terminator := terminatorOf remaining.inner
  let suffix := remaining.sliceUntil terminator
  match node.children.findIdx? fun child => child.pfx.inner = suffix.inner with
  | some i =>
    match node.children[i]? with
    | some child => descendInto descend node i child.bump remaining
    | none => (node, .panic)
  | none =>
    let extra := node.children.any (extraTrailingSlash suffix.inner)
    let prefixed :=
      match parent with
      | some above =>
        if !extra && !emptyOrSlash suffix.inner && (above node).prefixWildChildInSegment then
          some (above node)
        else
          none
      | none => none
    match prefixed with
    | some above => (node, conflict route commonRemaining above)
    | none =>
      if hasWildcard suffix then
        (node, .err .invalidParamSegment)
      else
        insertSuffix remapping val node hasSuffix terminator remaining

def insertStaticChild (node : Node T) (next : UInt8)
    (remaining : UnescapedRef) : Node T × Outcome InsertError Unit :=
  let indexed : Node T := { node with indices := node.indices ++ [next] }
  let added := indexed.addChild empty
  let updated := added.1.updateChildPriority added.2
  match updated.1.children[updated.2]? with
  | some child =>
    let below := insertRoute remapping val (remaining.inner.length + 1) child remaining
    (updated.1.putChild updated.2 below.1, below.2)
  | none => (updated.1, .panic)

/-- The walk at a node without a matching child: check the remaining segment
for a prefix-suffix conflict and create a static child. -/
def walkStaticChild (node : Node T) (next : UInt8)
    (remaining : UnescapedRef) : Node T × Outcome InsertError Unit :=
  let segment := remaining.sliceUntil (segmentEnd remaining.inner)
  match findWildcard segment with
  | .ok (some (start, stop)) =>
    if 0 < start && node.suffixWildChildInSegment then
      (node, conflict route remaining node)
    else if !emptyOrSlash (segment.sliceOff stop).inner && node.prefixWildChildInSegment then
      (node, conflict route remaining node)
    else
      insertStaticChild remapping val node next remaining
  | _ => insertStaticChild remapping val node next remaining

/-- A route with a matching prefix but without the suffix that the parameter
node has. -/
def lacksSuffix (node child : Node T) (remaining : UnescapedRef) : Bool :=
  !endsWithSlash node.pfx.inner && child.nodeType = .param true &&
    match findWildcard (remaining.sliceUntil (terminatorOf remaining.inner)) with
    | .ok (some (_, stop)) => emptyOrSlash (remaining.sliceOff stop).inner
    | _ => false

/-- The walk at a node that already has a wildcard child: make sure that it
matches. -/
def walkWildChild (node : Node T) (remaining : UnescapedRef) : Node T × Outcome InsertError Unit :=
  let i := node.children.length - 1
  match node.children[i]? with
  | none => (node, .panic)
  | some wild =>
    let child := wild.bump
    let node := node.putChild i child
    if child.pfx.inner.length ≤ remaining.inner.length ∧
        remaining.inner.take child.pfx.inner.length ≠ child.pfx.inner then
      (node, conflict route remaining child)
    else if child.nodeType = .catchAll then
      (node, conflict route remaining child)
    else if lacksSuffix node child remaining then
      (node, conflict route remaining node)
    else
      descendInto descend node i child remaining

def walkNewWildcard (node : Node T) (common : Nat) (commonRemaining remaining : UnescapedRef) :
    Node T × Outcome InsertError Unit :=
  let create := insertRoute remapping val (remaining.inner.length + 1) node remaining
  match findWildcard remaining with
  | .ok (some (_, stop)) =>
    if !emptyOrSlash (remaining.sliceOff stop).inner && node.prefixWildChildInSegment then
      (node, conflict route remaining node)
    else if 0 < common &&
        (commonRemaining.inner[common - 1]? ≠ some slash) && node.suffixWildChildInSegment then
      (node, conflict route remaining node)
    else
      create
  | _ => create

def walkStatic (node : Node T) (common : Nat) (next : UInt8)
    (commonRemaining remaining : UnescapedRef) :
    Node T × Outcome InsertError Unit :=
  let wildcard := (next = openBrace || next = closeBrace) && !remaining.isEscaped 0
  match if wildcard then none else node.indices.findIdx? (· = next) with
  | some i =>
    let updated := node.updateChildPriority i
    match updated.1.children[updated.2]? with
    | some child => descendInto descend updated.1 updated.2 child remaining
    | none => (updated.1, .panic)
  | none =>
    if (next ≠ openBrace || remaining.isEscaped 0) && node.nodeType ≠ .catchAll then
      walkStaticChild route remapping val node next remaining
    else if node.wildChild then
      walkWildChild route descend node remaining
    else
      walkNewWildcard route remapping val node common commonRemaining remaining

/-- One round of the loop of `insert`, after the node was forked at its common
prefix with the route. -/
def walkForked (parent : Option (Node T → Node T)) (node : Node T)
    (common : Nat) (remaining : UnescapedRef) :
    Node T × Outcome InsertError Unit :=
  match remaining.inner.drop common with
  | [] =>
    match node.value with
    | some _ => (node, conflict route remaining node)
    | none => ({ node with value := some val, remapping := remapping }, .ok ())
  | next :: _ =>
    let rest := remaining.sliceOff common
    match node.nodeType with
    | .param hasSuffix => walkParam route remapping val descend parent node hasSuffix remaining rest
    | _ => walkStatic route remapping val descend node common next remaining rest

end Walk

/-- The loop of `insert` at a node with `parent` above it.  A round that forks
the node is followed by one that finds the same common prefix, so both are one
step here.  Every other round continues at a child of the tree as it was.  The
source leaves this bound only when it continues at the child it just forked
off, whose first byte then differs from the route in nothing but its escape
flag: it forks that child again, and so on forever. -/
def walk (route : UnescapedRoute) (remapping : ParamRemapping) (val : T) :
    Nat → Option (Node T → Node T) → Node T → UnescapedRef → Node T × Outcome InsertError Unit
  | 0, _, node, _ => (node, .panic)
  | rounds + 1, parent, node, remaining =>
    let common := node.commonPrefix remaining
    let node := if common < node.pfx.inner.length then node.fork common else node
    walkForked route remapping val (walk route remapping val rounds) parent node common remaining

def insert (self : Node T) (text : Bytes) (val : T) : Node T × Outcome InsertError Unit :=
  match normalizeParams (UnescapedRoute.new text) with
  | .err error => (self, .err error)
  | .panic => (self, .panic)
  | .ok (route, remapping) =>
    let self := self.bump
    if self.value.isNone && self.children.isEmpty then
      let inserted := insertRoute remapping val (route.inner.length + 1) self route.asRef
      match inserted.2 with
      | .ok () => ({ inserted.1 with nodeType := .root }, .ok ())
      | failed => (inserted.1, failed)
    else
      walk route remapping val self.height none self route.asRef

end Node

end Ophan.Router
