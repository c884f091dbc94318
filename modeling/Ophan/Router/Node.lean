import Ophan.Lib.BinarySearch
import Ophan.Lib.Utf8
import Ophan.Router.Params

/-!
# The routing tree

A node holds a part of a route, the value of the route that ends at it, and
its children: the static ones in the order of `indices`, which holds their
first bytes, and a wildcard child behind them.  The children of a parameter
node are the static suffixes of the parameter, by descending length.
-/

namespace Ophan.Router

universe u

inductive NodeType where
  | root
  | param (suffix : Bool)
  | catchAll
  | static
  deriving DecidableEq, Repr

structure Node (T : Type u) where
  pfx : UnescapedRoute
  priority : Nat
  wildChild : Bool
  indices : Bytes
  nodeType : NodeType
  children : List (Node T)
  value : Option T
  remapping : ParamRemapping

namespace Node

variable {T : Type u}

/-- `Node::default` -/
def empty : Node T where
  pfx := UnescapedRoute.empty
  priority := 0
  wildChild := false
  indices := []
  nodeType := .static
  children := []
  value := none
  remapping := []

mutual

def height : Node T → Nat
  | ⟨_, _, _, _, _, children, _, _⟩ => heightOfList children + 1

def heightOfList : List (Node T) → Nat
  | [] => 0
  | child :: rest => max child.height (heightOfList rest)

end

mutual

def size : Node T → Nat
  | ⟨_, _, _, _, _, children, _, _⟩ => sizeOfList children + 1

def sizeOfList : List (Node T) → Nat
  | [] => 0
  | child :: rest => child.size + sizeOfList rest

end

/-! ## Changing the children -/

/-- Adds a child to this node, keeping wildcards at the end, and returns its
index. -/
def addChild (node : Node T) (child : Node T) : Node T × Nat :=
  let len := node.children.length
  if node.wildChild && 0 < len then
    ({ node with
        children := node.children.take (len - 1) ++ child :: node.children.drop (len - 1) },
      len - 1)
  else
    ({ node with children := node.children ++ [child] }, len)

/-- Adds a suffix child to this node, behind the suffixes that are at least as
long. -/
def addSuffixChild (node : Node T) (child : Node T) : Node T :=
  let i := Lib.partitionPoint (fun other => child.pfx.inner.length ≤ other.pfx.inner.length)
    node.children
  { node with
    children := node.children.take i ++ child :: node.children.drop i }

/-- `swap(i, i + 1)` -/
def swapNext {α : Type u} : List α → Nat → List α
  | a :: b :: rest, 0 => b :: a :: rest
  | a :: rest, i + 1 => a :: swapNext rest i
  | [], _ => []
  | [a], 0 => [a]

/-- The loop of `update_child_priority`: the node at `updated` moves to the
front past the nodes of lower priority. -/
def moveToFront (priority : Nat) : Nat → List (Node T) → List (Node T) × Nat
  | 0, children => (children, 0)
  | updated + 1, children =>
    match children[updated]? with
    | some before =>
      if before.priority < priority then
        moveToFront priority updated (swapNext children updated)
      else
        (children, updated + 1)
    | none => (children, updated + 1)

/-- `items[start..=stop].rotate_right(1)` -/
def rotateRight {α : Type u} (items : List α) (start stop : Nat) : List α :=
  items.take start ++ ((items.drop stop).take 1 ++
    ((items.drop start).take (stop - start) ++ items.drop (stop + 1)))

def bump (node : Node T) : Node T := { node with priority := node.priority + 1 }

/-- Increments the priority of the given child node, reordering the children
if necessary, and returns the new index of the node. -/
def updateChildPriority (node : Node T) (i : Nat) : Node T × Nat :=
  match node.children[i]? with
  | none => (node, i)
  | some child =>
    let bumped := node.children.set i child.bump
    let moved := moveToFront child.bump.priority i bumped
    ({ node with
        children := moved.1
        indices :=
          if moved.2 ≠ i then rotateRight node.indices moved.2 i
          else node.indices },
      moved.2)

/-! ## Wildcards within a segment -/

mutual

/-- Whether there is a wildcard node within the current route segment, i.e.
before the next trailing slash. -/
def wildChildInSegment : Node T → Bool
  | ⟨pfx, _, _, _, nodeType, children, _, _⟩ =>
    if pfx.inner.contains slash then
      false
    else
      match nodeType with
      | .param _ => true
      | _ => anyWildChildInSegment children

def anyWildChildInSegment : List (Node T) → Bool
  | [] => false
  | child :: rest => child.wildChildInSegment || anyWildChildInSegment rest

end

/-- `ends_with(b"/")` -/
def endsWithSlash (bytes : Bytes) : Bool :=
  bytes.getLast? = some slash

mutual

/-- Whether there is a wildcard node that contains a prefix within the current
route segment, i.e. before the next trailing slash. -/
def prefixWildChildInSegment : Node T → Bool
  | ⟨pfx, _, _, _, nodeType, children, _, _⟩ =>
    if nodeType = .root ∧ pfx.inner = [] then
      false
    else if endsWithSlash pfx.inner then
      anyPrefixWildChildInSegment children
    else
      anyWildChildInSegment children

def anyPrefixWildChildInSegment : List (Node T) → Bool
  | [] => false
  | child :: rest => child.prefixWildChildInSegment || anyPrefixWildChildInSegment rest

end

mutual

/-- Whether there is a wildcard parameter node that contains a suffix within
the current route segment, i.e. before a trailing slash. -/
def suffixWildChildInSegment : Node T → Bool
  | ⟨_, _, _, _, nodeType, children, _, _⟩ =>
    match nodeType with
    | .param true => true
    | _ => anySuffixWildChildInSegment children

def anySuffixWildChildInSegment : List (Node T) → Bool
  | [] => false
  | child :: rest =>
    (if child.pfx.inner.contains slash then
      false
    else
      child.suffixWildChildInSegment) ||
      anySuffixWildChildInSegment rest

end

/-! ## Conflicts -/

mutual

def firstDescendants : Node T → List (Node T)
  | ⟨_, _, _, _, _, children, _, _⟩ => firstDescendantsOfList children

def firstDescendantsOfList : List (Node T) → List (Node T)
  | [] => []
  | child :: _ => child :: child.firstDescendants

end

/-- The end of `InsertError::conflict`: the names are restored and the bytes
are taken as a string, each of which may panic. -/
def conflictWith (route : UnescapedRoute) (remapping : ParamRemapping) : Outcome InsertError Unit :=
  match denormalizeParams route remapping with
  | some restored =>
    if validUtf8 restored.inner then
      .err (.conflict restored.inner)
    else
      .panic
  | none => .panic

/-- The error for a route conflict with the given node. -/
def conflict (route : UnescapedRoute) (remaining : UnescapedRef)
    (current : Node T) : Outcome InsertError Unit :=
  if remaining.inner = current.pfx.inner then
    conflictWith route current.remapping
  else
    let kept := route.truncate (route.inner.length - remaining.inner.length)
    let joined :=
      if current.pfx.inner.isSuffixOf kept.inner then kept
      else kept.append current.pfx
    let chain := current.firstDescendants
    let whole := chain.foldl (fun text node => text.append node.pfx) joined
    let last := chain.getLastD current
    conflictWith whole last.remapping

end Node

end Ophan.Router
