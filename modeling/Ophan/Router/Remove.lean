import Ophan.Router.Insert

/-!
# Removing a route

`Node.remove` walks down the tree along the bytes of the normalized route.  It
compares neither the escape flags of the route nor, on the way down, the names
of its parameters; the names are compared at the node that holds the value,
except at the root.
-/

namespace Ophan.Router

universe u

namespace Node

variable {T : Type u}

/-- `matches!(node_type, NodeType::Param { .. })` -/
def isParam (node : Node T) : Bool :=
  match node.nodeType with
  | .param _ => true
  | _ => false

/-- Remove the child node at the given index, if the route parameters match. -/
def removeChild (node : Node T) (i : Nat) (remapping : ParamRemapping) :
    Node T × Outcome Empty (Option T) :=
  match node.children[i]? with
  | none => (node, .panic)
  | some child =>
    if child.remapping ≠ remapping then
      (node, .ok none)
    else if child.children.isEmpty then
      let dropped : Node T := { node with children := node.children.eraseIdx i }
      if child.nodeType = .static && !node.isParam then
        if i < node.indices.length then
          ({ dropped with indices := node.indices.eraseIdx i }, .ok child.value)
        else
          (dropped, .panic)
      else
        ({ dropped with wildChild := false }, .ok child.value)
    else
      (node.putChild i { child with value := none }, .ok child.value)

section RemoveWalk

variable (remapping : ParamRemapping)
variable (descend : Node T → Bytes → Node T × Outcome Empty (Option T))

def removeInto (node : Node T) (i : Nat) (remaining : Bytes) : Node T × Outcome Empty (Option T) :=
  match node.children[i]? with
  | some child =>
    let below := descend child remaining
    (node.putChild i below.1, below.2)
  | none => (node, .panic)

/-- Remove the `i`-th child if it holds all of the remaining route, otherwise
continue there. -/
def removeAt (node : Node T) (i : Nat) (remaining : Bytes) : Node T × Outcome Empty (Option T) :=
  match node.children[i]? with
  | some child =>
    if child.pfx.inner = remaining then
      node.removeChild i remapping
    else
      removeInto descend node i remaining
  | none => (node, .panic)

/-- The rest of a round of `remove` behind the search for a suffix. -/
def removeBelow (node : Node T) (next : UInt8) (remaining : Bytes) :
    Node T × Outcome Empty (Option T) :=
  match node.indices.findIdx? (· = next) with
  | some i => removeAt remapping descend node i remaining
  | none =>
    if node.wildChild then
      removeAt remapping descend node (node.children.length - 1) remaining
    else
      (node, .ok none)

def removeRound (node : Node T) (remaining : Bytes) : Node T × Outcome Empty (Option T) :=
  if remaining.length ≤ node.pfx.inner.length then
    (node, .ok none)
  else if remaining.take node.pfx.inner.length ≠ node.pfx.inner then
    (node, .ok none)
  else
    match remaining.drop node.pfx.inner.length with
    | [] => (node, .ok none)
    | next :: rest =>
      let remaining := next :: rest
      let terminator := terminatorOf remaining
      match if node.isParam then
          node.children.findIdx? fun child => child.pfx.inner = remaining.take terminator
        else none with
      | some i =>
        if terminator = remaining.length then
          node.removeChild i remapping
        else
          removeInto descend node i remaining
      | none => removeBelow remapping descend node next remaining

end RemoveWalk

/-- The loop of `remove`; every round continues at a child, so that the height
of the tree bounds their number. -/
def removeWalk (remapping : ParamRemapping) :
    Nat → Node T → Bytes → Node T × Outcome Empty (Option T)
  | 0, node, _ => (node, .panic)
  | rounds + 1, node, remaining =>
    removeRound remapping (removeWalk remapping rounds) node remaining

def remove (self : Node T) (text : Bytes) : Node T × Outcome Empty (Option T) :=
  match normalizeParams (UnescapedRoute.new text) with
  | .err _ => (self, .ok none)
  | .panic => (self, .panic)
  | .ok (route, remapping) =>
    if route.inner = self.pfx.inner then
      if self.children.isEmpty then
        (empty, .ok self.value)
      else
        ({ self with value := none }, .ok self.value)
    else
      removeWalk remapping self.height self route.inner

end Node

end Ophan.Router
