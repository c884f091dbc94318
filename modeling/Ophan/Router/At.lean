import Ophan.Router.Remove

/-!
# Looking up a path

`Node.atPath` walks down the tree along the path, static children first.  Where it
passes by a wildcard child it remembers the node, and when the walk stops it
goes back to the last such node and continues at the wildcard.
-/

namespace Ophan.Router

universe u

inductive MatchError where
  | notFound
  | methodNotAllowed
  | hostNotFound
  deriving DecidableEq, Repr

structure Skipped (T : Type u) where
  node : Node T
  path : Bytes
  params : Nat

structure AtState (T : Type u) where
  node : Node T
  path : Bytes
  backtracking : Bool
  params : Params
  skipped : List (Skipped T)

/-- The end of a round of the inner loop: it continues, leaves the loop with
the remaining path and the skipped nodes, or returns from `at`. -/
inductive Walked (T : Type u) where
  | next (state : AtState T)
  | stop (path : Bytes) (skipped : List (Skipped T))
  | done (result : Outcome MatchError (T × Params))

namespace Node

variable {T : Type u}

/-- Remap the keys of the accumulated parameters and return the value. -/
def found (node : Node T) (value : T) (params : Params) : Outcome MatchError (T × Params) :=
  match params.forEachKeyMut node.remapping with
  | some renamed => .ok (value, renamed)
  | none => .panic

def atParam (node : Node T) (state : AtState T) : Walked T :=
  let path := state.path
  match path.findIdx? (· = slash) with
  | some 0 => .stop path state.skipped
  | some i =>
    match node.children with
    | [child] =>
      .next
        { node := child
          path := path.drop i
          backtracking := false
          params := state.params.push [] (path.take i)
          skipped := state.skipped }
    | _ => .stop path state.skipped
  | none =>
    match node.value with
    | some value => .done (node.found value (state.params.push [] path))
    | none => .stop path state.skipped

def fitsSuffix (segment : Bytes) (child : Node T) : Bool :=
  child.pfx.inner.length < segment.length &&
    segment.drop (segment.length - child.pfx.inner.length) = child.pfx.inner

def atSuffix (node : Node T) (state : AtState T) : Walked T :=
  let path := state.path
  let slashAt := path.findIdx? (· = slash)
  if slashAt = some 0 then
    .stop path state.skipped
  else
    let terminator := terminatorOf path
    match node.children.find? (fitsSuffix (path.take terminator)) with
    | some child =>
      let suffixStart := terminator - child.pfx.inner.length
      .next
        { node := child
          path := path.drop suffixStart
          backtracking := false
          params := state.params.push [] ((path.take terminator).take suffixStart)
          skipped := state.skipped }
    | none =>
      match node.value with
      | some value =>
        if slashAt.isNone then
          .done (node.found value (state.params.push [] path))
        else
          .stop path state.skipped
      | none => .stop path state.skipped

def atCatchAll (node : Node T) (state : AtState T) : Walked T :=
  match node.value with
  | none => .done (.err .notFound)
  | some value =>
    match state.params.forEachKeyMut node.remapping with
    | none => .done .panic
    | some renamed =>
      let key := (node.pfx.inner.take (node.pfx.inner.length - 1)).drop 2
      .done (.ok (value, renamed.push key state.path))

/-- The inner loop at the wildcard child of a node; `state` holds the rest of
the path behind the prefix of that node. -/
def atWildcard (node : Node T) (state : AtState T) : Walked T :=
  if !node.wildChild then
    .stop state.path state.skipped
  else
    match node.children.getLast? with
    | none => .done .panic
    | some wild =>
      match wild.nodeType with
      | .param false => wild.atParam state
      | .param true => wild.atSuffix state
      | .catchAll => wild.atCatchAll state
      | _ => .done .panic

def atChildren (node : Node T) (state : AtState T) (rest : Bytes) : Walked T :=
  match if state.backtracking then none else node.indices.findIdx? (rest.head? = some ·) with
  | some i =>
    match node.children[i]? with
    | none => .done .panic
    | some child =>
      .next
        { state with
          node := child
          path := rest
          skipped :=
            if node.wildChild then
              { node := node, path := state.path,
                params := state.params.len } :: state.skipped
            else
              state.skipped }
  | none => node.atWildcard { state with path := rest }

def atRound (state : AtState T) : Walked T :=
  let node := state.node
  let path := state.path
  if path.length ≤ node.pfx.inner.length then
    if path = node.pfx.inner then
      match node.value with
      | some value => .done (node.found value state.params)
      | none => .stop path state.skipped
    else
      .stop path state.skipped
  else if path.take node.pfx.inner.length ≠ node.pfx.inner then
    .stop path state.skipped
  else
    node.atChildren state (path.drop node.pfx.inner.length)

/-- `while let Some(skipped) = skipped.pop()`: the last skipped node whose
path ends with the current one. -/
def popSkipped (path : Bytes) : List (Skipped T) → Option (Skipped T × List (Skipped T))
  | [] => none
  | skipped :: rest =>
    if path.isSuffixOf skipped.path then
      some (skipped, rest)
    else
      popSkipped path rest

def atLoop : Nat → AtState T → Outcome MatchError (T × Params)
  | 0, _ => .panic
  | rounds + 1, state =>
    match atRound state with
    | .next state => atLoop rounds state
    | .done result => result
    | .stop path skipped =>
      match popSkipped path skipped with
      | none => .err .notFound
      | some (last, skipped) =>
        atLoop rounds
          { node := last.node
            path := last.path
            backtracking := true
            params := state.params.truncate last.params
            skipped := skipped }

/-- Returns the value of the node matching the given path, and the parameters.
Every node is visited at most twice, the second time when the lookup goes back
to it. -/
def atPath (self : Node T) (path : Bytes) : Outcome MatchError (T × Params) :=
  atLoop (2 * self.size)
    { node := self
      path := path
      backtracking := false
      params := Params.new
      skipped := [] }

end Node

end Ophan.Router
