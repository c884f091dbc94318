import Ophan.Glob.Pattern

/-!
# Glob sets

A set of patterns is a literal, a set of literals, or a trie of tokens.  The
bytes of the literals and of the alternatives stand in one arena; the nodes of
the trie stand in one vector, the children of a node next to each other.
Matching walks the trie with a stack of at most 64 frames.
-/

namespace Ophan.Glob

/-- A token of the trie.  Literals and groups are ranges of the arena and of
the group spans, so two of them are equal only at the same place. -/
inductive NodeToken where
  | literal (start stop : Nat)
  | wildcard
  | deepWildcard
  | deepWildcardDir
  | anyChar
  | group (start stop : Nat)
  | charClass (bitmap : BitVec 256) (negated : Bool)
  deriving DecidableEq, Repr

structure Node where
  token : NodeToken
  children : Nat × Nat
  isTerminal : Bool
  deriving DecidableEq, Repr

structure GroupSpan where
  start : Nat
  stop : Nat
  deriving DecidableEq, Repr

structure Store where
  arena : Bytes
  groupSpans : List GroupSpan
  deriving DecidableEq, Repr

def Store.empty : Store := ⟨[], []⟩

/-- `&arena[start..stop]` -/
def Store.slice (store : Store) (start stop : Nat) : Bytes :=
  (store.arena.drop start).take (stop - start)

def Store.options (store : Store) (start stop : Nat) : List Bytes :=
  ((store.groupSpans.drop start).take (stop - start)).map fun span =>
    store.slice span.start span.stop

def Store.addOption (store : Store) (option : Bytes) : Store where
  arena := store.arena ++ option
  groupSpans := store.groupSpans ++ [⟨store.arena.length, (store.arena ++ option).length⟩]

def lowerToken (tok : Tok) (store : Store) : NodeToken × Store :=
  match tok with
  | .literal text =>
    (.literal store.arena.length (store.arena ++ text).length,
      { store with arena := store.arena ++ text })
  | .wildcard => (.wildcard, store)
  | .deepWildcard => (.deepWildcard, store)
  | .deepWildcardDir => (.deepWildcardDir, store)
  | .anyChar => (.anyChar, store)
  | .charClass bitmap negated => (.charClass bitmap negated, store)
  | .group options =>
    let lowered := options.foldl Store.addOption store
    (.group store.groupSpans.length lowered.groupSpans.length, lowered)

structure Temp where
  token : NodeToken
  isTerminal : Bool
  children : List Temp

/-- Put the tokens of one pattern below `level`, sharing a node whose token is
equal. -/
def addPath : List Tok → Store → List Temp → Store × List Temp
  | [], store, level => (store, level)
  | tok :: rest, store, level =>
    let isLast := rest.isEmpty
    let (nodeTok, store) := lowerToken tok store
    match level.findIdx? fun node => node.token == nodeTok with
    | some pos =>
      match level[pos]? with
      | some node =>
        let (store, children) := addPath rest store node.children
        (store, level.set pos ⟨node.token, node.isTerminal || isLast, children⟩)
      | none => (store, level)
    | none =>
      let (store, children) := addPath rest store []
      (store, level ++ [⟨nodeTok, isLast, children⟩])

def buildTrie (patterns : List GlobPattern) : Store × List Temp :=
  patterns.foldl (fun (built : Store × List Temp) pattern =>
    addPath pattern.tokens built.1 built.2) (Store.empty, [])

def Temp.placed (temp : Temp) : Node := ⟨temp.token, (0, 0), temp.isTerminal⟩

mutual

/-- Place the children of one node and everything below them. -/
def flattenNode : Temp → List Node → (Nat × Nat) × List Node
  | ⟨_, _, children⟩, out =>
    if children.isEmpty then ((0, 0), out)
    else
      let start := out.length
      let out := out ++ children.map Temp.placed
      ((start, out.length), flattenEach children start out)

/-- Place what is below the nodes that stand at `pos` and after it. -/
def flattenEach : List Temp → Nat → List Node → List Node
  | [], _, out => out
  | temp :: rest, pos, out =>
    let (range, out) := flattenNode temp out
    flattenEach rest (pos + 1) (out.modify pos fun node => { node with children := range })

end

def flatten (temps : List Temp) (out : List Node) : (Nat × Nat) × List Node :=
  if temps.isEmpty then ((0, 0), out)
  else
    let start := out.length
    let out := out ++ temps.map Temp.placed
    ((start, out.length), flattenEach temps start out)

inductive FastPath where
  | exact (set : List Bytes)
  | singleLiteral (literal : Bytes)
  | general
  deriving DecidableEq, Repr

structure PathMatcherSet extends Store where
  nodes : List Node
  root : Nat × Nat
  fast : Option FastPath
  deriving DecidableEq, Repr

/-- The literal of a pattern that is nothing else. -/
def GlobPattern.literal? (pattern : GlobPattern) : Option Bytes :=
  match pattern.tokens with
  | [.literal text] => some text
  | _ => none

namespace PathMatcherSet

def plain (fast : Option FastPath) : PathMatcherSet where
  arena := []
  groupSpans := []
  nodes := []
  root := (0, 0)
  fast := fast

def fromPatterns (patterns : List GlobPattern) : PathMatcherSet :=
  if patterns.isEmpty then plain none
  else if patterns.all fun pattern => pattern.literal?.isSome then
    match patterns.filterMap GlobPattern.literal? with
    | [text] => plain (some (.singleLiteral text))
    | texts => plain (some (.exact texts))
  else
    let (store, rootChildren) := buildTrie patterns
    let (root, nodes) := flatten rootChildren []
    { store with nodes := nodes, root := root, fast := some .general }

def compilePatterns : List Bytes → Except GlobError (List GlobPattern)
  | [] => .ok []
  | pattern :: rest =>
    match GlobPattern.compile pattern with
    | .error error => .error error
    | .ok compiled =>
      match compilePatterns rest with
      | .error error => .error error
      | .ok others => .ok (compiled :: others)

def compile (patterns : List Bytes) : Except GlobError PathMatcherSet :=
  match compilePatterns patterns with
  | .ok parsed => .ok (fromPatterns parsed)
  | .error error => .error error

/-- What stands behind the end of the vector.  The ranges of a set stay inside
it, so this is never read. -/
def missing : Node := ⟨.anyChar, (0, 0), false⟩

def node (set : PathMatcherSet) (idx : Nat) : Node := set.nodes.getD idx missing

end PathMatcherSet

def maxStackDepth : Nat := 64

structure MatchFrame where
  input : Bytes
  childStart : Nat
  childEnd : Nat
  progress : Nat
  deriving DecidableEq, Repr

/-- One turn of the loop returns, or leaves a stack, its top first. -/
inductive Round where
  | done (found : Bool)
  | next (stack : List MatchFrame)
  deriving DecidableEq, Repr

/-- Push the children of a node, unless the stack is full. -/
def pushChildren (node : Node) (next : Bytes) (stack : List MatchFrame) : Round :=
  if node.children.1 < node.children.2 then
    if stack.length ≥ maxStackDepth then .done false
    else .next (⟨next, node.children.1, node.children.2, 0⟩ :: stack)
  else .next stack

/-- Go on behind a token that left `next`. -/
def enter (node : Node) (next : Bytes) (stack : List MatchFrame) : Round :=
  if next.isEmpty && node.isTerminal then .done true
  else pushChildren node next stack

def afterSlash : Bytes → Option Bytes
  | [] => none
  | b :: rest => if b = slash then some rest else afterSlash rest

/-- The slashes already tried are skipped again.  Where none is left the
source moves the frame on and goes round again, in this inner loop. -/
def skipDirs : Nat → Bytes → MatchFrame → Bytes × MatchFrame
  | 0, slice, frame => (slice, frame)
  | left + 1, slice, frame =>
    match afterSlash slice with
    | some rest => skipDirs left rest frame
    | none => skipDirs left slice { frame with progress := 0, childStart := frame.childStart + 1 }

/-- The alternatives of a group, the last one first; `pushed` are the frames
already put on top of the stack. -/
def groupRound (node : Node) (remaining : Bytes) (stack : List MatchFrame) :
    List Bytes → List MatchFrame → Round
  | [], pushed => .next (pushed ++ stack)
  | option :: rest, pushed =>
    if option.isPrefixOf remaining then
      let next := remaining.drop option.length
      if next.isEmpty && node.isTerminal then .done true
      else if node.children.1 < node.children.2 then
        if stack.length + pushed.length ≥ maxStackDepth then .done false
        else
          groupRound node remaining stack rest
            (⟨next, node.children.1, node.children.2, 0⟩ :: pushed)
      else groupRound node remaining stack rest pushed
    else groupRound node remaining stack rest pushed

namespace PathMatcherSet

/-- Whether a node accepts the end of the input.  For `**` and `**/` the source
does not ask whether the pattern ends there. -/
def acceptsEnd (set : PathMatcherSet) (node : Node) : Bool :=
  match node.token with
  | .deepWildcard | .deepWildcardDir => true
  | .wildcard => node.isTerminal
  | .group start stop =>
    node.isTerminal &&
      ((set.groupSpans.drop start).take (stop - start)).any fun span => span.start == span.stop
  | _ => false

/-- One turn on a frame with input left and a child to try. -/
def nodeRound (set : PathMatcherSet) (frame : MatchFrame) (below : List MatchFrame) : Round :=
  let node := set.node frame.childStart
  let remaining := frame.input
  let moved := { frame with childStart := frame.childStart + 1 }
  match node.token with
  | .literal start stop =>
    let literal := set.slice start stop
    if literal.isPrefixOf remaining then
      enter node (remaining.drop literal.length) (moved :: below)
    else .next (moved :: below)
  | .wildcard =>
    let offset := frame.progress
    if offset ≤ remaining.length ∧ (offset = 0 ∨ remaining[offset - 1]? ≠ some slash) then
      enter node (remaining.drop offset) ({ frame with progress := frame.progress + 1 } :: below)
    else .next ({ moved with progress := 0 } :: below)
  | .deepWildcard | .deepWildcardDir =>
    if node.isTerminal then .done true
    else if frame.progress = 0 then
      pushChildren node remaining ({ frame with progress := 1 } :: below)
    else
      let (slice, frame) := skipDirs (frame.progress - 1) remaining frame
      match afterSlash slice with
      | some next => pushChildren node next ({ frame with progress := frame.progress + 1 } :: below)
      | none =>
        .next ({ frame with
          progress := 0, childStart := frame.childStart + 1 } :: below)
  | .anyChar =>
    match remaining with
    | [] => .next (moved :: below)
    | b :: next =>
      if b ≠ slash then enter node next (moved :: below)
      else .next (moved :: below)
  | .charClass bitmap negated =>
    match remaining with
    | [] => .next (moved :: below)
    | b :: next =>
      if testBit bitmap b ≠ negated then enter node next (moved :: below)
      else .next (moved :: below)
  | .group start stop =>
    groupRound node remaining (moved :: below) (set.options start stop).reverse []

def round (set : PathMatcherSet) : List MatchFrame → Round
  | [] => .done false
  | frame :: below =>
    if frame.input.isEmpty then
      if (List.range' frame.childStart
          (frame.childEnd - frame.childStart)).any fun idx =>
            set.acceptsEnd (set.node idx) then .done true
      else .next below
    else if frame.childStart ≥ frame.childEnd then .next below
    else set.nodeRound frame below

def run (set : PathMatcherSet) : Nat → List MatchFrame → Bool
  | 0, _ => false
  | rounds + 1, stack =>
    match set.round stack with
    | .done found => found
    | .next stack => set.run rounds stack

/-- More turns than the loop can take. -/
def rounds (set : PathMatcherSet) (input : Bytes) : Nat :=
  (2 * (input.length + set.groupSpans.length + 2) + 1) ^ set.nodes.length + 1

def matchesBacktrack (set : PathMatcherSet) (input : Bytes) : Bool :=
  if set.nodes.isEmpty then false
  else
    set.run (set.rounds input) [⟨input, set.root.1, set.root.2, 0⟩]

def isMatch (set : PathMatcherSet) (input : Bytes) : Bool :=
  match set.fast with
  | none => false
  | some (.singleLiteral literal) => input == literal
  | some (.exact set) => set.contains input
  | some .general => set.matchesBacktrack input

end PathMatcherSet

/-- The documented examples `*.html` and `usr/**/data`. -/
example :
    (PathMatcherSet.compile [[42, 46, 104], [117, 47, 42, 42, 47, 100]]).map
        (fun set => (set.isMatch [105, 46, 104], set.isMatch [102, 47, 46, 104],
          set.isMatch [117, 47, 97, 47, 98, 47, 100])) =
      .ok (true, false, true) := by
  decide

end Ophan.Glob
