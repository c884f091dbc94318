import Ophan.Lib.BinarySearch
import Ophan.Lib.Str

/-!
# The tries of the rewrite engine

A trie is a vector of nodes, each with its children as pairs of a byte and an
index, sorted by the byte.  `find_best` walks down a text and keeps the rule
with the lowest priority number.

Priorities are unbounded; `u32::MAX`, which stands for none, is `none`.  So is
the panic of an index outside of the nodes, which never happens.
-/

namespace Ophan.Rewrite

open Lib

structure CompactNode where
  rule : Option (Nat × Str)
  children : List (UInt8 × Nat)
  deriving DecidableEq, Repr

structure FlatTrie where
  nodes : List CompactNode
  minPrio : Option Nat
  deriving DecidableEq, Repr

def CompactNode.default : CompactNode where
  rule := none
  children := []

namespace CompactNode

/-- `partition_point(|&(c, _)| c < b)` -/
def position (node : CompactNode) (b : UInt8) : Nat :=
  partitionPoint (fun child => decide (child.1 < b)) node.children

def child (node : CompactNode) (b : UInt8) : Option Nat :=
  (node.children[node.position b]?.filter (·.1 = b)).map (·.2)

end CompactNode

/-- Whether a priority is lower than the best one so far. -/
def isBelow (prio : Nat) : Option Nat → Bool
  | none => true
  | some best => prio < best

structure Found where
  len : Nat
  replacement : Str
  prio : Nat
  deriving DecidableEq, Repr

namespace FlatTrie

def new : FlatTrie where
  nodes := [CompactNode.default]
  minPrio := none

/-- `self.nodes.push(..)` and `children.insert(at, ..)` -/
def grow (nodes : List CompactNode) (current : Nat) (node : CompactNode)
    (b : UInt8) : List CompactNode :=
  (nodes ++ [CompactNode.default]).set current
    { node with
      children := node.children.insertIdx (node.position b) (b, nodes.length) }

/-- The loop of `insert`: the nodes, and the index of the last one. -/
def descend (nodes : List CompactNode) (current : Nat) :
    Bytes → Option (List CompactNode × Nat)
  | [] => some (nodes, current)
  | b :: rest =>
    match nodes[current]? with
    | none => none
    | some node =>
      match node.child b with
      | some next => descend nodes next rest
      | none => descend (grow nodes current node b) nodes.length rest

def insert (trie : FlatTrie) (key : Bytes) (replacement : Str) (priority : Nat) : Option FlatTrie :=
  (descend trie.nodes 0 key).bind fun (nodes, last) =>
    nodes[last]?.map fun node =>
      { nodes :=
          if node.rule.isNone then
            nodes.set last { node with rule := some (priority, replacement) }
          else
            nodes
        minPrio :=
          if isBelow priority trie.minPrio then some priority
          else trie.minPrio }

/-- The better one of the best rule so far and the rule of a node. -/
def better (best : Option Found) (node : CompactNode) (consumed : Nat) : Option Found :=
  match node.rule with
  | none => best
  | some (prio, replacement) =>
    if isBelow prio (best.map (·.prio)) then some ⟨consumed, replacement, prio⟩
    else best

def findLoop (nodes : List CompactNode) (current consumed : Nat)
    (best : Option Found) : Bytes → Option (Option Found)
  | [] => some best
  | b :: rest =>
    match nodes[current]? with
    | none => none
    | some node =>
      match node.child b with
      | none => some best
      | some next =>
        match nodes[next]? with
        | none => none
        | some child => findLoop nodes next (consumed + 1) (better best child (consumed + 1)) rest

def findBest (trie : FlatTrie) (text : Bytes) : Option (Option Found) :=
  trie.nodes[0]?.bind fun root => findLoop trie.nodes 0 0 (better none root 0) text

end FlatTrie

end Ophan.Rewrite
