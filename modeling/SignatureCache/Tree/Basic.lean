import SignatureCache.DyadicInterval.Word
import SignatureCache.Tree.Node
import Std.Data.ExtTreeMap

/-!
# The tree of cached intervals

A tree is an ordered map from dyadic intervals to nodes; nodes are never removed. In key order an
interval comes directly before the intervals nested in it, so the nodes under an interval are one
run of the map, and the first key of a cache contains all others.

Keys are compared exactly here, whatever their numbers are. What a cache at work can compare is a
matter of the shelf that keeps the tree.
-/

namespace SignatureCache

/-- An ordered map from intervals to nodes. -/
structure Tree (V : Type) where
  nodes : Std.ExtTreeMap DyadicInterval (Node V) := ∅

namespace Tree

variable {V : Type}

/-- The tree without nodes. -/
def empty : Tree V := {}

/-- The number of nodes. -/
def size (t : Tree V) : Nat :=
  t.nodes.size

/-- Whether nothing is cached. -/
def isEmpty (t : Tree V) : Bool :=
  t.nodes.isEmpty

/-- The node of an interval. -/
def find? (t : Tree V) (key : DyadicInterval) : Option (Node V) :=
  t.nodes[key]?

/-- Whether an interval has a node. -/
def contains (t : Tree V) (key : DyadicInterval) : Bool :=
  t.nodes.contains key

/-- All keys, in order. -/
def keys (t : Tree V) : List DyadicInterval :=
  t.nodes.keys

/-- All keys with their nodes, in order. -/
def entries (t : Tree V) : List (DyadicInterval × Node V) :=
  t.nodes.toList

/-- The first key with its node. -/
def first? (t : Tree V) : Option (DyadicInterval × Node V) :=
  t.nodes.minEntry?

/-- The first key: of all keys with the least left end, the coarsest. -/
def root? (t : Tree V) : Option DyadicInterval :=
  t.nodes.minKey?

/-- The keys nested in `top` with their nodes: those from `top` on, up to the first that is not. -/
def under (t : Tree V) (top : DyadicInterval) : List (DyadicInterval × Node V) :=
  (t.entries.dropWhile fun entry => compare entry.1 top == .lt).takeWhile fun entry =>
    top.contains entry.1

/-- The first key that does not come before `key`. -/
def nextFrom? (t : Tree V) (key : DyadicInterval) : Option DyadicInterval :=
  t.nodes.getKeyGE? key

/-- The first key that comes after `key`. -/
def nextAfter? (t : Tree V) (key : DyadicInterval) : Option DyadicInterval :=
  t.nodes.getKeyGT? key

/-- Whether an interval has no nodes below it. Halves are cached in pairs, so the left one
decides. -/
def isLeaf? (t : Tree V) (key : DyadicInterval) : Except Fault Bool := do
  return !t.contains (← key.left?)

/-- The accuracy of a cached interval. -/
def accuracy? (t : Tree V) (key : DyadicInterval) : Option Int :=
  (t.find? key).map Node.accuracy

/-- The parent link of a cached interval. -/
def parent? (t : Tree V) (key : DyadicInterval) : Option DyadicInterval :=
  (t.find? key).bind Node.parent?

/-- The sibling link of a cached interval. -/
def sibling? (t : Tree V) (key : DyadicInterval) : Option DyadicInterval :=
  (t.find? key).bind Node.sibling?

/-- The tree with the node of one interval set. -/
def put (t : Tree V) (key : DyadicInterval) (node : Node V) : Tree V :=
  ⟨t.nodes.insert key node⟩

end Tree

end SignatureCache
