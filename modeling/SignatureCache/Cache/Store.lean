import SignatureCache.Activity
import SignatureCache.Source.Basic
import SignatureCache.Tree.Shelf

/-!
# Stores and work

A store is what a cache remembers from query to query: the tree of cached intervals and the counters
of what was done. Work on a store ends in a value or a failure, and in a store either way: what was
cached and counted before a failure stays. Stores and work can be had on every shelf for trees; if
none is named, the tree is on its own.
-/

namespace SignatureCache

/-- The tree and the counters of a cache. -/
structure Store (V : Type) (τ : Type := Tree V) [Shelf V τ] where
  tree : τ := Shelf.empty
  activity : Activity := {}

/-- The store with its tree taken off the shelf. -/
def Store.plain {V τ : Type} [Shelf V τ] (s : Store V τ) : Store V where
  tree := Shelf.tree s.tree
  activity := s.activity

/-- An action on a store with its tree on a shelf. -/
abbrev WorkOn (V τ : Type) [Shelf V τ] := EStateM Failure (Store V τ)

/-- An action on a store. -/
abbrev Work (V : Type) := WorkOn V (Tree V)

namespace Work

variable {V τ α : Type} [Shelf V τ]

/-- The tree as it is now. -/
def tree : WorkOn V τ (Tree V) :=
  return (← get).plain.tree

/-- Changes the tree; a fault keeps what was changed before it. -/
def edit (change : EditOn τ α) : WorkOn V τ α := fun store =>
  match change store.tree with
  | .ok a tree => .ok a { store with tree := tree }
  | .error fault tree => .error (.fault fault) { store with tree := tree }

/-- The tree as it is now, after a search in it for a key. -/
def searched (key : DyadicInterval) : WorkOn V τ (Tree V) :=
  edit (Tree.searched key)

/-- Makes sure that the test whether one interval contains another ends. -/
def test (I J : DyadicInterval) : WorkOn V τ Unit :=
  edit (Tree.test I J)

/-- Changes the counters. -/
def count (change : Activity → Activity) : WorkOn V τ Unit :=
  modify fun store => { store with activity := change store.activity }

/-- Goes on with a value, or ends with the fault. -/
def orFault : Except Fault α → WorkOn V τ α
  | .ok a => pure a
  | .error fault => throw (.fault fault)

/-- Goes on with a value, or ends with the error. -/
def orError : Except Error α → WorkOn V τ α
  | .ok a => pure a
  | .error error => throw (.error error)

/-- Goes on with a value, or ends with a fault if there is none. -/
def orMissing (fault : Fault) : Option α → WorkOn V τ α
  | some a => pure a
  | none => throw (.fault fault)

/-- Whether an interval has no nodes below it. -/
def isLeaf (key : DyadicInterval) : WorkOn V τ Bool := do
  let left ← orFault key.left?
  return !(← searched left).contains left

/-- Lets the source compute the value of an interval, and counts it if it did. -/
def fresh (source : Source V) (I : DyadicInterval) : WorkOn V τ V := do
  let value ← orError (source.fresh (← tree).size I)
  count fun a => { a with freshComputations := a.freshComputations + 1 }
  return value

end Work

end SignatureCache
