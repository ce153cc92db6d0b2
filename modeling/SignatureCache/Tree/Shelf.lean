import SignatureCache.Tree.Basic

/-!
# Shelves

An ordered map finds the place of a key by comparing it with some of the keys it holds. Comparing is
arithmetic in words, like all other steps: where a number leaves its word, the search breaks off
with a fault. Which keys are compared depends on how the map is laid out, and not on the tree that
it stands for. So what changes a tree is written once for every *shelf* that a tree can be kept on,
and the shelf says how a search ends.

A tree on its own is the shelf on which no search breaks off, as if keys were compared exactly.

Operations that change a tree may break off with a fault. What they changed before stays changed, so
they are actions on a shelf that end in a value or a fault, and in a shelf either way.
-/

namespace SignatureCache

/-- A way to keep a tree. A search for a key only breaks off where the key and one of the tree's
cannot be compared, and a test for containment where the two intervals cannot. -/
class Shelf (V : outParam Type) (τ : Type) where
  /-- The shelf with the tree without nodes. -/
  empty : τ
  /-- The tree that is kept. -/
  tree : τ → Tree V
  /-- The shelf with the node of one interval set. -/
  put : τ → DyadicInterval → Node V → τ
  /-- How a search for a key ends. -/
  search : τ → DyadicInterval → Except Fault Unit
  /-- How the test whether one interval contains another ends. -/
  test : τ → DyadicInterval → DyadicInterval → Except Fault Unit
  tree_empty : tree empty = .empty
  tree_put : ∀ t key node, tree (put t key node) = (tree t).put key node
  search_fault : ∀ {t key fault}, search t key = .error fault →
    ∃ other, (tree t).contains other = true ∧ key.compare? other = .error .overflow ∧
      fault = .incomparable key other
  test_fault : ∀ {t I J fault}, test t I J = .error fault →
    I.contains? J = .error .overflow ∧ fault = .incomparable I J

/-- An action on a shelf. -/
abbrev EditOn (τ : Type) := EStateM Fault τ

/-- An action on a tree. -/
abbrev Edit (V : Type) := EditOn (Tree V)

namespace Tree

variable {V τ : Type}

instance : Shelf V (Tree V) where
  empty := .empty
  tree t := t
  put := put
  search _ _ := .ok ()
  test _ _ _ := .ok ()
  tree_empty := rfl
  tree_put _ _ _ := rfl
  search_fault h := nomatch h
  test_fault h := nomatch h

@[simp] theorem shelf_empty : (Shelf.empty : Tree V) = .empty := rfl

variable [Shelf V τ]

/-- The tree, after a search in it for a key. -/
def searched (key : DyadicInterval) : EditOn τ (Tree V) := fun t =>
  match Shelf.search t key with
  | .ok _ => .ok (Shelf.tree t) t
  | .error fault => .error fault t

/-- Makes sure that the test whether one interval contains another ends. -/
def test (I J : DyadicInterval) : EditOn τ Unit := fun t =>
  match Shelf.test t I J with
  | .ok _ => .ok () t
  | .error fault => .error fault t

/-- Tests whether one interval contains another. -/
def covers (I J : DyadicInterval) : EditOn τ Bool := do
  test I J
  return I.contains J

/-- Sets the node of one interval. -/
def putNode (key : DyadicInterval) (node : Node V) : EditOn τ Unit :=
  modify fun t => Shelf.put t key node

/-- Adds the node of a new interval. A second node for one interval is a fault, and replaces the
first. -/
def insert (key : DyadicInterval) (node : Node V) : EditOn τ Unit := do
  let t ← searched key
  putNode key node
  if t.contains key then throw (.duplicateNode key)

/-- Sets the links of one cached interval. -/
def linkNode (key parent sibling : DyadicInterval) : EditOn τ Unit := do
  match (← searched key).find? key with
  | some node => putNode key (node.linked parent sibling)
  | none => throw (.linkMissing key)

/-- Whether two halves can be linked under a parent: it has a node, and contains both. -/
def canLink (parent left right : DyadicInterval) : EditOn τ Bool := do
  if !(← searched parent).contains parent then return false
  if !(← covers parent left) then return false
  covers parent right

/-- Links two halves with each other under their parent, the left one first. -/
def linkHalves (parent left right : DyadicInterval) : EditOn τ Unit := do
  if !(← canLink parent left right) then throw (.cannotLink left right parent)
  linkNode left parent right
  linkNode right parent left

/-- Adds both halves of an interval, each as accurate as its own power, and links them. -/
def insertHalves (parent left right : DyadicInterval) (leftValue rightValue : V) :
    EditOn τ Unit := do
  insert left { value := leftValue, accuracy := left.power }
  insert right { value := rightValue, accuracy := right.power }
  linkHalves parent left right

end Tree

end SignatureCache
