import SignatureCache.Failure

/-!
# Nodes

What the cache stores for one dyadic interval: a value, the resolution up to which the value is
accurate, and the keys of the parent and the sibling. Links are keys, so a node can be replaced
without touching any other. The root of a tree has no links.
-/

namespace SignatureCache

/-- A cached value with its accuracy and its links. -/
structure Node (V : Type) where
  value : V
  accuracy : Int
  parent? : Option DyadicInterval := none
  sibling? : Option DyadicInterval := none

namespace Node

variable {V : Type}

/-- The node with a more accurate value; its accuracy may not drop. -/
def improve? (node : Node V) (value : V) (accuracy : Int) : Except Fault (Node V) :=
  if node.accuracy ≤ accuracy then .ok { node with value := value, accuracy := accuracy }
  else .error (.accuracyRegression node.accuracy accuracy)

/-- The node with its links set. -/
def linked (node : Node V) (parent sibling : DyadicInterval) : Node V :=
  { node with parent? := some parent, sibling? := some sibling }

end Node

end SignatureCache
