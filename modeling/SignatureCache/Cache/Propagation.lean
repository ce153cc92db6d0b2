import SignatureCache.Cache.Store

/-!
# Propagation

When both halves of an interval have become more accurate than the interval itself, its value is
combined anew from theirs. Each such step can make the next parent improve too, so they are taken
from a new node upward until one changes nothing.
-/

namespace SignatureCache

namespace Work

variable {V τ : Type} [Shelf V τ]

/-- Combines the parent of `below` anew if both halves are more accurate than it is, and answers the
parent in that case. -/
def improveParent (source : Source V) (below : DyadicInterval) :
    WorkOn V τ (Option DyadicInterval) := do
  let some node := (← searched below).find? below | return none
  let some parent := node.parent? | return none
  let sibling ← orMissing (.siblingUnknown below) node.sibling?
  let siblingNode ← orMissing (.siblingMissing below sibling) ((← searched sibling).find? sibling)
  let t ← searched parent
  let parentNode ← orMissing (.parentMissing below parent) (t.find? parent)
  let available := min node.accuracy siblingNode.accuracy
  if available ≤ parentNode.accuracy then return none
  let value ← orFault (source.combine t.size node.value siblingNode.value below.half)
  let improved ← orFault (parentNode.improve? value available)
  edit (Tree.putNode parent improved)
  count fun a => { a with propagations := a.propagations + 1 }
  return some parent

/-- Improves parents from `below` upward, in fewer than `levels` steps. -/
def propagateLevels (source : Source V) : Nat → DyadicInterval → WorkOn V τ Unit
  | 0, below => throw (.fault (.endless below))
  | levels + 1, below => do
    match ← improveParent source below with
    | some parent => propagateLevels source levels parent
    | none => return

/-- Improves parents from `below` upward as long as one improves. Each parent has one power less
than its halves, so there are as many above `below` as the root has fewer powers, and the step after
the last of them finds none to improve. -/
def propagate (source : Source V) (below : DyadicInterval) : WorkOn V τ Unit := do
  match (← tree).root? with
  | some root => propagateLevels source ((below.power - root.power).toNat + 1) below
  | none => return

end Work

end SignatureCache
