import SignatureCache.Cache.Propagation

/-!
# Splitting

A leaf is split by adding both halves with the values its source gives them. As they are more
accurate than the leaf was, the gain is propagated.
-/

namespace SignatureCache

namespace Work

variable {V τ : Type} [Shelf V τ]

/-- Gives a leaf two halves. -/
def splitLeaf (source : Source V) (leaf : DyadicInterval) : WorkOn V τ Unit := do
  if !(← isLeaf leaf) then throw (.fault (.splitNonLeaf leaf))
  let t ← searched leaf
  let node ← orMissing (.splitMissing leaf) (t.find? leaf)
  let left ← orFault leaf.left?
  let right ← orFault leaf.right?
  let (leftValue, rightValue) ← orError (source.split t.size node.value left right)
  edit (Tree.insertHalves leaf left right leftValue rightValue)
  count fun a => { a with splits := a.splits + 1 }
  propagate source left

/-- Splits the leaves among the ancestors of `target`, from the one `levels` above downward. -/
def descendLevels (source : Source V) (target : DyadicInterval) : Nat → WorkOn V τ Unit
  | 0 => return
  | levels + 1 => do
    let key := target.ancestor (levels + 1)
    if ← isLeaf key then splitLeaf source key
    descendLevels source target levels

/-- Splits leaves from `root` down until `target`, which `root` contains, is cached. -/
def descend (source : Source V) (root target : DyadicInterval) : WorkOn V τ Unit :=
  descendLevels source target (target.power - root.power).toNat

end Work

end SignatureCache
