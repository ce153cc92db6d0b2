import SignatureCache.Cache.Store
import SignatureCache.DyadicInterval.Ancestry

/-!
# Growth

A root that does not contain an interval asked for grows to its parent: the other half of the parent
is computed afresh and combined with the root. Growing goes on until the interval is contained. No
dyadic interval straddles zero, so an interval on the other side of zero can never be reached.
-/

namespace SignatureCache

namespace Work

variable {V τ : Type} [Shelf V τ]

/-- Makes the parent of the root the new root. -/
def growRoot (source : Source V) (root : DyadicInterval) : WorkOn V τ Unit := do
  let parent ← orFault root.parent?
  let neighbour := root.sibling
  let neighbourValue ← fresh source neighbour
  let t ← searched root
  let node ← orMissing (.rootMissing root) (t.find? root)
  let value ← orFault (source.combine t.size node.value neighbourValue root.half)
  edit do
    Tree.insert neighbour { value := neighbourValue, accuracy := neighbour.power }
    Tree.insert parent { value := value, accuracy := min node.accuracy neighbour.power }
    match root.half with
    | .left => Tree.linkHalves parent root neighbour
    | .right => Tree.linkHalves parent neighbour root
  count fun a =>
    { a with rootExpansions := a.rootExpansions + 1, neighbourNodes := a.neighbourNodes + 1 }

/-- Grows the root, which lies on the side of `target`, until it contains `target`, and answers
it. -/
def growToContain (source : Source V) (root target : DyadicInterval)
    (side : DyadicInterval.SameSide root target) : WorkOn V τ DyadicInterval := do
  test root target
  if root.contains target then return root
  else do
    growRoot source root
    growToContain source root.parent target side.parent
termination_by DyadicInterval.distance root target
decreasing_by exact DyadicInterval.distance_parent_lt side (by simp_all)

/-- Grows the root until it contains `target`, and answers it; refuses a target on the other side
of zero. -/
def grow (source : Source V) (root target : DyadicInterval) : WorkOn V τ DyadicInterval :=
  if side : DyadicInterval.SameSide root target then growToContain source root target side
  else throw (.error (.rootUnreachable root target))

end Work

end SignatureCache
