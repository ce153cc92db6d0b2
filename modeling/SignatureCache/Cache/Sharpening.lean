import SignatureCache.Cache.Split
import SignatureCache.Policy
import SignatureCache.Tree.Cursor

/-!
# Sharpening

A cached interval is brought to a resolution by walking through the nodes under it in key order and
splitting every leaf that is not accurate enough. Nodes that are accurate enough need no look at
what lies under them; whether the walk passes that in one step is a matter of policy.
-/

namespace SignatureCache

namespace Work

variable {V τ : Type} [Shelf V τ]

/-- Makes sure that a cursor that goes on to a key can tell whether it leaves its top. -/
def bound (cursor : Cursor) : Option DyadicInterval → WorkOn V τ Unit
  | some next => test cursor.top next
  | none => return

/-- Goes on to the next key. -/
def advance (cursor : Cursor) : WorkOn V τ Cursor := do
  let t ← tree
  bound cursor (cursor.current?.bind t.nextAfter?)
  return cursor.advance t

/-- Goes on past everything nested in the present key. -/
def skip (cursor : Cursor) : WorkOn V τ Cursor := do
  let some key := cursor.current? | return cursor
  let following ← orFault (key.following? cursor.top.power)
  let t ← searched following
  bound cursor (t.nextFrom? following)
  orFault (cursor.skip? t)

/-- What the walk does at one key: pass it, split it and enter its left half, or enter it. -/
def sharpenAt (policy : Policy) (source : Source V) (desired : Int) (cursor : Cursor)
    (key : DyadicInterval) : WorkOn V τ Cursor := do
  let t ← searched key
  let accuracy ← orMissing (.cursorMissing key) (t.accuracy? key)
  let leaf ← isLeaf key
  if desired ≤ accuracy then
    if policy.skipAccurate then skip cursor else advance cursor
  else if leaf then
    splitLeaf source key
    return cursor.seek (← orFault key.left?)
  else advance cursor

/-- Walks on from the cursor's place, through fewer than `keys` keys. -/
def sharpenFrom (policy : Policy) (source : Source V) (desired : Int) :
    Nat → Cursor → WorkOn V τ Unit
  | 0, cursor => throw (.fault (.endless cursor.top))
  | keys + 1, cursor =>
    match cursor.current? with
    | some key => do sharpenFrom policy source desired keys (← sharpenAt policy source desired cursor key)
    | none => return

/-- Brings every leaf under `top`, and with them `top` itself, to a resolution. No key is met twice,
and those met are in the tree already or among the intervals under `top` down to the resolution;
there are fewer than `2 ^ (levels + 1)` of the latter. -/
def sharpen (policy : Policy) (source : Source V) (top : DyadicInterval) (desired : Int) :
    WorkOn V τ Unit := do
  let keys := (← tree).size + 1 <<< ((desired - top.power).toNat + 1)
  sharpenFrom policy source desired keys (Cursor.start top)
  if ((← searched top).accuracy? top).all (· < desired) then
    throw (.fault (.stoppedShort top desired))

end Work

end SignatureCache
