import SignatureCache.Cache.Growth
import SignatureCache.Cache.Sharpening
import SignatureCache.Dissection
import SignatureCache.Tree.Indexed

/-!
# Queries

A dyadic interval is answered from the tree. If it is cached, it only has to be accurate enough. If
not, it becomes the root of an empty tree, or the root grows until it contains the interval and
leaves are split down to it. A real interval is dissected first, and its value is the product of the
values of its pieces; that product is not cached.

A request is checked before anything is done or counted: its resolution and the power of its
interval against the policy, and its offsets against the range in which the cache keeps all offsets.
-/

namespace SignatureCache

/-- Whether all intervals that refining `I` to a resolution can add under it keep their offsets in
`[-2^52, 2^52)`. The levels between are limited first, so no large number is built. -/
def offsetsFit (I : DyadicInterval) (resolution : Int) : Bool :=
  let levels := max resolution I.power - I.power
  if 52 < levels then false
  else
    let first := I.offset <<< levels.toNat
    let last := (I.offset + 1) <<< levels.toNat - 1
    decide (-Dissection.offsetLimit ≤ first) && decide (last < Dissection.offsetLimit)

/-- Refuses a resolution beyond the policy's limit. -/
def Policy.allow (policy : Policy) (resolution : Int) : Except Error Unit :=
  if policy.maxResolution < resolution then
    .error (.resolutionTooFine resolution policy.maxResolution)
  else .ok ()

/-- Refuses requests for a dyadic interval that the cache cannot serve. -/
def Policy.allowInterval (policy : Policy) (I : DyadicInterval) (resolution : Int) :
    Except Error Unit := do
  policy.allow resolution
  policy.allow I.power
  if !offsetsFit I resolution then throw (.offsetOutOfRange I resolution)

namespace Work

variable {V τ : Type} [Shelf V τ]

/-- Makes an interval the root of an empty tree. -/
def plant (source : Source V) (I : DyadicInterval) : WorkOn V τ Unit := do
  let value ← fresh source I
  edit (Tree.insert I { value := value, accuracy := I.power })

/-- Brings an interval that is not cached into the tree, at a resolution. -/
def reach (policy : Policy) (source : Source V) (I : DyadicInterval) (resolution : Int) :
    WorkOn V τ Unit := do
  match (← tree).root? with
  | none =>
    plant source I
    if I.power < resolution then sharpen policy source I resolution
  | some root =>
    let root ← grow source root I
    descend source root I
    sharpen policy source I resolution

/-- The value over a dyadic interval, accurate to a resolution. -/
def dyadicValue (policy : Policy) (source : Source V) (I : DyadicInterval) (resolution : Int) :
    WorkOn V τ V := do
  orError (policy.allowInterval I resolution)
  count fun a => { a with queries := a.queries + 1 }
  match (← searched I).accuracy? I with
  | some accuracy =>
    if resolution ≤ accuracy then count fun a => { a with hits := a.hits + 1 }
    else sharpen policy source I resolution
  | none => reach policy source I resolution
  let node ← orMissing (.nodeMissing I) ((← searched I).find? I)
  return node.value

/-- The value over a real interval: the product of the values over the pieces that it is dissected
into. An interval without points is answered at once. -/
def realValue (policy : Policy) (dissection : Dissection) (source : Source V) (I : RealInterval)
    (resolution : Int) : WorkOn V τ V := do
  if I.isEmpty then return source.zero (← tree).size
  orError (policy.allow resolution)
  let pieces ← orError (dissection I resolution)
  let values ← pieces.mapM fun piece => dyadicValue policy source piece resolution
  orFault (source.combineAll (← tree).size values)

/-- The value over whatever is asked about. -/
def answer (policy : Policy) (dissection : Dissection) (source : Source V) (query : Query)
    (resolution : Int) : WorkOn V τ V :=
  match query with
  | .dyadic I => dyadicValue policy source I resolution
  | .real I => realValue policy dissection source I resolution

end Work

/-- A cache: its settings, its way to dissect real intervals, and its store. -/
structure Cache (V : Type) (τ : Type := Tree V) [Shelf V τ] where
  policy : Policy := {}
  dissection : Dissection := Dissection.onGrid
  store : Store V τ := {}

/-- A cache at work: its tree has an index, and keys are compared in words along it. -/
abbrev IndexedCache (V : Type) := Cache V (IndexedTree V)

namespace Cache

variable {V τ : Type} [Shelf V τ]

/-- Answers a query with values of a source, and the cache as the query leaves it. -/
def answer (cache : Cache V τ) (source : Source V) (query : Query) (resolution : Int) :
    Except Failure V × Cache V τ :=
  match Work.answer cache.policy cache.dissection source query resolution cache.store with
  | .ok value store => (.ok value, { cache with store := store })
  | .error failure store => (.error failure, { cache with store := store })

/-- The cache on one line: its settings, the number of its nodes and its counters. -/
def summary (cache : Cache V τ) : String :=
  "DynamicStream \x7b config: " ++ cache.policy.summary ++
  s!", nodes: {cache.store.plain.tree.size}, stats: {cache.store.activity.summary}, .." ++ " \x7d"

end Cache

end SignatureCache
