import SignatureCache.Failure

/-!
# Sources of increments

The cache never looks into the values it stores. A source says how to compute the value of an
interval afresh, how to combine the values of two neighbours or of a run of them, and how to give
the halves of an interval provisional values. Fresh values and splits may be refused; combining is
expected to succeed for the values of one source. Whatever it is asked, a source is told how many
nodes are cached at the moment, which is all that it may learn about the cache.
-/

namespace SignatureCache

/-- The product of a run of neighbours, from left to right, starting from the value of an interval
without points. -/
def runProduct {V : Type} (combine : V → V → Half → Except Fault V) (zero : V) (values : List V) :
    Except Fault V :=
  values.foldlM (fun product value => combine product value .left) zero

/-- What a cache of values of type `V` asks for. -/
structure Source (V : Type) where
  /-- The value of an interval without points. -/
  zero : Nat → V
  /-- The value of an interval, with no use of cached ones. -/
  fresh : Nat → DyadicInterval → Except Error V
  /-- The value of two neighbours together; the half tells where the first of them lies. -/
  combine : Nat → V → V → Half → Except Fault V
  /-- Values for the left and the right half of an interval whose value is given. -/
  split : Nat → V → DyadicInterval → DyadicInterval → Except Error (V × V)
  /-- The value of a run of neighbours together. -/
  combineAll : Nat → List V → Except Fault V := fun nodes => runProduct (combine nodes) (zero nodes)

namespace Source

variable {V : Type}

/-- The split that gives both halves half of the value. -/
def halving (halved : V → V) : Nat → V → DyadicInterval → DyadicInterval → Except Error (V × V) :=
  fun _ value _ _ => .ok (halved value, halved value)

end Source

end SignatureCache
