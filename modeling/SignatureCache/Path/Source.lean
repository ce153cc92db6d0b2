import SignatureCache.Path.Basic
import SignatureCache.Source.Basic

/-!
# Paths as sources

A path gives a cache the log-signature over every dyadic interval whose ends are finite. Neighbours
are combined by the product, with the left one first. The halves of an interval start with half of
its value each, or, for an exact path, with their own log-signature.
-/

namespace SignatureCache

namespace Path

variable {K : Type} [Scalar K]

/-- The log-signature over a dyadic interval. -/
def fresh (path : Path K) (I : DyadicInterval) : Except Error (LieElement K) :=
  let start : K := I.start
  let stop : K := I.stop
  if Scalar.isFinite start && Scalar.isFinite stop then .ok (path.logSignature start stop)
  else
    .error (.computation I
      s!"endpoints [{Scalar.text start}, {Scalar.text stop}) are not finite")

/-- The path as a source of log-signatures. -/
def source (path : Path K) : Source (LieElement K) where
  zero _ := .zero path.width path.depth
  fresh _ I := path.fresh I
  combine _ x y
    | .left => x.product? y
    | .right => y.product? x
  split :=
    if path.exact then fun _ _ left right => return (← path.fresh left, ← path.fresh right)
    else Source.halving LieElement.halved

end Path

end SignatureCache
