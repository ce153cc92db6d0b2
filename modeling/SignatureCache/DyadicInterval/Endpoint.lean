import SignatureCache.DyadicInterval.Basic
import SignatureCache.Number.Scalar

/-!
# Endpoints as scalars

The ends of a dyadic interval in the scalars of a computation. With doubles they are rounded, and
infinite or no numbers at powers far from zero; the text of an interval shows its ends as doubles.
-/

namespace SignatureCache

namespace DyadicInterval

variable {K : Type} [Scalar K]

/-- The left end, which belongs to the interval. -/
def start (I : DyadicInterval) : K :=
  Scalar.ofInt I.offset / Scalar.twoPow I.power

/-- The right end, which does not. -/
def stop (I : DyadicInterval) : K :=
  (Scalar.ofInt I.offset + Scalar.one) / Scalar.twoPow I.power

/-- The interval as messages write it. -/
def text (I : DyadicInterval) : String :=
  "[" ++ Decimal.text I.start ++ ", " ++ Decimal.text I.stop ++ ")"

end DyadicInterval

end SignatureCache
