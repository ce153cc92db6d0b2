import SignatureCache.Failure

/-!
# Intervals of doubles

A half-open interval `[start, stop)` of doubles whose ends are numbers in order, and what can be
asked of a cache: a dyadic interval, or an interval of doubles that has to be dissected first.
-/

namespace SignatureCache

/-- The half-open interval `[start, stop)`. -/
structure RealInterval where
  start : Float
  stop : Float

namespace RealInterval

/-- Refuses ends that are no number and ends out of order. -/
def ofEnds? (start stop : Float) : Except Error RealInterval :=
  if start.isNaN || stop.isNaN || decide (start > stop) then .error (.invalidInterval start stop)
  else .ok ⟨start, stop⟩

/-- The interval of doubles with the ends of a dyadic interval. -/
def ofDyadic (I : DyadicInterval) : RealInterval :=
  ⟨I.start, I.stop⟩

/-- Whether no point lies in the interval. -/
def isEmpty (I : RealInterval) : Bool :=
  decide (I.start ≥ I.stop)

/-- The interval as messages write it. -/
def text (I : RealInterval) : String :=
  "[" ++ Decimal.text I.start ++ ", " ++ Decimal.text I.stop ++ ")"

end RealInterval

/-- What a query asks about. -/
inductive Query where
  | dyadic (interval : DyadicInterval)
  | real (interval : RealInterval)

/-- The query as messages write it. -/
def Query.text : Query → String
  | .dyadic I => "dyadic " ++ I.text
  | .real I => I.text

end SignatureCache
