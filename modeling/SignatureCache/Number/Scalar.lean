import SignatureCache.Number.Shortest

/-!
# Scalars

What the library needs of the numbers that log-signatures are made of. Doubles are the scalars of
every computed answer; exact rationals are the scalars in which the algebra holds without rounding.
Both run through the same definitions, one operation after the other, so a law shown for all
scalars is about both.
-/

namespace SignatureCache

/-- Numbers with the arithmetic and the comparisons of doubles; no law is asked for. -/
class Scalar (K : Type) extends Add K, Sub K, Mul K, Div K, Neg K where
  zero : K
  one : K
  half : K
  /-- The number nearest to an integer. -/
  ofInt : Int → K
  /-- The power `2^n`. -/
  twoPow : Int → K
  abs : K → K
  /-- Whether two numbers are equal; a double that is no number does not equal itself. -/
  same : K → K → Bool
  less : K → K → Bool
  atMost : K → K → Bool
  isFinite : K → Bool
  /-- How messages write the number. -/
  text : K → String

instance : Scalar Float where
  zero := 0.0
  one := 1.0
  half := 0.5
  ofInt := Float.ofInt
  twoPow := Binary64.twoPow
  abs := Float.abs
  same := (· == ·)
  less a b := decide (a < b)
  atMost a b := decide (a ≤ b)
  isFinite := Float.isFinite
  text := Decimal.text

instance : Scalar Rat where
  zero := 0
  one := 1
  half := 1 / 2
  ofInt n := n
  twoPow n := 2 ^ n
  abs := Rat.abs
  same := (· == ·)
  less a b := decide (a < b)
  atMost a b := decide (a ≤ b)
  isFinite _ := true
  text := toString

end SignatureCache
