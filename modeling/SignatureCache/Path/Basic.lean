import SignatureCache.LieElement.Basic
import SignatureCache.Path.Selection

/-!
# Paths of increments

A path is a run of increments at parameter values that never decrease. Its log-signature over
`[start, stop)` is the product, in their order, of the increments whose parameter lies in that
interval; increments at one parameter stay together.
-/

namespace SignatureCache

/-- A path; `exact` tells how the halves of an interval get their values, from the increments
themselves or as half of the whole. -/
structure Path (K : Type) [Scalar K] where
  width : Nat
  depth : Depth
  parameters : Array K
  increments : Array (LieElement.Shaped K width depth)
  exact : Bool

namespace Path

variable {K : Type} [Scalar K]

/-- Cuts the coordinates of `n` increments into rows, one increment each. -/
def rows (width : Nat) (depth : Depth) : (n : Nat) → (values : List K) →
    values.length = n * width → List (LieElement.Shaped K width depth)
  | 0, _, _ => []
  | n + 1, values, h =>
    .ofLetters (values.take width) (by simp [h, Nat.succ_mul]) ::
      rows width depth n (values.drop width) (by simp [h, Nat.succ_mul])

/-- Whether no number is followed by a smaller one. -/
def nonDecreasing : List K → Bool
  | x :: y :: rest => !Scalar.less y x && nonDecreasing (y :: rest)
  | _ => true

/-- Builds a path from its parameters and the coordinates of its increments, one row after the
other. The first rule that the data break is the one reported. -/
def ofData? (width depth : Nat) (parameters values : List K) : Except PathError (Path K) :=
  if width = 0 then .error .zeroWidth
  else
    match Depth.ofNat? depth with
    | none => .error (.depth depth)
    | some cutOff =>
      if h : values.length = parameters.length * width then
        match parameters.find? fun p => !Scalar.isFinite p with
        | some p => .error (.nonFinite (Scalar.text p))
        | none =>
          if !nonDecreasing parameters then .error .decreasing
          else
            .ok {
              width := width
              depth := cutOff
              parameters := parameters.toArray
              increments := (rows width cutOff parameters.length values h).toArray
              exact := false }
      else .error (.valueCount parameters.length width values.length)

/-- The increments whose parameter lies in `[start, stop)`. -/
def selection (path : Path K) (start stop : K) :
    List (LieElement.Shaped K path.width path.depth) :=
  let first := partitionPoint path.parameters fun p => Scalar.less p start
  let last := max first (partitionPoint path.parameters fun p => Scalar.less p stop)
  (path.increments.extract first last).toList

/-- The log-signature over `[start, stop)`. -/
def logSignature (path : Path K) (start stop : K) : LieElement K :=
  ((path.selection start stop).foldl LieElement.Shaped.product LieElement.Shaped.zero).val

end Path

end SignatureCache
