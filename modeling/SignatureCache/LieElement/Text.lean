import SignatureCache.LieElement.Basic

/-!
# The text of a Lie element

An element is written as the sum of its terms between braces, each with its coefficient before its
letter or its bracket of two letters, and terms with coefficient zero are left out.
-/

namespace SignatureCache

namespace LieElement

variable {K : Type} [Scalar K]

/-- The pairs `i < j` of `width` letters counted from one, in lexicographic order. -/
def letterPairs (width : Nat) : List (Nat × Nat) :=
  (List.range width).flatMap fun i =>
    (List.range (width - (i + 1))).map fun d => (i + 1, i + d + 2)

/-- One term of the text of an element; terms without a coefficient are left out. -/
def termText (coefficient : K) (basis : String) : String :=
  if Scalar.same coefficient Scalar.zero then ""
  else " " ++ Scalar.text coefficient ++ "(" ++ basis ++ ")"

/-- The element as a sum of its terms: letters first, then brackets. -/
def text (x : LieElement K) : String :=
  let letters := x.letters.mapIdx fun i c => termText c (toString (i + 1))
  let pairs := List.zipWith (fun (i, j) c => termText c s!"[{i},{j}]") (letterPairs x.width) x.pairs
  "\x7b" ++ String.join letters ++ String.join pairs ++ " \x7d"

end LieElement

end SignatureCache
