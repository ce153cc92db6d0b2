import SignatureCache.Number.Binary64

/-!
# The shortest decimal text of a double

A double stands for all reals that round to it. Its text is the coarsest decimal among them: of all
grids of multiples of `10^s`, the coarsest with a point in that neighbourhood, and on it the point
nearest to the double, the upper one if two are equally near. Digits are always written in place,
without an exponent, and a whole number has no point.
-/

namespace SignatureCache

/-- The reals that round to one positive double, all over one denominator. The ends belong to it
exactly if ties round to the double, that is, if its mantissa is even. -/
structure Neighbourhood where
  low : Nat
  value : Nat
  high : Nat
  denominator : Nat
  closed : Bool

namespace Neighbourhood

/-- The neighbourhood of `mantissa · 2^exponent`, in quarters of the last place: half a place to
either side, but only a quarter down where the doubles below are twice as dense. -/
def ofDouble (mantissa : Nat) (exponent : Int) : Neighbourhood :=
  let below := if mantissa = Binary64.hiddenBit ∧ Binary64.leastExponent < exponent then 1 else 2
  let up := (exponent - 2).toNat
  { low := (4 * mantissa - below) <<< up
    value := (4 * mantissa) <<< up
    high := (4 * mantissa + 2) <<< up
    denominator := 1 <<< (2 - exponent).toNat
    closed := mantissa % 2 = 0 }

/-- The multiple of `10^s` in the neighbourhood that is nearest to the value, if there is one. Only
the two multiples around the value can be the nearest. -/
def gridPoint? (N : Neighbourhood) (s : Int) : Option Nat :=
  let unit := Nat.pow 10 s.toNat * N.denominator
  let factor := Nat.pow 10 (-s).toNat
  let low := N.low * factor
  let value := N.value * factor
  let high := N.high * factor
  let inside (d : Nat) : Bool :=
    if N.closed then low ≤ d * unit && d * unit ≤ high else low < d * unit && d * unit < high
  let d := value / unit
  match inside d, inside (d + 1) with
  | true, true => some (if 2 * value < (2 * d + 1) * unit then d else d + 1)
  | true, false => some d
  | false, true => some (d + 1)
  | false, false => none

/-- The digits and the grid of the coarsest decimal in the neighbourhood. The search starts on a
grid too coarse to meet it; the grid of `10^-1080` contains every double. -/
def shortest (N : Neighbourhood) : Nat × Int :=
  let start := (Nat.repr (N.high / N.denominator)).length
  let onGrid (i : Nat) : Option (Nat × Int) :=
    let s : Int := start - i
    (N.gridPoint? s).map (·, s)
  ((List.range (start + 1081)).findSome? onGrid).getD (0, 0)

end Neighbourhood

namespace Decimal

/-- Writes `digits · 10^s` with every digit in its place. -/
def positional (digits : Nat) (s : Int) : String :=
  let written := Nat.repr digits
  if 0 ≤ s then written.pushn '0' s.toNat
  else
    let places := (-s).toNat
    let padded := "".pushn '0' (places + 1 - written.length) ++ written
    let whole := padded.length - places
    String.ofList (padded.toList.take whole ++ '.' :: padded.toList.drop whole)

/-- The text of a double: the shortest digits that read back, never an exponent; `-0`, `inf`,
`-inf` and `NaN` are written so. -/
def text (x : Float) : String :=
  let signed (negative : Bool) (t : String) : String := if negative then "-" ++ t else t
  match Binary64.ofFloat x with
  | .nan => "NaN"
  | .infinite negative => signed negative "inf"
  | .finite negative mantissa exponent =>
    if mantissa = 0 then signed negative "0"
    else
      let (digits, s) := (Neighbourhood.ofDouble mantissa exponent).shortest
      signed negative (positional digits s)

end Decimal

end SignatureCache
