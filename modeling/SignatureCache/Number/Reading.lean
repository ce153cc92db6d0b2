import SignatureCache.Number.Binary64

/-!
# Reading decimal texts

A number is written as an optional sign followed by a name (`inf`, `infinity` or `nan`, in any case)
or by digits, with a point anywhere among or beside them, and an optional power of ten. It is read
as the double nearest to it.
-/

namespace SignatureCache

namespace Decimal

/-- Why a text is no number. -/
inductive ReadError where
  | empty
  | malformed
deriving DecidableEq

/-- The error's text. -/
def ReadError.message : ReadError → String
  | .empty => "cannot parse float from empty string"
  | .malformed => "invalid float literal"

/-- A sign, if there is one, and what follows it; `true` stands for minus. -/
def splitSign : List Char → Bool × List Char
  | '-' :: cs => (true, cs)
  | '+' :: cs => (false, cs)
  | cs => (false, cs)

/-- The longest run of digits at the front, and what follows it. -/
def splitDigits (cs : List Char) : List Char × List Char :=
  (cs.takeWhile Char.isDigit, cs.dropWhile Char.isDigit)

/-- The number that a run of digits writes. -/
def digitsValue (cs : List Char) : Nat :=
  cs.foldl (fun n c => 10 * n + (c.toNat - '0'.toNat)) 0

/-- The power of ten at the end of a number: nothing, or a letter, an optional sign and digits up to
the end of the text. -/
def readExponent? : List Char → Option Int
  | [] => some 0
  | c :: cs =>
    if c = 'e' ∨ c = 'E' then
      let (negative, rest) := splitSign cs
      let (digits, rest) := splitDigits rest
      if digits.isEmpty || !rest.isEmpty then none
      else some (if negative then -(digitsValue digits : Int) else digitsValue digits)
    else none

/-- The digits on both sides of the point, and what follows them; at least one digit is needed. -/
def splitPoint? (cs : List Char) : Option (List Char × List Char × List Char) :=
  let (whole, rest) := splitDigits cs
  let (fraction, rest) :=
    match rest with
    | '.' :: rest => splitDigits rest
    | _ => ([], rest)
  if whole.isEmpty && fraction.isEmpty then none else some (whole, fraction, rest)

/-- The double nearest to `digits · 10^exponent`. Numbers that are far too large or too small are
sorted out first, so that no power of ten beyond the doubles is ever built. -/
def nearest (digits : Nat) (exponent : Int) : Float :=
  let size := (Nat.repr digits).length + exponent
  if digits = 0 ∨ size < -400 then Float.ofBits 0
  else if 400 < size then Float.ofBits 0x7ff0000000000000
  else Binary64.ofRatio (digits * Nat.pow 10 exponent.toNat) (Nat.pow 10 (-exponent).toNat)

/-- An unsigned number. -/
def readMagnitude? (cs : List Char) : Option Float := do
  let name := String.ofList (cs.map Char.toLower)
  if name = "inf" ∨ name = "infinity" then return Float.ofBits 0x7ff0000000000000
  if name = "nan" then return Float.ofBits 0x7ff8000000000000
  let (whole, fraction, rest) ← splitPoint? cs
  let exponent ← readExponent? rest
  return nearest (digitsValue (whole ++ fraction)) (exponent - fraction.length)

/-- Reads a whole text as a number. -/
def read (text : String) : Except ReadError Float :=
  if text.isEmpty then .error .empty
  else
    let (negative, cs) := splitSign text.toList
    match readMagnitude? cs with
    | some x => .ok (if negative then -x else x)
    | none => .error .malformed

end Decimal

end SignatureCache
