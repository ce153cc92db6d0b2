/-!
# Doubles as exact numbers

A finite double is a signed integer multiple of a power of two, read off its bits. From that
reading come the greatest integer below a double and the doubles that are powers of two. The other
way, a ratio of natural numbers is rounded to the nearest double by one exact division.
-/

namespace SignatureCache

/-- What a double stands for. -/
inductive Binary64 where
  /-- `± mantissa · 2^exponent`; zero has both signs. -/
  | finite (negative : Bool) (mantissa : Nat) (exponent : Int)
  | infinite (negative : Bool)
  | nan
deriving DecidableEq

namespace Binary64

/-- The exponent of the finest doubles. -/
def leastExponent : Int := -1074

/-- The bit of a mantissa that is not stored, `2^52`. -/
def hiddenBit : Nat := 0x10000000000000

/-- Reads sign, exponent field and fraction. A zero field has no hidden bit, and the highest field
marks infinities and what is no number. -/
def ofFloat (x : Float) : Binary64 :=
  let bits := x.toBits.toNat
  let negative := bits.testBit 63
  let field : Nat := (bits >>> 52) % 0x800
  let fraction := bits % hiddenBit
  if field = 0x7ff then if fraction = 0 then .infinite negative else .nan
  else if field = 0 then .finite negative fraction leastExponent
  else .finite negative (hiddenBit + fraction) (leastExponent + field - 1)

/-- The greatest integer not above a finite double. -/
def floor? (x : Float) : Option Int :=
  match ofFloat x with
  | .finite negative mantissa exponent =>
    let m : Int := if negative then -mantissa else mantissa
    some (if 0 ≤ exponent then m <<< exponent.toNat else m >>> (-exponent).toNat)
  | _ => none

/-- The double `2^n`, taken as `1 / 2^(-n)` below `2^0`: so it is infinite from `2^1024` on, and
zero below `2^-1023`, although finer powers of two are doubles. -/
def twoPow (n : Int) : Float :=
  if 1024 ≤ n then Float.ofBits 0x7ff0000000000000
  else if -1022 ≤ n then Float.ofBits ((n + 1023).toNat.toUInt64 <<< 52)
  else if n = -1023 then Float.ofBits 0x0008000000000000
  else Float.ofBits 0

/-- The greatest `n` with `2^n ≤ num / den`, for positive numbers. -/
def ratioLog2 (num den : Nat) : Int :=
  let n : Int := (num.log2 : Int) - den.log2
  if den <<< n.toNat ≤ num <<< (-n).toNat then n else n - 1

/-- The double nearest to `num / den`, the one with the even mantissa if two are equally near. The
last place is chosen so that the quotient has 53 bits, or fewer where doubles are finest; counting
places and mantissa as one number carries a mantissa that rounds up into the next place. -/
def ofRatio (num den : Nat) : Float :=
  if num = 0 then Float.ofBits 0
  else
    let place := max (ratioLog2 num den - 52) leastExponent
    let num := num <<< (-place).toNat
    let den := den <<< place.toNat
    let m := num / den
    let twice := 2 * (num % den)
    let m := if den < twice ∨ (twice = den ∧ m % 2 = 1) then m + 1 else m
    let bits := (place - leastExponent).toNat * hiddenBit + m
    Float.ofBits (min bits 0x7ff0000000000000).toUInt64

end Binary64

end SignatureCache
