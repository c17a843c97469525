import Multistage.Scalar

/-!
# Doubles as scalars

A double is a sign, a mantissa and a power of two, or an infinity, or not a number. Its exact value
is read off these three, and the double nearest to a rational number is found by one rounding of
an integer quotient, ties going to the even mantissa.

## Main definitions

- `Binary64.Parts`, `Binary64.parts`: the fields of a double.
- `roundHalfEven`: the integer nearest to a quotient of natural numbers.
- `Binary64.nearest`: the double nearest to a rational number.
-/

namespace Multistage

/-- The integer nearest to `num / den`, the even one of two equally near. -/
def roundHalfEven (num den : Nat) : Nat :=
  let quotient := num / den
  let twice := 2 * (num % den)
  if den < twice || (twice == den && quotient % 2 == 1) then quotient + 1 else quotient

namespace Binary64

/-- The fields of a double. -/
inductive Parts where
  /-- The number `± mantissa * 2 ^ exponent`. -/
  | finite (negative : Bool) (mantissa : Nat) (exponent : Int)
  | infinite (negative : Bool)
  | notANumber

/-- The number of bits of the fraction field. -/
def fractionBits : Nat := 52

/-- The power of two of the last place of the smallest doubles. -/
def minExponent : Int := -1074

/-- The exponent field of infinities and of not-a-number. -/
def topField : Nat := 2047

/-- Read the fields of a double. -/
def parts (x : Float) : Parts :=
  let bits := x.toBits.toNat
  let negative := Nat.pow 2 63 ≤ bits
  let field := bits / Nat.pow 2 fractionBits % Nat.pow 2 11
  let fraction := bits % Nat.pow 2 fractionBits
  if field == topField then
    if fraction == 0 then .infinite negative else .notANumber
  else if field == 0 then .finite negative fraction minExponent
  else .finite negative (fraction + Nat.pow 2 fractionBits) (minExponent + (field - 1 : Nat))

/-- The rational number `± mantissa * 2 ^ exponent`. -/
def toRat (negative : Bool) (mantissa : Nat) (exponent : Int) : Rat :=
  let signed : Int := if negative then -mantissa else mantissa
  if 0 ≤ exponent then ((signed * (Nat.pow 2 exponent.toNat : Nat) : Int) : Rat)
  else mkRat signed (Nat.pow 2 (-exponent).toNat)

/-- The exact value of a double. -/
def exact (x : Float) : Extended Rat :=
  match parts x with
  | .finite negative mantissa exponent => .finite (toRat negative mantissa exponent)
  | .infinite true => .negInf
  | .infinite false => .posInf
  | .notANumber => .nan

/-- The infinite double of a sign. -/
def infinity (negative : Bool) : Float := if negative then -1.0 / 0.0 else 1.0 / 0.0

/-- The greatest `e` with `2 ^ e ≤ num / den`, for positive arguments. -/
def binaryExponent (num den : Nat) : Int :=
  let guess : Int := num.log2 - den.log2
  let below :=
    if 0 ≤ guess then num < den * Nat.pow 2 guess.toNat
    else num * Nat.pow 2 (-guess).toNat < den
  if below then guess - 1 else guess

/-- The double nearest to a rational number, ties going to the even mantissa. -/
def nearest (q : Rat) : Float :=
  let num := q.num.natAbs
  if num == 0 then 0.0 else
  let negative := q.num < 0
  let exponent := max (binaryExponent num q.den - fractionBits) minExponent
  let mantissa :=
    if 0 ≤ exponent then roundHalfEven num (q.den * Nat.pow 2 exponent.toNat)
    else roundHalfEven (num * Nat.pow 2 (-exponent).toNat) q.den
  -- A mantissa that was rounded up to the next power of two carries into the exponent field.
  let bits := (exponent - minExponent).toNat * Nat.pow 2 fractionBits + mantissa
  if topField * Nat.pow 2 fractionBits ≤ bits then infinity negative
  else Float.ofBits (UInt64.ofNat (bits + if negative then Nat.pow 2 63 else 0))

end Binary64

/-- Doubles, with one rounding per operation. -/
instance : Scalar Float where
  zero := 0.0
  one := 1.0
  decLt := inferInstance
  decLe := inferInstance
  ofRat := Binary64.nearest
  exact := Binary64.exact
  ofExtended?
    | .finite q => some (Binary64.nearest q)
    | .posInf => some (Binary64.infinity false)
    | .negInf => some (Binary64.infinity true)
    | .nan => some (0.0 / 0.0)

end Multistage
