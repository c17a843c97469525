import Multistage.Scalar.Binary64

/-!
# Decimal text of doubles

A positive double is rounded to a decimal, an integer times a power of ten, in one of three ways:
to a number of significant digits, to a number of places, or to the fewest digits that still
determine the double. The text is then laid out from the digits, positionally or with an exponent.

## Main definitions

- `Decimal`: digits and a power of ten.
- `Decimal.ofSignificant`, `Decimal.shortest`: the two roundings whose length is not fixed.
- `Decimal.Layout`: where positional notation ends and whether an integer keeps its point.
- `shortestText`, `generalText`, `scientificText`, `fixedText`: the four formats of the library.
- `Decimal.roundedSignificant`: a double rounded to nine significant digits.
-/

namespace Multistage

/-- The number `digits * 10 ^ exponent`. -/
structure Decimal where
  digits : Nat
  exponent : Int

namespace Decimal

/-- The comparison `10 ^ e ≤ num / den`. -/
def powerLe (e : Int) (num den : Nat) : Bool :=
  if 0 ≤ e then den * Nat.pow 10 e.toNat ≤ num else den ≤ num * Nat.pow 10 (-e).toNat

/-- The greatest `e` with `10 ^ e ≤ num / den`, for positive arguments. The binary logarithm times
`log₁₀ 2` is at most one off, so the neighbours of that guess are the only candidates. -/
def leadingExponent (num den : Nat) : Int :=
  let guess : Int := ((num.log2 : Int) - den.log2) * 30103 / 100000
  if powerLe (guess + 1) num den then guess + 1
  else if powerLe guess num den then guess
  else guess - 1

/-- The quotient `num / den` in units of `10 ^ exponent`, rounded to an integer. -/
def roundedUnits (num den : Nat) (exponent : Int) : Nat :=
  if 0 ≤ exponent then roundHalfEven num (den * Nat.pow 10 exponent.toNat)
  else roundHalfEven (num * Nat.pow 10 (-exponent).toNat) den

/-- The quotient `num / den` rounded to `count` significant digits, for positive arguments. -/
def ofSignificant (count num den : Nat) : Decimal :=
  let exponent := leadingExponent num den - (count - 1 : Nat)
  let digits := roundedUnits num den exponent
  if digits == Nat.pow 10 count then ⟨Nat.pow 10 (count - 1), exponent + 1⟩ else ⟨digits, exponent⟩

/-- The decimal without zeros at the end of its digits, of the same value. -/
def withoutZeros (digits : Nat) (exponent : Int) : Decimal :=
  if digits ≠ 0 ∧ digits % 10 = 0 then withoutZeros (digits / 10) (exponent + 1)
  else ⟨digits, exponent⟩
termination_by digits
decreasing_by omega

/-- The decimal without zeros at the end of its digits. -/
def trim (d : Decimal) : Decimal := withoutZeros d.digits d.exponent

/-- The interval of the numbers that round to one double, in quarters of its last place. -/
structure Interval where
  low : Nat
  value : Nat
  high : Nat
  /-- The ends round to the double as well. -/
  closed : Bool

/-- The rounding interval of the double `mantissa * 2 ^ exponent`: half a last place on either side,
a quarter below a power of two. -/
def interval (mantissa : Nat) (exponent : Int) : Interval where
  low := 4 * mantissa -
    if mantissa == Nat.pow 2 Binary64.fractionBits && Binary64.minExponent < exponent then 1 else 2
  value := 4 * mantissa
  high := 4 * mantissa + 2
  closed := mantissa % 2 == 0

/-- The decimal `digits * unit` lies in the interval whose quarters are `quarter`, where `unit` and
`quarter` are integers on a common scale. -/
def Interval.admits (i : Interval) (unit quarter digits : Nat) : Bool :=
  let point := digits * unit
  if i.closed then i.low * quarter ≤ point && point ≤ i.high * quarter
  else i.low * quarter < point && point < i.high * quarter

/-- The multiple of `10 ^ exponent` nearest to the double among those in its rounding interval, if
there is one: only the two neighbours of the double on that grid can be. Of two equally near ones
the even one is taken. -/
def Interval.onGrid? (i : Interval) (binary exponent : Int) : Option Decimal :=
  let scale (base : Nat) (e : Int) : Nat × Nat :=
    if 0 ≤ e then (Nat.pow base e.toNat, 1) else (1, Nat.pow base (-e).toNat)
  let (unitNum, unitDen) := scale 10 exponent
  let (quarterNum, quarterDen) := scale 2 (binary - 2)
  let unit := unitNum * quarterDen
  let quarter := quarterNum * unitDen
  let point := i.value * quarter
  let below := point / unit
  let above := below + 1
  let down := i.admits unit quarter below
  let up := i.admits unit quarter above
  let nearerDown := point - below * unit < above * unit - point ||
    (point - below * unit == above * unit - point && below % 2 == 0)
  if down && (!up || nearerDown) then some ⟨below, exponent⟩
  else if up then some ⟨above, exponent⟩
  else none

/-- The decimal of fewest digits that determines the double `mantissa * 2 ^ exponent`, and of those
the nearest. Seventeen digits always suffice. -/
def shortest (mantissa : Nat) (exponent : Int) : Decimal :=
  let num := if 0 ≤ exponent then mantissa * Nat.pow 2 exponent.toNat else mantissa
  let den := if 0 ≤ exponent then 1 else Nat.pow 2 (-exponent).toNat
  let leading := leadingExponent num den
  let found := (List.range 17).findSome? fun (dropped : Nat) =>
    (interval mantissa exponent).onGrid? exponent (leading - dropped)
  (found.getD (ofSignificant 17 num den)).trim

/-- How digits are laid out. -/
structure Layout where
  /-- Decimal exponents from this one on are written with an exponent. -/
  positionalBelow : Int
  /-- Decimal exponents below this one are written with an exponent. -/
  positionalFrom : Int := -4
  /-- An integer keeps a point and a zero. -/
  keepsPoint : Bool

/-- An exponent, with its sign and at least two digits. -/
def exponentText (e : Int) : String :=
  let size := toString e.natAbs
  (if e < 0 then "e-" else "e+") ++ (if size.length < 2 then "0" ++ size else size)

/-- The digits with a point after the first `count`. -/
def pointAfter (count : Nat) (digits : List Char) : String :=
  if digits.length ≤ count then String.ofList digits
  else String.ofList (digits.take count) ++ "." ++ String.ofList (digits.drop count)

/-- The text of a decimal, whose digits are shown as they are. -/
def layOut (layout : Layout) (d : Decimal) : String :=
  let digits := (toString d.digits).toList
  let leading := d.exponent + (digits.length - 1 : Nat)
  if layout.positionalFrom ≤ leading && leading < layout.positionalBelow then
    if leading < 0 then
      "0." ++ String.ofList (List.replicate (-leading - 1).toNat '0' ++ digits)
    else
      let whole := leading.toNat + 1
      if digits.length ≤ whole then
        String.ofList (digits ++ List.replicate (whole - digits.length) '0') ++
          (if layout.keepsPoint then ".0" else "")
      else pointAfter whole digits
  else pointAfter 1 digits ++ exponentText leading

/-- The text of a double: the words for infinities and not-a-number, a sign, and a text of the
magnitude `mantissa * 2 ^ exponent` given as a quotient. -/
def signed (magnitude : (mantissa : Nat) → (exponent : Int) → (num den : Nat) → String)
    (x : Float) : String :=
  match Binary64.parts x with
  | .notANumber => "nan"
  | .infinite negative => if negative then "-inf" else "inf"
  | .finite negative mantissa exponent =>
    let num := if 0 ≤ exponent then mantissa * Nat.pow 2 exponent.toNat else mantissa
    let den := if 0 ≤ exponent then 1 else Nat.pow 2 (-exponent).toNat
    (if negative then "-" else "") ++ magnitude mantissa exponent num den

/-- Numbers in full: positional from `0.0001` to below `10 ^ 16`, an integer keeps its point. -/
def full : Layout where
  positionalBelow := 16
  keepsPoint := true

/-- Numbers in short: six significant digits, positional to below a million. -/
def brief : Layout where
  positionalBelow := 6
  keepsPoint := false

end Decimal

/-- The shortest text from which the double can be read back. -/
def shortestText : Float → String :=
  Decimal.signed fun mantissa exponent _ _ =>
    if mantissa == 0 then "0.0" else (Decimal.shortest mantissa exponent).layOut Decimal.full

/-- The double to six significant digits, without zeros at the end. -/
def generalText : Float → String :=
  Decimal.signed fun mantissa _ num den =>
    if mantissa == 0 then "0" else (Decimal.ofSignificant 6 num den).trim.layOut Decimal.brief

/-- The double with one digit before the point, `places` after it, and an exponent. -/
def scientificText (places : Nat) : Float → String :=
  Decimal.signed fun mantissa _ num den =>
    let d := if mantissa == 0 then ⟨0, 0⟩ else Decimal.ofSignificant (places + 1) num den
    let digits := (toString d.digits).toList
    let padded := digits ++ List.replicate (places + 1 - digits.length) '0'
    Decimal.pointAfter 1 padded ++ Decimal.exponentText (d.exponent + (digits.length - 1 : Nat))

/-- The double with `places` digits after the point. -/
def fixedText (places : Nat) : Float → String :=
  Decimal.signed fun _ _ num den =>
    let digits := (toString (Decimal.roundedUnits num den (-places))).toList
    let padded := List.replicate (places + 1 - digits.length) '0' ++ digits
    Decimal.pointAfter (padded.length - places) padded

/-- The double rounded to nine significant decimal digits; magnitudes below `10 ^ -10` are zero. -/
def Decimal.roundedSignificant (x : Float) : Float :=
  if x.abs < 1e-10 then 0.0 else
  match Binary64.parts x with
  | .finite negative mantissa exponent =>
    let num := if 0 ≤ exponent then mantissa * Nat.pow 2 exponent.toNat else mantissa
    let den := if 0 ≤ exponent then 1 else Nat.pow 2 (-exponent).toNat
    let d := Decimal.ofSignificant 9 num den
    let signed : Int := if negative then -d.digits else d.digits
    Binary64.nearest (
      if 0 ≤ d.exponent then ((signed * (Nat.pow 10 d.exponent.toNat : Nat) : Int) : Rat)
      else mkRat signed (Nat.pow 10 (-d.exponent).toNat))
  | _ => x

end Multistage
