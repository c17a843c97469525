import Multistage.Text.Field

/-!
# Numbers in fields

An integer stands in a field as decimal digits, as digits of another base, as the character that it
counts, or like a scalar. A scalar is written with a fixed number of places, with an exponent, or in
whichever of the two is shorter for a number of significant digits.

## Main definitions

- `FieldLayout.integer`, `FieldLayout.scalar`: a number in a field.
- `inField`: a datum in a field.

## Main statements

- `inField_width`: a text in a field of a width stands among blanks up to the width.
-/

namespace Multistage.Text

/-- Digits with a separator between groups, which are counted from the last digit. -/
def grouped (separator : Char) (size : Nat) (digits : List Char) : List Char :=
  (digits.reverse.zipIdx.flatMap fun (c, i) =>
    if i != 0 && i % size == 0 then [separator, c] else [c]).reverse

/-- A list with zeros after it up to a length. -/
def withZeros (length : Nat) (digits : List Char) : List Char :=
  digits ++ List.replicate (length - digits.length) '0'

/-- Digits with the point after the first `point` of them, where missing digits are zeros and at
least `places` digits stand after the point. A point without digits after it may be kept. -/
def pointed (digits : List Char) (point : Int) (places : Nat) (keepsPoint : Bool) : String :=
  let whole := if point ≤ 0 then ['0'] else withZeros point.toNat (digits.take point.toNat)
  let zeros := List.replicate (-point).toNat '0'
  let fraction := withZeros places (zeros ++ digits.drop point.toNat)
  String.ofList (whole ++ if fraction.isEmpty && !keepsPoint then [] else '.' :: fraction)

/-- No double has more significant digits than this. -/
def significantLimit : Nat := 800

/-- No double has more digits after the point than this. -/
def placeLimit : Nat := 1100

/-- The text of a magnitude, and whether it is shown as zero. -/
structure MagnitudeText where
  shown : String
  isZero : Bool

namespace MagnitudeText

/-- Digits, of which the first is before the point, with an exponent. -/
def withExponent (digits : List Char) (leading : Int) (places : Nat) (keepsPoint : Bool) : String :=
  pointed digits 1 places keepsPoint ++ Decimal.exponentText leading

/-- A magnitude with an exponent and a number of places. -/
def scientific (places : Nat) (full : Bool) (num den : Nat) : MagnitudeText :=
  let d := if num == 0 then ⟨0, 0⟩
    else Decimal.ofSignificant (min places significantLimit + 1) num den
  let digits := (toString d.digits).toList
  ⟨withExponent digits (d.exponent + (digits.length - 1 : Nat)) places full, num == 0⟩

/-- A magnitude with a number of places. -/
def fixed (places : Nat) (full : Bool) (num den : Nat) : MagnitudeText :=
  let kept := min places placeLimit
  let units := Decimal.roundedUnits num den (-kept)
  let digits := (toString units).toList
  ⟨pointed digits ((digits.length : Int) - kept) places full, units == 0⟩

/-- A decimal positionally, if its leading exponent is at least -4 and below a limit, and with an
exponent otherwise. At least `count` digits are shown, and at least `places` after the point of
positional digits. -/
def general (d : Decimal) (positionalBelow : Int) (count places : Nat) (full : Bool) : String :=
  let digits := (toString d.digits).toList
  let leading := d.exponent + (digits.length - 1 : Nat)
  if -4 ≤ leading && leading < positionalBelow then
    pointed digits (leading + 1) (max places (count - (leading + 1)).toNat) full
  else withExponent digits leading (count - 1) full

/-- A magnitude to a number of significant digits, without zeros at the end unless it is shown in
full. If `keepsPlace`, positional digits have a digit after the point. -/
def significant (count : Nat) (full keepsPlace : Bool) (num den : Nat) : MagnitudeText :=
  let count := max count 1
  let d := if num == 0 then ⟨0, 0⟩
    else (Decimal.ofSignificant (min count significantLimit) num den).trim
  let below : Int := if keepsPlace then count - 1 else count
  ⟨general d below (if full then count else 0) (if keepsPlace then 1 else 0) full, num == 0⟩

/-- A magnitude by the fewest digits that determine it. -/
def shortest (full : Bool) (mantissa : Nat) (exponent : Int) : MagnitudeText :=
  let d := if mantissa == 0 then ⟨0, 0⟩ else Decimal.shortest mantissa exponent
  ⟨general d Decimal.full.positionalBelow 0 1 full, mantissa == 0⟩

end MagnitudeText

namespace FieldLayout

/-! ### Groups of digits -/

/-- The base of a form of integers with the mark of the base. -/
def base? : (form : Char) → Option (Nat × String)
  | 'd' | 'n' => some (10, "")
  | 'b' => some (2, "0b")
  | 'o' => some (8, "0o")
  | 'x' => some (16, "0x")
  | 'X' => some (16, "0X")
  | _ => none

/-- The forms of scalars. -/
def scalarForms : List Char := ['e', 'E', 'f', 'F', 'g', 'G', 'n', '%']

/-- How many digits stand between separators in a form, if it may have the separator. -/
def groupSize? (form? : Option Char) (separator : Char) : Option Nat :=
  match form? with
  | none | some 'd' => some 3
  | some 'n' => none
  | some c =>
    if scalarForms.contains c then some 3
    else if (base? c).isSome && separator == '_' then some 4
    else none

/-- The size of groups of digits and what separates them, if groups are asked for. -/
def groups (l : FieldLayout) : Except (Failure Float) (Option (Char × Nat)) :=
  match l.separator? with
  | none => .ok none
  | some c => (groupSize? l.form? c).elim (.error .malformedNumber) fun size => .ok (some (c, size))

/-- Digits in groups. -/
def inGroups (groups? : Option (Char × Nat)) (digits : List Char) : List Char :=
  groups?.elim digits fun (separator, size) => grouped separator size digits

/-! ### Scalars -/

/-- The largest number of digits that can be asked of a scalar. -/
def precisionLimit : Nat := Nat.pow 2 31

/-- The magnitude `mantissa * 2 ^ exponent`, which is `num / den`, in the form of the layout. -/
def magnitude (l : FieldLayout) (mantissa : Nat) (exponent : Int) (num den : Nat) :
    MagnitudeText :=
  let precision := l.precision?.getD 6
  match l.form? with
  | some 'e' | some 'E' => .scientific precision l.full num den
  | some 'f' | some 'F' | some '%' => .fixed precision l.full num den
  | some _ => .significant precision l.full false num den
  | none =>
    match l.precision? with
    | some count => .significant count l.full true num den
    | none => .shortest l.full mantissa exponent

/-- The sign of a double and the text of its magnitude. -/
def signAndMagnitude (l : FieldLayout) (x : Float) : Bool × String :=
  match Binary64.parts x with
  | .notANumber => (false, "nan")
  | .infinite negative => (negative, "inf")
  | .finite negative mantissa exponent =>
    let num := if 0 ≤ exponent then mantissa * Nat.pow 2 exponent.toNat else mantissa
    let den := if 0 ≤ exponent then 1 else Nat.pow 2 (-exponent).toNat
    let text := l.magnitude mantissa exponent num den
    (negative && !(l.unsignedZero && text.isZero), text.shown)

/-- The form is one of scalars. -/
def hasScalarForm (l : FieldLayout) : Bool := l.form?.all scalarForms.contains

/-- A scalar in a field. A percentage is the hundredfold with a mark after it. -/
def scalar (l : FieldLayout) (align : Alignment) (x : Float) : Except (Failure Float) String := do
  let groups? ← l.groups
  if !l.hasScalarForm || precisionLimit ≤ l.precision?.getD 0 then .error .malformedNumber else
  let percent := l.form? == some '%'
  let (negative, text) := l.signAndMagnitude (if percent then x * 100.0 else x)
  let text := if ['E', 'F', 'G'].contains (l.form?.getD 'g') then text.toUpper else text
  let whole := text.toList.takeWhile Char.isDigit
  let rest := text.toList.drop whole.length ++ if percent then ['%'] else []
  l.place align (SignMark.shown l.sign? negative ++
    String.ofList (inGroups groups? whole ++ rest))

/-! ### Integers -/

/-- The character that an integer counts. -/
def character (n : Int) : Except (Failure Float) String :=
  if 0 ≤ n && n < 0x110000 then .ok (String.singleton (Char.ofNat n.toNat)) else .error .tooLarge

/-- An integer in a field. -/
def integer (l : FieldLayout) (align : Alignment) (n : Int) : Except (Failure Float) String := do
  let groups? ← l.groups
  let form := l.form?.getD 'd'
  let asksForScalar := l.precision?.isSome || l.unsignedZero
  match base? form with
  | some (base, mark) =>
    if asksForScalar then .error .malformedNumber else
    let digits := Nat.toDigits base n.natAbs
    let digits := if form == 'X' then digits.map Char.toUpper else digits
    l.place align (SignMark.shown l.sign? (n < 0) ++ (if l.full then mark else "") ++
      String.ofList (inGroups groups? digits))
  | none =>
    if form == 'c' then
      if asksForScalar || l.sign?.isSome || l.full then .error .malformedNumber
      else l.place align (← character n)
    else if l.hasScalarForm then l.scalar align (← Datum.scalarOfInt n)
    else .error .malformedNumber

end FieldLayout

/-- A datum in a field whose layout another datum spells. Only texts and numbers can stand in a
field. -/
def inField (align : Alignment) (layout : Datum Float) : Datum Float → Except (Failure Float) String
  | .text s => do (← FieldLayout.ofDatum layout).text align s
  | .real x => do (← FieldLayout.ofDatum layout).scalar align x
  | d =>
    match d.integer? with
    | some n => do (← FieldLayout.ofDatum layout).integer align n
    | none => .error .wrongKind

/-- A text in a field of a width stands among blanks up to the width, if that is within memory. -/
theorem inField_width (align : Alignment) (width : Nat) (s : String)
    (h : width < Datum.lengthLimit) :
    inField align (.int width) (.text s) = .ok (align.place width s) := by
  have below : Nat.pow 2 36 ≤ Nat.pow 2 63 := by decide
  have limit : ¬ Datum.countLimit ≤ (width : Int) := by
    simp only [Datum.countLimit, Datum.lengthLimit] at *
    omega
  have fits : ¬ Datum.lengthLimit ≤ width := by omega
  show (FieldLayout.ofDatum (.int (.ofNat width)) >>= fun l => l.text align s) = _
  simp [FieldLayout.ofDatum, limit, bind, Except.bind, FieldLayout.text, FieldLayout.ofWidth,
    FieldLayout.place, fits]

end Multistage.Text
