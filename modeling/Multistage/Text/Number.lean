import Multistage.Scalar
import Multistage.Text.DecimalDigit

/-!
# Numbers that texts spell

A text spells a number if it is a decimal literal, an infinity or not-a-number, with an optional
sign and blanks around it. Letters may be of either case, digits and blanks of any script, and
single underscores may stand between digits.

## Main definitions

- `SpelledNumber`: a sign and a magnitude.
- `SpelledNumber.read?`: the number that a text spells.
- `SpelledNumber.toScalar?`: the scalar nearest to it.

## Design notes

The sign is kept apart from the magnitude, since scalars may have a zero of either sign.
-/

namespace Multistage

/-- A sign and a magnitude. -/
structure SpelledNumber where
  negative : Bool
  magnitude : Extended Rat

namespace SpelledNumber

/-- The value of a list of decimal digits; single underscores may stand between digits. -/
def readDigits? (cs : List Char) : Option Nat :=
  if cs.isEmpty || cs.head? == some '_' || cs.getLast? == some '_' then none else
  (cs.foldl (fun state c =>
    match state with
    | none => none
    | some (value, wasDigit) =>
      if c.isDigit then some (10 * value + (c.toNat - '0'.toNat), true)
      else if c == '_' && wasDigit then some (value, false)
      else none) (some (0, true))).map (·.1)

/-- The number of decimal digits among characters. -/
def digitCount (cs : List Char) : Nat := (cs.filter Char.isDigit).length

/-- The value of digits with an optional point. -/
def readFraction? (cs : List Char) : Option Rat :=
  let whole := cs.takeWhile (· != '.')
  match cs.dropWhile (· != '.') with
  | [] => (readDigits? whole).map fun n => (n : Rat)
  | _ :: places =>
    let part (ds : List Char) : Option Nat := if ds.isEmpty then some 0 else readDigits? ds
    if whole.isEmpty && places.isEmpty then none else do
      let n ← part whole
      let m ← part places
      return (n : Rat) + mkRat m (Nat.pow 10 (digitCount places))

/-- A sign in front of characters, as a truth value that is true for minus. -/
def splitSign : List Char → Bool × List Char
  | '-' :: cs => (true, cs)
  | '+' :: cs => (false, cs)
  | cs => (false, cs)

/-- The largest exponent that is told apart from larger ones. It is out of the range of all scalars
that round. -/
def exponentLimit : Nat := 100000

/-- The value of a decimal literal with an optional exponent, without a sign. -/
def readMagnitude? (cs : List Char) : Option (Extended Rat) :=
  let word := String.ofList cs
  if word == "inf" || word == "infinity" then some .posInf
  else if word == "nan" then some .nan
  else
    let mantissa := cs.takeWhile (· != 'e')
    match cs.dropWhile (· != 'e') with
    | [] => (readFraction? mantissa).map .finite
    | _ :: exponent => do
      let (negative, digits) := splitSign exponent
      let m ← readFraction? mantissa
      let e := min (← readDigits? digits) exponentLimit
      return .finite (if negative then m / (Nat.pow 10 e : Nat) else m * (Nat.pow 10 e : Nat))

/-- The blanks that may stand around a number: the space, and the tabs and breaks of lines and
pages. -/
def isMargin (c : Char) : Bool := c == ' ' || ('\t' ≤ c && c ≤ '\r')

/-- Characters without the blanks around them. -/
def trim (cs : List Char) : List Char :=
  ((cs.dropWhile isMargin).reverse.dropWhile isMargin).reverse

/-- The number that a text spells. -/
def read? (s : String) : Option SpelledNumber :=
  let (negative, cs) := splitSign (trim (s.toList.map Text.plain))
  (readMagnitude? (cs.map Char.toLower)).map fun magnitude => ⟨negative, magnitude⟩

/-- The scalar nearest to a number, if the scalars have one. -/
def toScalar? {α : Type} [Scalar α] (n : SpelledNumber) : Option α :=
  (Scalar.ofExtended? n.magnitude).map fun x => if n.negative then -x else x

end SpelledNumber

end Multistage
