import Multistage.Datum.Arithmetic

/-!
# Fields

A field is a number of columns in which a value stands among blanks. How it stands there is its
layout, which is spelled by a short text. Every part of the text may be left out:

  `[sign][z][#][width][separator][.precision][form]`

A layout that asks for something that the value does not have, such as the sign of a text, is
malformed.

## Main definitions

- `Alignment`: where a content stands in a field that is wider.
- `FieldLayout`: layouts.
- `FieldLayout.read`, `FieldLayout.ofDatum`: the layout that a text or a datum spells.
- `FieldLayout.text`: a text in a field.

## Main statements

- `length_alignRight`, `length_centre`: a field is as wide as asked, or as wide as its content.
-/

namespace Multistage.Text

/-! ### Alignment -/

/-- Blanks. -/
def blanks (count : Int) : String := String.ofList (List.replicate count.toNat ' ')

/-- A text with blanks in front of it up to a width. -/
def alignRight (width : Int) (s : String) : String := blanks (width - s.length) ++ s

/-- A text with blanks after it up to a width. -/
def alignLeft (width : Int) (s : String) : String := s ++ blanks (width - s.length)

/-- A text between blanks up to a width; an odd blank stands after it. -/
def centre (width : Int) (s : String) : String :=
  let missing := (width - s.length).toNat
  blanks (missing / 2 : Nat) ++ s ++ blanks (missing - missing / 2 : Nat)

/-- The number of blanks. -/
theorem length_blanks (count : Int) : (blanks count).length = count.toNat := by
  simp [blanks]

/-- A text aligned to the right is as wide as asked, or as wide as it is. -/
theorem length_alignRight (width : Int) (s : String) :
    (alignRight width s).length = max width.toNat s.length := by
  simp [alignRight, length_blanks]
  omega

/-- A centred text is as wide as asked, or as wide as it is. -/
theorem length_centre (width : Int) (s : String) :
    (centre width s).length = max width.toNat s.length := by
  simp [centre, length_blanks]
  omega

/-- The first characters of a text. -/
def takeFirst (count : Int) (s : String) : String := String.ofList (s.toList.take count.toNat)

/-- Where a content stands in a field that is wider. -/
inductive Alignment where
  | right
  | centre

/-- A text among blanks up to a width. -/
def Alignment.place : Alignment → (width : Int) → String → String
  | right => alignRight
  | centre => Text.centre

/-! ### Layouts -/

/-- What stands in front of a number that is not negative. -/
inductive SignMark where
  | nothing
  | plus
  | blank

/-- How a value stands in a field. -/
structure FieldLayout where
  /-- What stands in front of a number that is not negative, if that is asked for. -/
  sign? : Option SignMark
  /-- A number that is shown as zero is not shown as negative. -/
  unsignedZero : Bool
  /-- The base of an integer is shown, and so are the point and the last zeros of a scalar. -/
  full : Bool
  /-- The least number of columns. -/
  width : Nat
  /-- What stands between groups of digits. -/
  separator? : Option Char
  /-- How many characters of a text, or digits of a scalar, are shown. -/
  precision? : Option Nat
  /-- The letter that says in which form the value is written. -/
  form? : Option Char

namespace SignMark

/-- The sign mark that a character stands for. -/
def ofChar? : Char → Option SignMark
  | '-' => some nothing
  | '+' => some plus
  | ' ' => some blank
  | _ => none

/-- The sign in front of a number. -/
def shown (mark? : Option SignMark) (negative : Bool) : String :=
  if negative then "-" else
  match mark? with
  | some plus => "+"
  | some blank => " "
  | _ => ""

end SignMark

/-- A first character that passes a test, and the characters after it. -/
def takeIf (test : Char → Bool) : List Char → Option Char × List Char
  | [] => (none, [])
  | c :: rest => if test c then (some c, rest) else (none, c :: rest)

/-- The count that first digits, of any script, spell, and the characters after them. -/
def takeCount (cs : List Char) : Except (Failure Float) (Option Nat × List Char) :=
  let digits := cs.takeWhile fun c => (digitValue? c).isSome
  let count := digits.foldl (fun n c => 10 * n + (digitValue? c).getD 0) 0
  if digits.isEmpty then .ok (none, cs)
  else if Datum.countLimit ≤ count then .error .malformedNumber
  else .ok (some count, cs.drop digits.length)

/-- The count after a point, which may not be left out, and the characters after it. -/
def takePrecision (cs : List Char) : Except (Failure Float) (Option Nat × List Char) := do
  match takeIf (· == '.') cs with
  | (none, rest) => return (none, rest)
  | (some _, rest) =>
    let (count?, rest) ← takeCount rest
    if count?.isNone then .error .malformedNumber else return (count?, rest)

namespace FieldLayout

/-- The layout that a text spells. -/
def read (s : String) : Except (Failure Float) FieldLayout := do
  let (sign?, cs) := takeIf (fun c => (SignMark.ofChar? c).isSome) s.toList
  let (zero?, cs) := takeIf (· == 'z') cs
  let (full?, cs) := takeIf (· == '#') cs
  let (width?, cs) ← takeCount cs
  let (separator?, cs) := takeIf (fun c => c == ',' || c == '_') cs
  let (precision?, cs) ← takePrecision cs
  if 1 < cs.length then .error .malformedNumber else
  return {
    sign? := sign?.bind SignMark.ofChar?
    unsignedZero := zero?.isSome
    full := full?.isSome
    width := width?.getD 0
    separator? := separator?
    precision? := precision?
    form? := cs.head? }

/-- The layout that asks for a width only. -/
def ofWidth (width : Nat) : FieldLayout where
  sign? := none
  unsignedZero := false
  full := false
  width := width
  separator? := none
  precision? := none
  form? := none

/-- The layout that a datum spells. A natural number spells a width, and every other datum what its
text spells. -/
def ofDatum : Datum Float → Except (Failure Float) FieldLayout
  | .int (.ofNat n) => if Datum.countLimit ≤ n then .error .malformedNumber else .ok (ofWidth n)
  | d => read d.shown

/-- A content among blanks up to the width. -/
def place (l : FieldLayout) (align : Alignment) (content : String) :
    Except (Failure Float) String :=
  if Datum.lengthLimit ≤ l.width then .error .tooLong else .ok (align.place l.width content)

/-- A text in a field, of which the layout may show the first characters only. -/
def text (l : FieldLayout) (align : Alignment) (content : String) :
    Except (Failure Float) String :=
  let asksForNumber := l.sign?.isSome || l.unsignedZero || l.full || l.separator?.isSome
  if asksForNumber || l.form?.getD 's' != 's' then .error .malformedNumber
  else l.place align (l.precision?.elim content fun count => takeFirst count content)

end FieldLayout

end Multistage.Text
