import Multistage.Text.FieldNumber

/-!
# Rows of tables

A row shows an index, aligned to the right, and cells, centred, with bars between them. A content
that does not fit its cell is cut: the middle of a single line is left out, and of several lines
only the beginning of the first is kept.

## Main definitions

- `Text.Width`: how wide a cell is, and how a content is laid out in it.
- `Text.Width.ofDatum`: the width that a datum stands for.
- `Text.linesOf`: the lines of a text.
- `Text.shorten`: a content cut to a width.
- `Text.row`, `Text.textRow`: a row.
- `Text.logHeader`, `Text.logRow`: the table of a training run.
- `Text.abridged`: the entries that are shown, if those in the middle are left out.
- `Text.listing`: the table of a model, which leaves out rows in the middle if there are too many.
-/

namespace Multistage.Text

/-- What stands for the part of a content that is left out. -/
def ellipsis : String := "..."

/-- The lines of a text. -/
def linesOf (s : String) : List String := (s.toList.splitOn '\n').map String.ofList

/-- The last character of a text. -/
def takeLast (s : String) : String := String.ofList (s.toList.drop (s.length - 1))

/-- A width: a whole number of columns, or a scalar. -/
inductive Width where
  | whole (columns : Int)
  | fractional (columns : Float)

namespace Width

/-- The number of columns that a width stands for. -/
def exact : Width → Extended Rat
  | whole n => .finite n
  | fractional x => Scalar.exact x

/-- A number of columns exceeds the width. -/
def isBelow (w : Width) (columns : Int) : Bool := w.exact.lt (.finite columns)

/-- The width without some columns. -/
def minus (w : Width) (columns : Int) : Width :=
  match w with
  | whole n => whole (n - columns)
  | fractional x => fractional (x - Scalar.ofInt columns)

/-- The datum that stands for a width. -/
def toDatum : Width → Datum Float
  | whole n => .int n
  | fractional x => .real x

/-- A content in a field of the width. -/
def layOut (align : Alignment) (w : Width) (content : Datum Float) :
    Except (Failure Float) String := inField align w.toDatum content

/-- The width that a datum stands for. -/
def ofDatum : Datum Float → Except (Failure Float) Width
  | .real x => .ok (fractional x)
  | d => d.toInteger.map whole

end Width

/-- A datum that is a text, as it is joined to texts. -/
def joined : Datum Float → Except (Failure Float) String
  | .text s => .ok s
  | _ => .error .wrongKind

/-- A content cut to at most `width` characters, with a placeholder where something is missing. Only
a whole width can cut. The placeholder may be any container as long as nothing is missing. -/
def shorten (content : Datum Float) (width : Width) (placeholder : Datum Float) :
    Except (Failure Float) String := do
  let size : Int := (← placeholder.elements).length
  let cut (s : String) (columns : Int → Int) (rest : String) : Except (Failure Float) String :=
    match width with
    | .whole n => do return takeFirst (columns n) s ++ (← joined placeholder) ++ rest
    | .fractional _ => .error .wrongKind
  if width.isBelow (size + 1) then .error .cellWidth else
  match content with
  | .text s =>
    match linesOf s with
    | [line] =>
      if width.isBelow line.length then cut line (fun n => max (n - 1 - size) 0) (takeLast line)
      else return line
    | line :: _ =>
      if width.isBelow (line.length + size) then cut line (fun n => max (n - size) 1) ""
      else return line ++ (← (width.minus line.length).layOut .right placeholder)
    | [] => return s
  | _ => .error .missingField

/-- A row of a table. The width of the index is only written down, as the layout of a field; that of
the cells is read when something is laid out in them. -/
def row (index : Datum Float) (contents : List (Datum Float)) (indexWidth : Datum Float)
    (cellWidth : Except (Failure Float) Width) : Except (Failure Float) String := do
  let heading ← inField .right indexWidth index
  let cells ← contents.mapM fun content => do
    let width ← cellWidth
    width.layOut .centre (.text (← shorten content width (.text ellipsis)))
  return " " ++ " | ".intercalate (heading :: cells)

/-- The width of the terminal. -/
def terminalWidth : Int := 80

/-- The height of the terminal. -/
def terminalHeight : Int := 20

/-- The width of a cell if the columns after the index share what is left of the total width: each
column has a bar and a blank on either side. There is no whole share of an infinite width. -/
def cellWidth (width : Width) (indexWidth : Int) (columns : Nat) : Width :=
  match width.minus (indexWidth + 2 + columns) with
  | .whole n => .whole (n.fdiv columns - 2)
  | .fractional x =>
    .fractional <| match Scalar.exact x with
      | .finite q => Scalar.ofInt ((q / columns).floor - 2)
      | _ => 0.0 / 0.0

/-- A row of texts in a table of a total width, with some columns after the index. -/
def textRow (width : Width) (indexWidth columns : Nat) (index : String) (contents : List String) :
    Except (Failure Float) String :=
  row (.text index) (contents.map .text) (.int indexWidth)
    (.ok (cellWidth width indexWidth columns))

/-- The headings of the training log after the iteration. -/
def logHeadings : List String := ["bound", "simulation", "time (s)"]

/-- The heading of the index of the training log. -/
def logIndex : String := "iteration"

/-- A row of the training log. -/
def logLine (width : Width) : (index : String) → (contents : List String) →
    Except (Failure Float) String :=
  textRow width logIndex.length logHeadings.length

/-- A line under a heading. -/
def rule (heading : String) (mark : Char) : String :=
  String.ofList (List.replicate heading.length mark)

/-- The total width of a table; null stands for that of the terminal. -/
def totalWidth : Datum Float → Except (Failure Float) Width
  | .null => .ok (.whole terminalWidth)
  | d => Width.ofDatum d

/-- The headings of the training log with the line under them. -/
def logHeader (width : Datum Float) : Except (Failure Float) (List String) := do
  let heading ← logLine (← totalWidth width) logIndex logHeadings
  return [heading, rule heading '=']

/-- A number in a format; a text is malformed, and everything else is no number. -/
def formatted (format : Float → String) : Datum Float → Except (Failure Float) String
  | .text _ => .error .malformedNumber
  | d => d.asNumber.map format

/-- The row of an iteration in the training log. -/
def logRow (iteration bound simulation time width : Datum Float) :
    Except (Failure Float) String := do
  logLine (← totalWidth width) (iteration.shown ++ " ")
    [← formatted (scientificText 6) bound, ← formatted (scientificText 6) simulation,
      ← formatted (fixedText 2) time]

/-- By how much the height of a listing exceeds the number of first entries that it shows. -/
def listingOverhead : Int := 7

/-- The height of a table; null stands for that of the terminal. -/
def totalHeight : Datum Float → Datum Float
  | .null => .int terminalHeight
  | d => d

/-- The heading of the indices of a listing. -/
def listingIndex : String := "node"

/-- The width of the indices of a listing, in which their heading fits as well. -/
def indexColumns (indices : List String) : Nat :=
  max ((indices.map String.length).foldl max 0) listingIndex.length

/-- All entries if at most two are beyond the room for first ones, and otherwise the first ones, a
gap, and the last two. -/
def abridged {β : Type} (room : Nat) (entries : List β) : List (Option β) :=
  if entries.length ≤ room + 2 then entries.map some
  else (entries.take room).map some ++ none :: (entries.drop (entries.length - 2)).map some

/-- A listing with a title, headings, a first row and a row for every entry. Of entries that do not
fit the height all are left out but the first ones and the last two. -/
def listing (title : String) (headings : List String) (first : String × List String)
    (entries : List (String × List String)) (width height : Datum Float) :
    Except (Failure Float) (List String) := do
  if ← (totalHeight height).atMost (.int listingOverhead) then .error .tableHeight else
  let line := textRow (← totalWidth width) (indexColumns (entries.map (·.1))) headings.length
  let heading ← line listingIndex headings
  let firstLine ← line (first.1 ++ " ") first.2
  let room := ((← (totalHeight height).toInteger) - listingOverhead).toNat
  let gap := (ellipsis, headings.map fun _ => ellipsis)
  let rows ← (abridged room entries).mapM fun slot =>
    line ((slot.getD gap).1 ++ " ") (slot.getD gap).2
  return [title, heading, rule heading '=', firstLine] ++ rows ++ [")"]

end Multistage.Text
