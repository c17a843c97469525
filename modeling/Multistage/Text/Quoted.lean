import Multistage.Text.Unprintable

/-!
# Quoted text

A text is quoted so that every character can be seen: in single quotes, or in double quotes if it
holds a single quote and no double quote. A backslash escapes itself, the surrounding quote and
line breaks, and unprintable characters are written by their code point.

## Main definitions

- `Text.quoted`: a text in quotes.
- `Text.escaped`: one character between given quotes.
-/

namespace Multistage.Text

/-- A number in hexadecimal digits, padded with zeros to `width`. -/
def hexadecimal (width n : Nat) : String :=
  let digits := Nat.toDigits 16 n
  String.ofList (List.replicate (width - digits.length) '0' ++ digits)

/-- A character between quotes. -/
def escaped (quote : Char) (c : Char) : String :=
  if c == quote || c == '\\' then String.ofList ['\\', c]
  else if c == '\n' then "\\n"
  else if c == '\r' then "\\r"
  else if c == '\t' then "\\t"
  else if isPrintable c then String.singleton c
  else if c.toNat < 0x100 then "\\x" ++ hexadecimal 2 c.toNat
  else if c.toNat < 0x10000 then "\\u" ++ hexadecimal 4 c.toNat
  else "\\U" ++ hexadecimal 8 c.toNat

/-- The quote in which a text is written. -/
def quoteOf (s : String) : Char := if s.contains '\'' && !s.contains '"' then '"' else '\''

/-- A text in quotes. -/
def quoted (s : String) : String :=
  let quote := quoteOf s
  String.singleton quote ++ String.join (s.toList.map (escaped quote)) ++ String.singleton quote

/-- A list of texts that are already written, separated by commas, in square brackets. -/
def bracketed (items : List String) : String := "[" ++ ", ".intercalate items ++ "]"

end Multistage.Text
