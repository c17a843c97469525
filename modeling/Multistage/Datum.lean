import Multistage.Text.Decimal
import Multistage.Text.Quoted

/-!
# Data

Node indices, noise terms and the raw values of options are *data*: null, truth values, integers,
scalars, texts, and tuples, lists and records of data. Data are compared by what they stand for, so
that an integer, a scalar and a truth value are equal if their numbers are.

## Main definitions

- `Datum`: a datum over a type of scalars.
- `Datum.Identity`: what a datum stands for; two data are equal iff they stand for the same.
- `Datum.equals`: the comparison, by which not-a-number differs from itself.
- `Datum.written`, `Datum.shown`: the text of a datum, with quotes and without.
- `Name`: a datum as the name of something.
-/

namespace Multistage

/-- A value of dynamic kind. -/
inductive Datum (α : Type) where
  | null
  | bool (value : Bool)
  | int (value : Int)
  | real (value : α)
  | text (value : String)
  | tuple (items : List (Datum α))
  | list (items : List (Datum α))
  | record (fields : List (String × Datum α))

namespace Datum

variable {α : Type}

instance : Inhabited (Datum α) := ⟨null⟩

/-- What a datum stands for. A sequence is a chain of `cons` cells that ends in `nil`. -/
inductive Identity where
  | null
  | number (value : Extended Rat)
  | text (value : String)
  | nil
  | cons (head tail : Identity)
  | sequence (isMutable : Bool) (items : Identity)
  | record (fields : Identity)
  deriving DecidableEq

mutual

/-- What a datum stands for. -/
def identity [Scalar α] : Datum α → Identity
  | null => .null
  | bool b => .number (.finite (if b then 1 else 0))
  | int n => .number (.finite n)
  | real x => .number (Scalar.exact x)
  | text s => .text s
  | tuple items => .sequence false (identities items)
  | list items => .sequence true (identities items)
  | record fields => .record (fieldIdentities fields)

/-- What the items of a sequence stand for. -/
def identities [Scalar α] : List (Datum α) → Identity
  | [] => .nil
  | d :: rest => .cons (identity d) (identities rest)

/-- What the fields of a record stand for. -/
def fieldIdentities [Scalar α] : List (String × Datum α) → Identity
  | [] => .nil
  | (name, d) :: rest => .cons (.cons (.text name) (identity d)) (fieldIdentities rest)

end

instance [Scalar α] : BEq (Datum α) := ⟨fun a b => decide (a.identity = b.identity)⟩

/-- Data are equal iff they stand for the same. -/
theorem beq_iff_identity_eq [Scalar α] {a b : Datum α} :
    (a == b) = true ↔ a.identity = b.identity := by
  simp [BEq.beq]

instance [Scalar α] : EquivBEq (Datum α) where
  rfl := by simp [beq_iff_identity_eq]
  symm h := beq_iff_identity_eq.2 (beq_iff_identity_eq.1 h).symm
  trans h k := beq_iff_identity_eq.2 ((beq_iff_identity_eq.1 h).trans (beq_iff_identity_eq.1 k))

/-- Two data compare as equal: they stand for the same, and it is not not-a-number, which compares
as equal to nothing. Inside a sequence, and as a key, not-a-number is itself. -/
def equals [Scalar α] (a b : Datum α) : Bool := a == b && a.identity != .number .nan

/-- Data that compare as equal are equal. -/
theorem beq_of_equals [Scalar α] {a b : Datum α} (h : a.equals b = true) : (a == b) = true :=
  (Bool.and_eq_true_iff.1 h).1

/-- The tuple of two natural numbers. -/
def pair (a b : Nat) : Datum α := tuple [int a, int b]

/-- Items between parentheses; a single one keeps its comma. -/
def parenthesised (items : List String) : String :=
  "(" ++ ", ".intercalate items ++ (if items.length == 1 then ",)" else ")")

mutual

/-- The text of a datum, with texts in quotes. -/
def written : Datum Float → String
  | null => "None"
  | bool b => if b then "True" else "False"
  | int n => toString n
  | real x => shortestText x
  | text s => Text.quoted s
  | tuple items => parenthesised (allWritten items)
  | list items => Text.bracketed (allWritten items)
  | record fields => "\x7b" ++ ", ".intercalate (fieldsWritten fields) ++ "\x7d"

/-- The texts of data, with texts in quotes. -/
def allWritten : List (Datum Float) → List String
  | [] => []
  | d :: rest => written d :: allWritten rest

/-- The texts of the fields of a record. -/
def fieldsWritten : List (String × Datum Float) → List String
  | [] => []
  | (name, d) :: rest => (Text.quoted name ++ ": " ++ written d) :: fieldsWritten rest

end

/-- The text of a datum, where a text is shown as it is. -/
def shown : Datum Float → String
  | text s => s
  | d => written d

end Datum

/-- A name, mostly a text. Null is a name like any other, except where it says that there is none.
Whatever the scalars of what is named, those of names are doubles. -/
abbrev Name := Datum Float

end Multistage
