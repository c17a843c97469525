import Multistage.Datum.Arithmetic

/-!
# Tensors

A tensor is a rectangular arrangement of numbers of any dimension up to a limit. A nested list is
one if its levels have the lengths that their first items show. If one of these lengths is zero
there are no numbers, and nothing else is looked at.

## Main definitions

- `Tensor`: the lengths of the levels and the numbers, row by row.
- `Tensor.ofDatum`: a nested list as a tensor.
- `Tensor.vector`: a list of numbers.
- `Matrix`, `Tensor.matrix?`: a tensor of dimension two.
-/

namespace Multistage

/-- Numbers in a rectangular arrangement of any dimension, listed row by row. -/
structure Tensor (α : Type) where
  shape : List Nat
  entries : List α

namespace Tensor

variable {α : Type} [Scalar α]

/-- The lengths of the levels of a nested list, read off the first items. A text is a sequence whose
items are texts again, so it has levels without end unless it is empty. -/
def shapeOf : Datum α → Except (Failure α) (List Nat)
  | .list [] => .ok [0]
  | .list (d :: rest) => (shapeOf d).map ((rest.length + 1) :: ·)
  | .tuple [] => .ok [0]
  | .tuple (d :: rest) => (shapeOf d).map ((rest.length + 1) :: ·)
  | .text s => if s.isEmpty then .ok [0] else .error .raggedMatrix
  | _ => .ok []

/-- The numbers of a nested list that has levels of given lengths. -/
def entriesOf : (shape : List Nat) → Datum α → Except (Failure α) (List α)
  | [], d => d.asNumber.map ([·])
  | n :: shape, d => do
    let items ← d.elements
    if items.length != n then .error .raggedMatrix
    else (items.mapM (entriesOf shape)).map List.flatten

/-- The largest number of levels of a tensor. -/
def levelLimit : Nat := 128

/-- A nested list as a tensor; its levels must be rectangular. -/
def ofDatum (d : Datum α) : Except (Failure α) (Tensor α) :=
  match d with
  | .text _ => .error .wrongKind
  | d => do
    let shape ← shapeOf d
    if levelLimit < shape.length then .error .raggedMatrix
    else return ⟨shape, ← if shape.contains 0 then .ok [] else entriesOf shape d⟩

/-- All entries in a single row. -/
def asRow (t : Tensor α) : Tensor α := ⟨[1, t.entries.length], t.entries⟩

/-- All entries in rows of a common length. -/
def inRows (t : Tensor α) (rows columns : Nat) : Except (Failure α) (List (List α)) :=
  if t.entries.length == rows * columns then
    .ok ((List.range rows).map fun i => (t.entries.drop (i * columns)).take columns)
  else .error .sizeMismatch

/-- The numbers of a list without nesting. -/
def vector (d : Datum α) : Except (Failure α) (List α) := do
  let t ← ofDatum d
  if t.shape.length == 1 then return t.entries else .error .sizeMismatch

end Tensor

/-- A matrix with its number of columns, which an empty list of rows does not show. -/
structure Matrix (α : Type) where
  columns : Nat
  rows : List (List α)

/-- A tensor of dimension two as a matrix. -/
def Tensor.matrix? {α : Type} (t : Tensor α) : Option (Matrix α) :=
  match t.shape with
  | [rows, columns] => (t.inRows rows columns).toOption.map fun rows => ⟨columns, rows⟩
  | _ => none

end Multistage
