import Multistage.Datum.Arithmetic

/-!
# Quantities

What is computed with scalars can also be computed with data, where every operation may fail since
a datum may turn out to be no number, or too large for a scalar. Both are quantities, so that a
definition over quantities serves for both. Over scalars no operation fails.

## Main definitions

- `Quantity`: the operations.
- `Quantity.sum`: the sum from left to right.

## Main statements

- `Quantity.sum_eq_sum`: over scalars the sum of quantities is the sum of scalars.
-/

namespace Multistage

/-- Numbers whose operations may fail. -/
class Quantity (β : Type) (α : outParam Type) where
  zero : β
  one : β
  add : β → β → Except (Failure α) β
  sub : β → β → Except (Failure α) β
  mul : β → β → Except (Failure α) β
  abs : β → Except (Failure α) β
  /-- The quotient, as a scalar. -/
  ratio : β → β → Except (Failure α) α
  less : β → β → Except (Failure α) Bool
  toScalar : β → Except (Failure α) α
  toDatum : β → Datum α

namespace Quantity

instance ofScalar {α : Type} [Scalar α] : Quantity α α where
  zero := 0
  one := 1
  add x y := .ok (x + y)
  sub x y := .ok (x - y)
  mul x y := .ok (x * y)
  abs x := .ok (Scalar.abs x)
  ratio x y := .ok (x / y)
  less x y := .ok (decide (x < y))
  toScalar := .ok
  toDatum := .real

instance ofDatum {α : Type} [Scalar α] : Quantity (Datum α) α where
  zero := .int 0
  one := .int 1
  add := Datum.add
  sub := Datum.sub
  mul := Datum.mul
  abs := Datum.abs
  ratio a b := do (← a.div b).asNumber
  less := Datum.less
  toScalar := Datum.toScalar
  toDatum := id

variable {α β : Type}

/-- The sum from left to right, starting from zero. -/
def sum [Quantity β α] (xs : List β) : Except (Failure α) β := xs.foldlM add zero

/-- Over scalars the sum of quantities is the sum of scalars. -/
theorem sum_eq_sum [Scalar α] (xs : List α) : sum xs = .ok (Scalar.sum xs) := by
  have h : ∀ (ys : List α) (s : α),
      ys.foldlM (m := Except (Failure α)) add s = .ok (ys.foldl (· + ·) s) := by
    intro ys
    induction ys with
    | nil => intro s; rfl
    | cons y ys ih => intro s; exact ih (s + y)
  exact h xs 0

end Quantity

end Multistage
