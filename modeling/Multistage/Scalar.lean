/-!
# Scalars

Every quantity of the library (a probability, a bound, a coefficient, an objective value) is a
*scalar*. A type of scalars has the four operations and two comparisons, nothing is asked of their
laws: doubles with their rounding, infinities and not-a-number are scalars, and so are the rational
numbers, over which the same definitions compute exactly.

## Main definitions

- `Extended`: a number, or one of the three values that are no real number.
- `Scalar`: the operations, the nearest scalar of a rational and the exact value of a scalar.
- `Scalar.sum`, `Scalar.dot`, `Scalar.lesser`, `Scalar.greater`: sums from left to right, and the
  choice that keeps its first argument unless the second is strictly better.

## Design notes

The comparisons are relations that may fail in both directions: `a < b` and `b ≤ a` are both false
when either side is not a number. Definitions therefore say which of the two comparisons they make.
-/

namespace Multistage

/-- A number, or one of the three values that are no real number. -/
inductive Extended (α : Type) where
  | finite (value : α)
  | posInf
  | negInf
  | nan
  deriving DecidableEq

namespace Extended

variable {α β : Type}

/-- The number, if there is one. -/
def finite? : Extended α → Option α
  | finite a => some a
  | _ => none

/-- Apply a function to the number where the result may be no number, and keep the other values. -/
def bind (a : Extended α) (f : α → Extended β) : Extended β :=
  match a with
  | finite x => f x
  | posInf => posInf
  | negInf => negInf
  | nan => nan

/-- The strict order; nothing is below or above `nan`. -/
def lt [LT α] [DecidableLT α] : Extended α → Extended α → Bool
  | finite a, finite b => a < b
  | finite _, posInf => true
  | negInf, finite _ => true
  | negInf, posInf => true
  | _, _ => false

/-- The weak order; nothing is below or above `nan`, not even itself. -/
def le [LT α] [DecidableLT α] [DecidableEq α] (a b : Extended α) : Bool :=
  a.lt b || (a == b && a != nan)

end Extended

/-- The operations that the library asks of its numbers. -/
class Scalar (α : Type) extends Zero α, One α, Add α, Sub α, Mul α, Div α, Neg α, LT α, LE α where
  /-- The strict comparison can be evaluated. -/
  decLt : DecidableLT α
  /-- The weak comparison can be evaluated. -/
  decLe : DecidableLE α
  /-- The scalar nearest to a rational number. -/
  ofRat : Rat → α
  /-- The value that a scalar stands for. -/
  exact : α → Extended Rat
  /-- The scalar of a value that may be no real number, if the scalars have one. -/
  ofExtended? : Extended Rat → Option α

instance Scalar.decidableLT {α : Type} [Scalar α] : DecidableLT α := Scalar.decLt

instance Scalar.decidableLE {α : Type} [Scalar α] : DecidableLE α := Scalar.decLe

namespace Scalar

variable {α : Type} [Scalar α]

/-- The scalar of an integer. -/
def ofInt (n : Int) : α := ofRat n

/-- The scalar of a natural number. -/
def ofNat (n : Nat) : α := ofRat n

/-- Both scalars are numbers and they are equal. -/
def same (a b : α) : Bool := a ≤ b && b ≤ a

/-- The scalar is a number, possibly an infinite one. -/
def isNumber (a : α) : Bool := same a a

/-- The scalar is zero, of either sign. -/
def isZero (a : α) : Bool := same a 0

/-- The scalar is a finite number. -/
def isFinite (a : α) : Bool := (exact a).finite?.isSome

/-- The scalar with its infinities and its not-a-number made explicit. -/
def classify (a : α) : Extended α :=
  match exact a with
  | .finite _ => .finite a
  | .posInf => .posInf
  | .negInf => .negInf
  | .nan => .nan

/-- The first argument, unless the second is strictly smaller. -/
def lesser (a b : α) : α := if b < a then b else a

/-- The first argument, unless the second is strictly greater. -/
def greater (a b : α) : α := if a < b then b else a

/-- The absolute value. -/
def abs (a : α) : α := if a < 0 then -a else a

/-- The sum from left to right, starting from zero. -/
def sum (xs : List α) : α := xs.foldl (· + ·) 0

/-- The sum of the products of entries at the same position. -/
def dot (xs ys : List α) : α := sum (List.zipWith (· * ·) xs ys)

/-- The largest number of a list, the first of equal ones; zero for the empty list. -/
def largest : List α → α
  | [] => 0
  | x :: xs => xs.foldl greater x

end Scalar

/-- The rational numbers, over which all computations are exact. -/
instance : Scalar Rat where
  zero := 0
  one := 1
  decLt := inferInstance
  decLe := inferInstance
  ofRat q := q
  exact q := .finite q
  ofExtended? := Extended.finite?

end Multistage
