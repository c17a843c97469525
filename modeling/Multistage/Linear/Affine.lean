import Multistage.Dict
import Multistage.Datum

/-!
# Affine expressions

An affine expression is a sum of variables with coefficients, and a constant. Variables are handles:
they name the subproblem that owns them and their position in it.

## Main definitions

- `VariableLabel`, `Variable`: how a decision variable is shown, and its handle.
- `Affine`: an affine expression.
- `Affine.add`, `Affine.scale`, `Affine.neg`, `Affine.sub`: the operations on expressions; a
  difference adds the negative, and a negative is a multiple by minus one.
- `Affine.eval`: the value of an expression under an assignment of the variables.
-/

namespace Multistage

/-- How a decision variable is shown. -/
inductive VariableLabel where
  /-- By its position, since it has no name. -/
  | position
  | name (text : String)
  /-- Not at all, since its name is no text. -/
  | hidden
  deriving DecidableEq

/-- The label of a variable with a name; null says that there is none. -/
def VariableLabel.ofName : Name → VariableLabel
  | .null => position
  | .text s => name s
  | _ => hidden

/-- The handle of a decision variable. -/
structure Variable where
  /-- The subproblem that the variable belongs to. -/
  owner : Nat
  /-- The position of the variable in its subproblem. -/
  index : Nat
  label : VariableLabel
  deriving DecidableEq

/-- The variable can be shown. -/
def Variable.isShown (v : Variable) : Bool := v.label != .hidden

/-- The name of a variable, or its position if it has none. -/
def Variable.shown (v : Variable) : String :=
  match v.label with
  | .position => "_[" ++ toString v.index ++ "]"
  | .name text => text
  | .hidden => ""

/-- The affine expression `∑ coefficient * variable + constant`. -/
structure Affine (α : Type) where
  terms : Dict Variable α
  constant : α

namespace Affine

variable {α : Type} [Scalar α]

/-- The expression without variables. -/
def ofScalar (c : α) : Affine α := ⟨Dict.empty, c⟩

/-- The expression that is one variable. -/
def ofVariable (v : Variable) : Affine α := ⟨⟨[(v, 1)]⟩, 0⟩

/-- Add a multiple of a variable to terms. -/
def addTerm (terms : Dict Variable α) (v : Variable) (coefficient : α) : Dict Variable α :=
  terms.insert v (terms.getD v 0 + coefficient)

/-- The sum; terms of a common variable are merged in the place of the first. -/
def add (e f : Affine α) : Affine α where
  terms := f.terms.entries.foldl (fun terms t => addTerm terms t.1 t.2) e.terms
  constant := e.constant + f.constant

/-- The multiple by a scalar. -/
def scale (e : Affine α) (c : α) : Affine α where
  terms := e.terms.mapValues fun _ coefficient => coefficient * c
  constant := e.constant * c

/-- The negative. -/
def neg (e : Affine α) : Affine α := e.scale (-1)

/-- The difference. -/
def sub (e f : Affine α) : Affine α := e.add f.neg

/-- The value under an assignment of the variables. -/
def eval (e : Affine α) (assignment : Variable → α) : α :=
  e.constant + Scalar.sum (e.terms.entries.map fun t => t.2 * assignment t.1)

/-- All variables of an expression can be shown. -/
def isShown (e : Affine α) : Bool := e.terms.keys.all Variable.isShown

/-- The text of an expression; a constant of zero is left out unless it stands alone. -/
def shown (e : Affine Float) : String :=
  let terms := e.terms.entries.map fun t => generalText t.2 ++ " " ++ t.1.shown
  let constant :=
    if terms.isEmpty || !Scalar.isZero e.constant then [generalText e.constant] else []
  " + ".intercalate (terms ++ constant)

end Affine

end Multistage
