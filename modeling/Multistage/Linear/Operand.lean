import Multistage.Linear.Affine

/-!
# Operands

A name in a subproblem, and an operand of a formula, stands for a datum, a variable, an affine
expression, the two copies of a state variable, a tuple that holds variables, or a constraint.

## Main definitions

- `StateVariable`: the incoming and the outgoing copy of a state variable.
- `Relation`, `Constraint`, `ConstraintHandle`: linear constraints and how they are referred to.
- `TupleItem`, `Operand`: what a name stands for.
- `Misfit`: what stands where an affine expression is needed.
-/

namespace Multistage

/-- The incoming and the outgoing copy of a state variable. -/
structure StateVariable where
  incoming : Variable
  outgoing : Variable

/-- How the two sides of a constraint relate. -/
inductive Relation where
  | atMost
  | atLeast
  | equal
  deriving DecidableEq

namespace Relation

/-- The relations in the order in which they are listed. -/
def all : List Relation := [atMost, atLeast, equal]

/-- The symbol of a relation. -/
def symbol : Relation → String
  | atMost => "<="
  | atLeast => ">="
  | equal => "=="

/-- The relation of a symbol. -/
def ofSymbol? (s : String) : Option Relation := all.find? (·.symbol == s)

end Relation

/-- A linear constraint over the variables of one subproblem. -/
structure Constraint (α : Type) where
  /-- The coefficients by the positions of the variables. -/
  coefficients : Dict Nat α
  relation : Relation
  rhs : α
  /-- The name, or null if there is none. -/
  name : Name
  /-- The constraint takes part in the solves. -/
  active : Bool

/-- The handle of a constraint. -/
structure ConstraintHandle where
  /-- The subproblem that the constraint belongs to. -/
  owner : Nat
  /-- The position among all constraints that were ever added to it. -/
  index : Nat
  deriving DecidableEq

/-- An item of a tuple that holds variables. -/
inductive TupleItem (α : Type) where
  | decision (handle : Variable)
  | datum (value : Datum α)

/-- What a name stands for. -/
inductive Operand (α : Type) where
  | datum (value : Datum α)
  | decision (handle : Variable)
  | affine (expression : Affine α)
  | state (copies : StateVariable)
  /-- The items of tuples that were joined, one of them a state. -/
  | tuple (items : List (TupleItem α))
  | constraint (handle : ConstraintHandle)

/-- What is shown of a subproblem. -/
structure SubproblemSummary (α : Type) where
  label : Datum α
  variableCount : Nat
  constraintCount : Nat

/-- The text of a subproblem. -/
def SubproblemSummary.shown (s : SubproblemSummary Float) : String :=
  "Subproblem(" ++ s.label.written ++ ", variables=" ++ toString s.variableCount ++
    ", constraints=" ++ toString s.constraintCount ++ ")"

/-- What stands where an affine expression is needed. -/
inductive Misfit (α : Type) where
  | datum (value : Datum α)
  | state (copies : StateVariable)
  | tuple (items : List (TupleItem α))
  | constraint (subproblem : SubproblemSummary α) (constraint : Constraint α)

/-- The text of an item of a tuple. -/
def TupleItem.shown : TupleItem Float → String
  | decision v => v.shown
  | datum d => d.written

/-- The text of a misfit. -/
def Misfit.shown : Misfit Float → String
  | datum d => d.written
  | state s => "State(in_=" ++ s.incoming.shown ++ ", out=" ++ s.outgoing.shown ++ ")"
  | tuple items => Datum.parenthesised (items.map TupleItem.shown)
  | constraint subproblem c =>
    let coefficients := c.coefficients.entries.map fun e =>
      toString e.1 ++ ": " ++ shortestText e.2
    "Constraint(subproblem=" ++ subproblem.shown ++
      ", coefficients=\x7b" ++ ", ".intercalate coefficients ++ "\x7d" ++
      ", sense=" ++ Text.quoted c.relation.symbol ++ ", rhs=" ++ shortestText c.rhs ++
      ", name=" ++ c.name.written ++
      ", active=" ++ (if c.active then "True" else "False") ++ ")"

end Multistage
