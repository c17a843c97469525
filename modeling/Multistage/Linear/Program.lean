import Multistage.Scalar

/-!
# Linear programs

A linear program minimises a linear cost over the points that satisfy rows of inequalities and of
equations and lie within bounds. A solver is any function from programs to outcomes.

## Main definitions

- `Program`: the data of a linear program.
- `Program.Admits`: the point is feasible.
- `Outcome`, `Solver`: what solving reports.
- `Termination`, `PointStatus`: the words for an outcome.
-/

namespace Multistage

/-- A row of coefficients and its right hand side. -/
structure Row (α : Type) where
  coefficients : List α
  rhs : α

/-- Minimise `cost · x` over the `x` with `a · x ≤ b` for the rows of `atMost`, `a · x = b` for the
rows of `equal`, and entries within the bounds, where there are any. -/
structure Program (α : Type) where
  cost : List α
  atMost : List (Row α)
  equal : List (Row α)
  lower : List (Option α)
  upper : List (Option α)

namespace Program

variable {α β : Type}

/-- The number of variables. -/
def size (p : Program α) : Nat := p.cost.length

/-- Apply a function to every number of a program. -/
def map (f : α → β) (p : Program α) : Program β :=
  let row (r : Row α) : Row β := ⟨r.coefficients.map f, f r.rhs⟩
  { cost := p.cost.map f
    atMost := p.atMost.map row
    equal := p.equal.map row
    lower := p.lower.map (·.map f)
    upper := p.upper.map (·.map f) }

/-- The point satisfies every row and every bound. -/
structure Admits [Scalar α] (p : Program α) (x : List α) : Prop where
  length_eq : x.length = p.size
  atMost_le : ∀ r ∈ p.atMost, Scalar.dot r.coefficients x ≤ r.rhs
  equal_eq : ∀ r ∈ p.equal, Scalar.dot r.coefficients x = r.rhs
  lower_le : ∀ b ∈ p.lower.zip x, ∀ l ∈ b.1, l ≤ b.2
  le_upper : ∀ b ∈ p.upper.zip x, ∀ u ∈ b.1, b.2 ≤ u

end Program

/-- What a solver reports. -/
inductive Outcome (α : Type) where
  /-- A cheapest point, its cost, and for every equation the derivative of the least cost in its
  right hand side. -/
  | optimal (point : List α) (value : α) (marginals : List α)
  /-- No point satisfies all rows and bounds. -/
  | infeasible
  /-- There are feasible points of arbitrarily low cost. -/
  | unbounded
  /-- The solver gave up. -/
  | undecided

/-- Apply a function to every number of an outcome. -/
def Outcome.map {α β : Type} (f : α → β) : Outcome α → Outcome β
  | optimal point value marginals => optimal (point.map f) (f value) (marginals.map f)
  | infeasible => infeasible
  | unbounded => unbounded
  | undecided => undecided

/-- A way to solve linear programs. -/
abbrev Solver (α : Type) := Program α → Outcome α

/-- How the last solve ended. -/
inductive Termination where
  | notCalled
  | optimal
  | infeasible
  | unbounded
  | undecided
  deriving DecidableEq

/-- The word for a termination. -/
def Termination.word : Termination → String
  | notCalled => "not_called"
  | optimal => "optimal"
  | infeasible => "infeasible"
  | unbounded => "unbounded"
  | undecided => "iteration_limit"

/-- Whether a solution is at hand. -/
inductive PointStatus where
  | feasiblePoint
  | noSolution
  deriving DecidableEq

/-- The word for a point status. -/
def PointStatus.word : PointStatus → String
  | feasiblePoint => "feasible_point"
  | noSolution => "no_solution"

end Multistage
