import Multistage.Datum.Arithmetic
import Multistage.Risk

/-!
# Subproblems

A subproblem is a linear program that is assembled step by step: variables with bounds, constraints
that can be edited and switched off, variables that are fixed to a value for the next solve, and an
objective. A solve keeps its statuses, the point, and for every fixed variable the derivative of the
optimal value in the value that the variable is fixed to.

## Main definitions

- `Subproblem`: the program, the names in it and the result of the last solve.
- `Subproblem.addVariable`, `Subproblem.addConstraint`, `Subproblem.fix` and the other changes: each
  may fail, and keeps what it changed before it failed.
- `Subproblem.program`: the linear program of a subproblem in rows and bounds.
- `Subproblem.optimize`: a solve by any solver.
- `Subproblem.valueOf`, `Subproblem.fixedDual`: what a solve found.

## Design notes

A fixed variable becomes an equation and ignores its bounds, so that the solver reports a marginal
for it. Maximisation is minimisation of the negative, and both the value and the marginals change
sign back.
-/

namespace Multistage

/-- A linear program with mutable bounds, coefficients and objective. -/
structure Subproblem (α : Type) where
  label : Datum α
  /-- The number by which handles refer to the subproblem. -/
  owner : Nat
  /-- The names of the variables; null stands for none. -/
  names : List Name
  lower : List (Extended α)
  upper : List (Extended α)
  /-- The values that variables are fixed to, by position. -/
  fixed : Dict Nat α
  constraints : List (Constraint α)
  /-- What can be looked up by name. -/
  registry : Dict Name (Operand α)
  sense : Sense
  objective : Affine α
  termination : Termination
  primal : PointStatus
  dual : PointStatus
  /-- The point of the last solve, if it found one. -/
  point? : Option (List α)
  /-- The optimal value of the last solve, if it found one. -/
  optimum? : Option α
  /-- The derivatives of the optimal value in the values of the fixed variables. -/
  fixedDuals : Dict Nat α

/-- The relation of a symbol, or a failure. -/
def Relation.ofDatum {α : Type} (symbol : Datum α) : Except (Failure α) Relation :=
  match symbol with
  | .text s => (Relation.ofSymbol? s).elim (.error (.unknownRelation symbol)) .ok
  | _ => .error (.unknownRelation symbol)

/-- The sense of a word, or a failure. -/
def Sense.ofDatum {α : Type} (word : Datum α) : Except (Failure α) Sense :=
  match word with
  | .text s => (Sense.ofWord? s).elim (.error (.unknownSense word)) .ok
  | _ => .error (.unknownSense word)

namespace Subproblem

variable {α : Type} [Scalar α]

/-- The subproblem without variables. -/
def empty (label : Datum α) (owner : Nat) : Subproblem α where
  label := label
  owner := owner
  names := []
  lower := []
  upper := []
  fixed := Dict.empty
  constraints := []
  registry := Dict.empty
  sense := .min
  objective := Affine.ofScalar 0
  termination := .notCalled
  primal := .noSolution
  dual := .noSolution
  point? := none
  optimum? := none
  fixedDuals := Dict.empty

/-- The constraints that take part in solves. -/
def activeConstraints (p : Subproblem α) : List (Constraint α) := p.constraints.filter (·.active)

/-- What is shown of the subproblem. -/
def summary (p : Subproblem α) : SubproblemSummary α :=
  ⟨p.label, p.names.length, p.activeConstraints.length⟩

/-- A constraint of the subproblem, as it stands where an expression is needed. -/
def describe (p : Subproblem α) (h : ConstraintHandle) : Misfit α :=
  match p.constraints[h.index]? with
  | some c => .constraint p.summary c
  | none => .datum .null

/-- Give a name a meaning; a name has only one. -/
def register (name : Name) (meaning : Operand α) : Action α (Subproblem α) Unit := do
  let p ← get
  if !name.isKey then throw .wrongKind
  if p.registry.contains name then throw (.nameTaken name)
  set { p with registry := p.registry.insert name meaning }

/-- What a name stands for. -/
def lookup (p : Subproblem α) (name : Name) : Except (Failure α) (Operand α) :=
  if !name.isKey then .error .wrongKind
  else (p.registry.get? name).elim (.error .missingKey) .ok

/-- Add a variable with bounds, of which each may be a failure to read it. The variable is there
even if a bound cannot be read or the name is taken, and so is a lower bound that was read. -/
def addVariable (name : Name) (lower upper : Except (Failure α) (Extended α)) :
    Action α (Subproblem α) Variable := do
  let p ← get
  let v : Variable := ⟨p.owner, p.names.length, .ofName name⟩
  set { p with names := p.names ++ [name] }
  let l ← Action.ofExcept lower
  modify fun p => { p with lower := p.lower ++ [l] }
  let u ← Action.ofExcept upper
  modify fun p => { p with upper := p.upper ++ [u] }
  match name with
  | .null => pure ()
  | name => register name (.decision v)
  return v

/-- The position of a variable of the subproblem. -/
def position (p : Subproblem α) (v : Variable) : Except (Failure α) Nat :=
  if v.owner == p.owner then .ok v.index else .error (.ofVariable .foreignVariable v)

/-- Change the subproblem at the position of a variable. -/
def atVariable (v : Variable) (change : Subproblem α → Nat → Subproblem α) :
    Action α (Subproblem α) Unit := do
  let p ← get
  set (change p (← Action.ofExcept (p.position v)))

/-- A list of bounds with another bound at the position of a variable. -/
def setBound (p : Subproblem α) (side : List (Extended α)) (v : Variable) (bound : Extended α) :
    Except (Failure α) (List (Extended α)) := do
  let i ← p.position v
  if i < side.length then return side.set i bound else .error .indexOutOfRange

/-- Give a variable a lower bound. -/
def setLower (v : Variable) (bound : Extended α) : Action α (Subproblem α) Unit := do
  let p ← get
  set { p with lower := ← Action.ofExcept (p.setBound p.lower v bound) }

/-- Give a variable an upper bound. -/
def setUpper (v : Variable) (bound : Extended α) : Action α (Subproblem α) Unit := do
  let p ← get
  set { p with upper := ← Action.ofExcept (p.setBound p.upper v bound) }

/-- Fix a variable to a value. -/
def fix (v : Variable) (value : α) : Action α (Subproblem α) Unit :=
  atVariable v fun p i => { p with fixed := p.fixed.insert i value }

/-- Let a variable vary again. -/
def unfix (v : Variable) : Action α (Subproblem α) Unit :=
  atVariable v fun p i => { p with fixed := p.fixed.erase i }

/-- The variable is fixed. -/
def isFixed (p : Subproblem α) (v : Variable) : Except (Failure α) Bool :=
  (p.position v).map p.fixed.contains

/-- The lower bound of a variable. -/
def lowerBound (p : Subproblem α) (v : Variable) : Except (Failure α) (Extended α) := do
  p.lower[← p.position v]?.elim (.error .indexOutOfRange) .ok

/-- The upper bound of a variable. -/
def upperBound (p : Subproblem α) (v : Variable) : Except (Failure α) (Extended α) := do
  p.upper[← p.position v]?.elim (.error .indexOutOfRange) .ok

/-- Add the constraint `lhs relation rhs`, with variables on the left and constants on the right.
It is there even if its name is taken. -/
def addConstraint (lhs : Affine α) (relation : Relation) (rhs : Affine α) (name : Name) :
    Action α (Subproblem α) ConstraintHandle := do
  let p ← get
  let difference := lhs.sub rhs
  let coefficients ← Action.ofExcept <| difference.terms.entries.mapM fun (v, c) =>
    (p.position v).map fun i => (i, c)
  let handle : ConstraintHandle := ⟨p.owner, p.constraints.length⟩
  let c : Constraint α := ⟨Dict.ofList coefficients, relation, -difference.constant, name, true⟩
  set { p with constraints := p.constraints ++ [c] }
  match name with
  | .null => pure ()
  | name => register name (.constraint handle)
  return handle

/-- Edit a constraint. -/
def editConstraint (p : Subproblem α) (index : Nat) (edit : Constraint α → Constraint α) :
    Subproblem α :=
  { p with constraints := p.constraints.modify index edit }

/-- Set the objective. -/
def setObjective (sense : Sense) (objective : Affine α) : Action α (Subproblem α) Unit :=
  modify fun p => { p with sense := sense, objective := objective }

/-- Entries by position as a list of a given length. -/
def dense (length : Nat) (entries : Dict Nat α) : Except (Failure α) (List α) :=
  if entries.keys.any (length ≤ ·) then .error .indexOutOfRange
  else .ok ((List.range length).map fun i => entries.getD i 0)

/-- The cost of the objective, to be minimised. -/
def costEntries (p : Subproblem α) : Dict Nat α :=
  p.objective.terms.entries.foldl
    (fun cost (v, c) => cost.insert v.index (cost.getD v.index 0 + p.sense.sign * c)) Dict.empty

/-- A constraint as a row with a fixed direction: the row of an `atLeast` is negated. -/
def rowOf (length : Nat) (c : Constraint α) : Except (Failure α) (Row α) := do
  let row ← dense length c.coefficients
  return match c.relation with
    | .atLeast => ⟨row.map (-·), -c.rhs⟩
    | _ => ⟨row, c.rhs⟩

/-- The rows that hold the fixed variables at their values. -/
def fixingRows (p : Subproblem α) : List (Row α) :=
  p.fixed.entries.map fun (i, value) =>
    ⟨(List.range p.names.length).map fun j => if j == i then 1 else 0, value⟩

/-- The bounds that a solve keeps: those that are finite, of the variables that are not fixed. -/
def keptBounds (p : Subproblem α) : List (Option α × Option α) :=
  (p.lower.zip p.upper).zipIdx.map fun ((l, u), i) =>
    if p.fixed.contains i then (none, none) else (l.finite?, u.finite?)

/-- The bounds of all variables. If bounds are missing, a single pair of them is that of every
variable, and without any pair all variables are at least zero. -/
def spreadBounds (p : Subproblem α) : Except (Failure α) (List (Option α × Option α)) :=
  let size := p.names.length
  let kept := p.keptBounds
  if kept.length == size then .ok kept else
  match kept with
  | [] => .ok (List.replicate size (some 0, none))
  | [pair] => .ok (List.replicate size pair)
  | _ => .error .invalidProgram

/-- The linear program of the subproblem. There must be variables, and all its numbers must be
finite. -/
def program (p : Subproblem α) : Except (Failure α) (Program α) := do
  let size := p.names.length
  let cost ← dense size p.costEntries
  let rows ← p.activeConstraints.mapM fun c => (rowOf size c).map fun row => (c.relation, row)
  let atMost := (rows.filter (·.1 != .equal)).map (·.2)
  let equal := (rows.filter (·.1 == .equal)).map (·.2) ++ p.fixingRows
  let finite (r : Row α) : Bool := r.coefficients.all Scalar.isFinite && Scalar.isFinite r.rhs
  if size == 0 || !cost.all Scalar.isFinite || !(atMost ++ equal).all finite then
    .error .invalidProgram
  else
    let bounds ← p.spreadBounds
    return ⟨cost, atMost, equal, bounds.map (·.1), bounds.map (·.2)⟩

/-- The number of active equations that were declared as constraints. -/
def equationCount (p : Subproblem α) : Nat :=
  (p.activeConstraints.filter (·.relation == .equal)).length

/-- The subproblem after a solve that found no point. -/
def withoutPoint (p : Subproblem α) (termination : Termination) : Subproblem α :=
  { p with
    termination := termination
    primal := .noSolution
    dual := .noSolution
    point? := none
    optimum? := none
    fixedDuals := Dict.empty }

/-- The subproblem with the result of a solve. -/
def withOutcome (p : Subproblem α) : Outcome α → Subproblem α
  | .optimal point value marginals =>
    { p with
      termination := .optimal
      primal := .feasiblePoint
      dual := .feasiblePoint
      point? := some point
      optimum? := some (p.sense.sign * value + p.objective.constant)
      fixedDuals := ⟨(p.fixed.keys.zip (marginals.drop p.equationCount)).map fun (i, m) =>
        (i, p.sense.sign * m)⟩ }
  | .infeasible => p.withoutPoint .infeasible
  | .unbounded => p.withoutPoint .unbounded
  | .undecided => p.withoutPoint .undecided

/-- Solve the subproblem. A program that is not well formed leaves the last result as it is. -/
def optimize (solver : Solver α) : Action α (Subproblem α) Unit := do
  let p ← get
  let program ← Action.ofExcept p.program
  set (p.withOutcome (solver program))

/-- The value of an affine expression at the point of the last solve. -/
def valueOf (p : Subproblem α) (e : Affine α) : Except (Failure α) α :=
  match p.point? with
  | none => .error (.noSolution p.label)
  | some point => do
    let terms ← e.terms.entries.mapM fun (v, c) => do
      match point[← p.position v]? with
      | some x => return c * x
      | none => .error .indexOutOfRange
    return e.constant + Scalar.sum terms

/-- The derivative of the optimal value in the value that a variable was fixed to. -/
def fixedDual (p : Subproblem α) (v : Variable) : Except (Failure α) α := do
  match p.fixedDuals.get? (← p.position v) with
  | some dual => return dual
  | none => .error (.ofVariable .noDual v)

end Subproblem

end Multistage
