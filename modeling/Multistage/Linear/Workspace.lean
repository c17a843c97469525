import Multistage.Linear.Formula

/-!
# Workspaces

A workspace holds several subproblems side by side, and handles under which their variables,
expressions and constraints are kept. Formulas may mention handles of any subproblem; an operation
of a subproblem refuses variables of another.

## Main definitions

- `Workspace`: the subproblems and the handles.
- `Workspace.evaluate`, `Workspace.keep`: the value of a formula, and a new handle.
- `Workspace.addConstraint`, `Workspace.setCoefficient` and the other operations of a subproblem in
  a workspace, on operands instead of variables and expressions.
-/

namespace Multistage

/-- Subproblems side by side. -/
structure Workspace (α : Type) where
  subproblems : List (Subproblem α)
  handles : Dict Name (Operand α)

/-- A place in a list of a given length, where a negative one counts from the end. -/
def placeOf (length : Nat) (position : Int) : Option Nat :=
  let place := if position < 0 then position + length else position
  if 0 ≤ place && place < length then some place.toNat else none

namespace Workspace

variable {α : Type} [Scalar α]

/-- A workspace of subproblems with given labels. -/
def ofLabels (labels : List (Datum α)) : Workspace α :=
  ⟨labels.zipIdx.map fun (label, owner) => Subproblem.empty label owner, Dict.empty⟩

/-- The constraint of a handle, as it stands where an expression is needed. -/
def describe (w : Workspace α) (h : ConstraintHandle) : Misfit α :=
  match w.subproblems[h.owner]? with
  | some p => p.describe h
  | none => .datum .null

/-- What names stand for in formulas of the workspace. -/
def scope (w : Workspace α) : Scope α where
  lookup name := (w.handles.get? name).elim (.error .missingKey) .ok
  describe := w.describe
  noise := .null

/-- The value of a formula. -/
def evaluate (formula : Formula α) : Action α (Workspace α) (Operand α) := do
  Action.ofExcept (formula.eval (← get).scope)

/-- The operand of a handle. -/
def operand (handle : Name) : Action α (Workspace α) (Operand α) := do
  if !handle.isKey then throw .wrongKind
  Action.ofOption .missingKey ((← get).handles.get? handle)

/-- Keep an operand under a handle. -/
def keep (handle : Name) (operand : Operand α) : Action α (Workspace α) Unit := do
  if !handle.isKey then throw .wrongKind
  modify fun w => { w with handles := w.handles.insert handle operand }

/-- The subproblem at a place. -/
def subproblem (place : Int) : Action α (Workspace α) (Subproblem α) := do
  let w ← get
  Action.ofOption .indexOutOfRange
    ((placeOf w.subproblems.length place).bind fun i => w.subproblems[i]?)

/-- Act on the subproblem at a place. -/
def onSubproblem {β : Type} (place : Int) (act : Action α (Subproblem α) β) :
    Action α (Workspace α) β := fun w =>
  match placeOf w.subproblems.length place with
  | none => .error .indexOutOfRange w
  | some i =>
    match w.subproblems[i]? with
    | none => .error .indexOutOfRange w
    | some p =>
      match act p with
      | .ok b p => .ok b { w with subproblems := w.subproblems.set i p }
      | .error e p => .error e { w with subproblems := w.subproblems.set i p }

/-- The variable that an operand is for the subproblem at a place. A constraint of another
subproblem is refused as a stranger, everything else as no variable. -/
def target (place : Int) (operand : Operand α) : Action α (Workspace α) Variable := do
  match operand with
  | .constraint h =>
    if (← subproblem place).owner == h.owner then throw .missingField
    else throw (.foreignConstraint ((← get).describe h))
  | operand => Action.ofExcept operand.toVariable

/-- Act on the subproblem at a place with the variable that an operand is. -/
def onVariable {β : Type} (place : Int) (operand : Operand α)
    (act : Variable → Action α (Subproblem α) β) : Action α (Workspace α) β := do
  let v ← target place operand
  onSubproblem place (act v)

/-- Read something off the subproblem at a place. -/
def inspect {β : Type} (place : Int) (look : Subproblem α → Except (Failure α) β) :
    Action α (Workspace α) β := do
  Action.ofExcept (look (← subproblem place))

/-- Edit the constraint of a handle. -/
def editConstraint (h : ConstraintHandle) (edit : Constraint α → Constraint α) :
    Action α (Workspace α) Unit :=
  modify fun w => { w with
    subproblems := w.subproblems.modify h.owner fun p => p.editConstraint h.index edit }

/-- The constraint of a handle. -/
def constraint? (w : Workspace α) (h : ConstraintHandle) : Option (Constraint α) :=
  (w.subproblems[h.owner]?).bind fun p => p.constraints[h.index]?

/-- Add the constraint `lhs relation rhs` to the subproblem at a place. -/
def addConstraint (place : Int) (lhs : Operand α) (relation : Datum α) (rhs : Operand α)
    (name : Name) : Action α (Workspace α) ConstraintHandle := do
  let relation ← Action.ofExcept (Relation.ofDatum relation)
  let w ← get
  let left ← Action.ofExcept (lhs.toAffine w.describe)
  let right ← Action.ofExcept (rhs.toAffine w.describe)
  onSubproblem place (Subproblem.addConstraint left relation right name)

/-- Set a coefficient of a constraint. The variable must belong to the subproblem at the place. -/
def setCoefficient (place : Int) (constraint target : Operand α) (value : Datum α) :
    Action α (Workspace α) ConstraintHandle := do
  let x ← Action.ofExcept value.toScalar
  let h ← Action.ofExcept constraint.toConstraint
  let v ← Workspace.target place target
  let i ← inspect place fun p => p.position v
  editConstraint h fun c => { c with coefficients := c.coefficients.insert i x }
  return h

/-- Set the right hand side of a constraint. -/
def setRhs (constraint : Operand α) (value : Datum α) :
    Action α (Workspace α) ConstraintHandle := do
  let x ← Action.ofExcept value.toScalar
  let h ← Action.ofExcept constraint.toConstraint
  editConstraint h fun c => { c with rhs := x }
  return h

/-- Switch a constraint off. -/
def deleteConstraint (constraint : Operand α) : Action α (Workspace α) ConstraintHandle := do
  let h ← Action.ofExcept constraint.toConstraint
  editConstraint h fun c => { c with active := false }
  return h

/-- Set the sense and then the objective of the subproblem at a place. -/
def setObjective (place : Int) (sense : Datum α) (objective : Operand α) :
    Action α (Workspace α) Unit := do
  let sense ← Action.ofExcept (Sense.ofDatum sense)
  onSubproblem place (modify fun p => { p with sense := sense })
  let e ← Action.ofExcept (objective.toAffine (← get).describe)
  onSubproblem place (Subproblem.setObjective sense e)

end Workspace

end Multistage
