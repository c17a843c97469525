import Multistage.Cut
import Multistage.Datum.Tensor
import Multistage.Stage

/-!
# Nodes

A node of a model is a stage together with the edges to its children and a piecewise affine model of
their value: one variable, the value term, that the installed cuts bound from below when minimising
and from above when maximising. A solve adds the value term to the objective of the stage.

## Main definitions

- `CutModel`: the value term of a node and its cuts.
- `Node`, `Node.solve`, `Solution`: a node, and what solving it for an incoming state and a
  realization of the noise yields.
- `Node.refine`: a new cut from solutions of the children.
- `Node.prune`: take dominated cuts out.
-/

namespace Multistage

/-- An edge to a child. -/
structure Edge (α : Type) where
  child : Datum α
  probability : α

/-- The settings of the cut models of all nodes. -/
structure CutSettings (α : Type) where
  lower : Extended α
  upper : Extended α
  /-- If positive, a cut is installed only if it changes the value by more than this. -/
  improvement : α

/-- The value term of a node and its cuts. -/
structure CutModel (α : Type) where
  settings : CutSettings α
  term : Variable
  pool : CutPool α α

/-- What a node keeps of beliefs in a partially observable model. -/
structure BeliefStore (α : Type) where
  block : Nat
  belief : Dict (Datum α) α
  /-- One variable for every member of the block. -/
  multipliers : Dict (Datum α) Variable

/-- A node of a model. -/
structure Node (α : Type) where
  stage : Stage α
  children : List (Edge α)
  cuts : CutModel α
  belief? : Option (BeliefStore α)

/-- What solving a node yields. -/
structure Solution (α : Type) where
  outgoing : State α
  /-- The duals on the incoming state; empty unless they were asked for. -/
  duals : State α
  stageObjective : α
  /-- The objective of the stage plus the value term. -/
  objective : α

namespace CutSettings

variable {α : Type} [Scalar α]

/-- Settings without bounds that install every cut. -/
def unbounded : CutSettings α := ⟨.negInf, .posInf, 0⟩

/-- Settings from options that may be left out. -/
def ofOptions (lower? upper? improvement? : Option (Datum α)) (unknown : List String) :
    Except (Failure α) (CutSettings α) := do
  if !unknown.isEmpty then .error (.unknownCutOptions unknown) else
  let improvement := improvement?.getD (.real 0)
  if ← improvement.less (.int 0) then .error .negativeImprovement else
  let lower ← Datum.bound .negInf lower?
  let upper ← Datum.bound .posInf upper?
  return ⟨lower, upper, ← improvement.toScalar⟩

end CutSettings

/-- The text of a bound. -/
def Extended.shown : Extended Float → String
  | finite x => shortestText x
  | posInf => "inf"
  | negInf => "-inf"
  | nan => "nan"

/-- The text of a cut model. -/
def CutModel.shown (m : CutModel Float) : String :=
  "AverageCut(lower_bound=" ++ m.settings.lower.shown ++ ", upper_bound=" ++
    m.settings.upper.shown ++ ", cuts=" ++ toString m.pool.cuts.length ++ ")"

/-- A value moved below a bound, if it exceeds it. -/
def clampAbove {α : Type} [Scalar α] (bound : Extended α) (value : α) : α :=
  match bound with
  | .finite u => Scalar.lesser value u
  | .negInf => (Scalar.ofExtended? .negInf).getD value
  | _ => value

/-- A value moved above a bound, if it falls short of it. -/
def clampBelow {α : Type} [Scalar α] (bound : Extended α) (value : α) : α :=
  match bound with
  | .finite l => Scalar.greater value l
  | .posInf => (Scalar.ofExtended? .posInf).getD value
  | _ => value

/-- The direction of the cuts: the value term is at least a cut when minimising. -/
def Sense.cutRelation : Sense → Relation
  | .min => .atLeast
  | .max => .atMost

namespace Node

variable {α β δ : Type} [Scalar α] [Quantity β α] [Quantity δ α]

/-- Act on the stage of the node. -/
def onStage {τ : Type} : Action α (Stage α) τ → Action α (Node α) τ :=
  Action.focus (·.stage) fun n s => { n with stage := s }

/-- Act on the subproblem of the node. -/
def onSubproblem {τ : Type} (act : Action α (Subproblem α) τ) : Action α (Node α) τ :=
  onStage (Stage.onSubproblem act)

/-- Act on the cut pool of the node. -/
def onPool {τ : Type} : Action α (CutPool α α) τ → Action α (Node α) τ :=
  Action.focus (·.cuts.pool) fun n pool => { n with cuts := { n.cuts with pool := pool } }

/-- Fix the incoming copies of the states. -/
def setIncoming (state : State β) : Action α (Node α) Unit := do
  (← get).stage.states.entries.forM fun (name, copies) => do
    let value ← Action.ofOption .missingKey (state.get? name)
    let x ← Action.ofExcept (Quantity.toScalar value)
    onSubproblem (Subproblem.fix copies.incoming x)

/-- The values of the outgoing copies of the states, moved into their bounds. -/
def outgoing (n : Node α) : Except (Failure α) (State α) := do
  let p := n.stage.subproblem
  let entries ← n.stage.states.entries.mapM fun (name, copies) => do
    let value ← p.valueOf (Affine.ofVariable copies.outgoing)
    let value := clampAbove (← p.upperBound copies.outgoing) value
    return (name, clampBelow (← p.lowerBound copies.outgoing) value)
  return ⟨entries⟩

/-- The duals on the incoming copies of the states. -/
def incomingDuals (n : Node α) : Except (Failure α) (State α) := do
  let entries ← n.stage.states.entries.mapM fun (name, copies) => do
    return (name, ← n.stage.subproblem.fixedDual copies.incoming)
  return ⟨entries⟩

/-- Give the subproblem the objective of the stage plus the value term. -/
def installObjective (sense : Sense) : Action α (Node α) Unit := do
  modify fun n => { n with stage := { n.stage with objectiveInstalled := true } }
  let n ← get
  let objective ← Action.ofExcept (n.stage.objective.toAffine n.stage.subproblem.describe)
  onSubproblem (Subproblem.setObjective sense (objective.add (Affine.ofVariable n.cuts.term)))

/-- Solve the node for an incoming state and a realization of the noise. -/
def solve (solver : Solver α) (sense : Sense) (state : State β) (noise : Datum α)
    (needsDuals : Bool) : Action α (Node α) (Solution α) := do
  setIncoming state
  onStage (Stage.applyNoise noise)
  if !(← get).stage.objectiveInstalled then installObjective sense
  onSubproblem (Subproblem.optimize solver)
  let n ← get
  let p := n.stage.subproblem
  if p.primal != .feasiblePoint then
    throw (.unsolved n.stage.index p.termination p.primal p.dual)
  let duals ← Action.ofExcept (if needsDuals then n.incomingDuals else .ok Dict.empty)
  let outgoing ← Action.ofExcept n.outgoing
  let stageObjective ← Action.ofExcept n.stage.objectiveValue
  let objective ← Action.ofOption (.noSolution p.label) p.optimum?
  return ⟨outgoing, duals, stageObjective, objective⟩

/-- The cut `value term ≥ intercept + ∑ coefficient * state` as a constraint over the outgoing
copies, with variables on the left. -/
def cutExpression (n : Node α) (c : Cut α) : Except (Failure α) (Affine α) := do
  let slope ← n.stage.states.entries.foldlM (fun e (name, copies) =>
    match c.coefficients.get? name with
    | some coefficient => .ok (e.add ((Affine.ofVariable copies.outgoing).scale coefficient))
    | none => .error .missingKey) (Affine.ofScalar 0)
  return (Affine.ofVariable n.cuts.term).sub slope

/-- Install a cut; the answer is the cut with the position of its constraint. -/
def install (sense : Sense) (c : Cut α) : Action α (Node α) (Cut α) := do
  let e ← Action.ofExcept ((← get).cutExpression c)
  let h ← onSubproblem
    (Subproblem.addConstraint e sense.cutRelation (Affine.ofScalar c.intercept) .null)
  return { c with constraint? := some h.index }

/-- The sum of vectors with weights. -/
def weightedSum (size : Nat) (weights : List α) (rows : List (List α)) : List α :=
  (List.range size).map fun k => Scalar.dot weights (rows.map fun r => r[k]?.getD 0)

/-- For every solution the duals of the states of a list, which are read as a matrix. -/
def readDuals (names : List Name) (duals : List (State δ)) :
    Except (Failure α) (List (List α)) := do
  let rows ← duals.mapM fun d => names.mapM fun name => (d.get? name).elim (.error .missingKey) .ok
  let t ← Tensor.ofDatum (.list (rows.map fun row => .list (row.map Quantity.toDatum)))
  t.inRows duals.length names.length

/-- The entries of a state, which are read as a vector. -/
def readState (state : State β) : Except (Failure α) (State α) := do
  let values ← Tensor.vector (.list (state.values.map Quantity.toDatum))
  return ⟨state.keys.zip values⟩

/-- The cut at a state from the risk-adjusted probabilities, duals and objectives of the
children, and the height that it has there. -/
def averageCut (q : List α) (state : State α) (rows : List (List α)) (objectives : List α) :
    Except (Failure α) (Cut α × α) := do
  if q.length != rows.length || q.length != objectives.length then .error .sizeMismatch else
  let slope := weightedSum state.size q rows
  let height := Scalar.dotInLanes q objectives
  let intercept := height - Scalar.dotInLanes slope state.values
  return (⟨intercept, Dict.ofList (state.keys.zip slope), none, 0, false⟩, height)

/-- A cut of a height is worth installing: no improvement is asked for, or the height differs
enough from the last optimal value of the subproblem. -/
def isImprovement (n : Node α) (height : α) : Bool :=
  match n.stage.subproblem.optimum? with
  | some value =>
    if 0 < n.cuts.settings.improvement && Scalar.isNumber value then
      n.cuts.settings.improvement < Scalar.abs (value - height)
    else true
  | none => true

/-- Install the cut at a position of the pool again, if it was taken out and is now the best at a
visited state. -/
def reinstall (sense : Sense) (place : Nat) : Action α (Node α) Unit := do
  match (← get).cuts.pool.cuts[place]? with
  | some c =>
    if c.removed && 0 < c.count then
      let c ← install sense c
      onPool (modify fun pool =>
        { pool with cuts := pool.cuts.set place { c with removed := false } })
  | none => pure ()

/-- Put a cut of a height at a state into the pool, installed if that is an improvement, and install
again the cuts that have become the best at a visited state. -/
def addCut (sense : Sense) (state : State α) (given : State β) (c : Cut α) (height : α) :
    Action α (Node α) Unit := do
  let c ← if (← get).isImprovement height then install sense c else pure c
  onPool (CutPool.add sense c state given)
  (List.range (← get).cuts.pool.cuts.length).forM (reinstall sense)

/-- Refine the cut model at a state, given the solutions of the children: their duals, and
probabilities and objectives of the outcomes. -/
def refine (sense : Sense) (measure : Measure α) (state : State β) (duals : List (State δ))
    (probabilities objectives : List α) : Action α (Node α) Unit := do
  let q ← Action.ofExcept (measure.adjust sense probabilities objectives)
  let rows ← Action.ofExcept (readDuals state.keys duals)
  let point ← Action.ofExcept (readState state)
  let (c, height) ← Action.ofExcept (averageCut q point rows objectives)
  addCut sense point state c height

/-- Take out the cut at a position of the pool, if it is installed and nowhere the best; the answer
is whether it was. -/
def pruneCut (place : Nat) : Action α (Node α) Bool := do
  match (← get).cuts.pool.cuts[place]? with
  | some c =>
    match c.constraint? with
    | some i =>
      if c.count == 0 then
        onSubproblem (modify fun p => p.editConstraint i fun k => { k with active := false })
        onPool (modify fun pool => { pool with
          cuts := pool.cuts.set place { c with constraint? := none, removed := true } })
        return true
      else return false
    | none => return false
  | none => return false

/-- Take out all installed cuts that are nowhere the best; the answer is their number. -/
def prune : Action α (Node α) Nat := do
  let pruned ← (List.range (← get).cuts.pool.cuts.length).mapM pruneCut
  return (pruned.filter id).length

/-- The text of a node. -/
def shown (n : Node Float) : String :=
  "Node(" ++ n.stage.index.written ++ ", states=" ++
    Text.bracketed (n.stage.states.keys.map Datum.written) ++ ", children=" ++
    toString n.children.length ++ ", noise_terms=" ++ toString n.stage.noise.length ++ ")"

end Node

end Multistage
