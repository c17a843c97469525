import Multistage.Sampling
import Multistage.Timer

/-!
# Sessions

A session is a model in use, together with the draws that are left and two clocks: one that tells
the time of an iteration, and a stopwatch for the sections of a run.

## Main definitions

- `Session`: the state of a session.
- `Session.sample`, `Session.solve`: the next scenario of a scheme, and a solve of a node.
- `Session.solveChildren`: the solves of all children for all their noise terms.
- `Session.bound`: the risk-adjusted value of the model at its root.
-/

namespace Multistage

/-- A model in use. -/
structure Session (α : Type) where
  model : Model α
  draws : Draws α
  /-- The time of day; it may count in integers. -/
  clock : Clock (Datum α)
  /-- The time of sections. -/
  stopwatch : Clock (Datum α)

/-- The solution of a child for one of its noise terms. -/
structure ChildSolution (α : Type) where
  child : Datum α
  noise : NoiseTerm α
  /-- The probability of the edge times that of the noise term. -/
  probability : α
  solution : Solution α

namespace Session

variable {α : Type} [Scalar α] {β : Type} [Quantity β α]

/-- Act on the model. -/
def onModel {τ : Type} : Action α (Model α) τ → Action α (Session α) τ :=
  Action.focus (·.model) fun s m => { s with model := m }

/-- Draw. -/
def onDraws {τ : Type} : Action α (Draws α) τ → Action α (Session α) τ :=
  Action.focus (·.draws) fun s d => { s with draws := d }

/-- Read the clock. -/
def readClock : Action α (Session α) (Datum α) := do
  let (time, clock) := (← get).clock.read
  modify fun s => { s with clock := clock }
  return time

/-- The next scenario of a scheme, and the scheme for those after it. -/
def sample (scheme : Scheme α) : Action α (Session α) (Scenario α × Scheme α) := do
  onDraws (scheme.sample (← get).model)

/-- Solve a node. -/
def solve (solver : Solver α) (index : Datum α) (state : State β) (noise : Datum α)
    (needsDuals : Bool) : Action α (Session α) (Solution α) :=
  onModel (Model.solve solver index state noise needsDuals)

/-- The outcomes of a step along edges: the children with their noise terms and probabilities. -/
def outcomes (m : Model α) (edges : List (Edge α)) :
    Except (Failure α) (List (Datum α × NoiseTerm α × α)) := do
  let perEdge ← edges.mapM fun e => do
    let n ← m.node e.child
    return n.stage.noise.map fun t => (e.child, t, e.probability * t.probability)
  return perEdge.flatten

/-- Solve all children for all their noise terms, in order. A section of a run may be kept around
each solve. -/
def solveChildren {σ : Type} (edges : List (Edge α)) (model : σ → Model α)
    (solve : Datum α → Datum α → Action α σ (Solution α)) :
    Action α σ (List (ChildSolution α)) := do
  let steps ← Action.ofExcept (outcomes (model (← get)) edges)
  steps.mapM fun (child, noise, probability) => do
    return ⟨child, noise, probability, ← solve child noise.term⟩

/-- The risk-adjusted value at the root, given how the children are solved. -/
def boundBy {σ : Type} (model : σ → Model α) (solve : Datum α → Datum α → Action α σ (Solution α))
    (measure : Measure α) : Action α σ α := do
  let m := model (← get)
  let results ← solveChildren m.rootChildren model solve
  let objectives := results.map (·.solution.objective)
  let q ← Action.ofExcept (measure.adjust m.sense (results.map (·.probability)) objectives)
  return Scalar.dotInLanes objectives q

/-- The risk-adjusted value of a state at the root. -/
def bound (solver : Solver α) (state : State β) (measure : Measure α) :
    Action α (Session α) α :=
  boundBy (·.model) (fun child noise => solve solver child state noise true) measure

end Session

end Multistage
