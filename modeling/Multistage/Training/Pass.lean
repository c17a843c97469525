import Multistage.Session
import Multistage.Training.Options

/-!
# Forward and backward passes

A forward pass walks along a scenario and solves the nodes that it visits, each from the state in
which the one before was left. A backward pass goes back along the scenario and refines the cut
model of every visited node at the state in which it was left, by solving its children.

Scenarios that were cut short leave the state in which they ended as a starting state of their last
node. A later walk that comes to the node exchanges its own state for one of the starting states.

## Main definitions

- `Run`: what the passes of a run share.
- `distanceTo`: the distance of a state from other states.
- `Run.forward`, `Run.backward`, `Run.bound`: the two passes, and the value that they lead to.
- `Run.timed`: a section of a run whose time is taken.
- `Run.heed`: the user may stop a run before each of its steps.

## Design notes

The user may stop a run at any time. A run notices it before every step, that is before it samples a
scenario, solves a node or refines one, so a wish to stop that comes during a step is noticed before
the next one. Where that is in a run is arbitrary: it is given by a number of steps.
-/

namespace Multistage

variable {α β : Type} [Scalar α] [Quantity β α]

/-- The largest difference of entries, each relative to one plus the size of the entry of the second
state. Every entry of the second state must have one in the first. -/
def stateDistance (x y : State β) : Except (Failure α) α := do
  let differences ← y.entries.mapM fun (name, value) =>
    match x.get? name with
    | some u => do
      let difference ← Quantity.abs (← Quantity.sub u value)
      Quantity.ratio difference (← Quantity.add Quantity.one (← Quantity.abs value))
    | none => .error .missingKey
  return Scalar.largest differences

/-- The smallest number of a list, the first of equal ones; infinite for the empty list. -/
def leastDistance : List α → Extended α
  | [] => .posInf
  | x :: xs => Scalar.classify (xs.foldl Scalar.lesser x)

/-- The distance of a state from the nearest of given states. -/
def distanceTo (states : List (State β)) (state : State β) : Except (Failure α) (Extended α) := do
  return leastDistance (← states.mapM fun x => stateDistance x state)

/-- What the passes of a run read. -/
structure PassSettings (α : Type) where
  initial : State α
  measures : Dict (Datum α) (Measure α)
  /-- A state must differ by more from the starting states of a node to become one of them. -/
  distance : Extended Rat
  refinesSimilar : Bool
  transitions : Dict (Datum α × Datum α) α
  similar : Dict (Datum α) (List (Datum α))

/-- What the passes of a run share. -/
structure Run (α : Type) where
  session : Session α
  settings : PassSettings α
  scheme : Scheme α
  /-- The starting states of every node. -/
  starting : Dict (Datum α) (List (State α))
  timer : Timer α
  /-- The number of steps that are left before the user stops the run, if that ever happens. -/
  patience : Option Nat

/-- What a forward pass yields. -/
structure ForwardResult (α : Type) where
  path : List (Visit α)
  /-- The states in which the visited nodes were left. -/
  states : List (State α)
  /-- The sum of the objectives of the stages. -/
  value : α

/-- The sections of a run whose time is taken. -/
inductive RunSection where
  | sampleScenario
  | solveSubproblem
  | forwardPass
  | backwardPass
  | bound

/-- The name of a section. -/
def RunSection.name : RunSection → String
  | sampleScenario => "sample_scenario"
  | solveSubproblem => "solve_subproblem"
  | forwardPass => "forward_pass"
  | backwardPass => "backward_pass"
  | bound => "calculate_bound"

namespace Run

/-- The run of options on a session, before its first pass. -/
def start (session : Session α) (options : TrainingOptions α) : Except (Failure α) (Run α) := do
  let m := session.model
  let measures ← options.measure.resolve m.nodes.keys
  let settings : PassSettings α := {
    initial := m.initial
    measures := measures
    distance := ← options.distance.value
    refinesSimilar := options.refinesSimilar.truth
    transitions := transitionMap m.nodes
    similar := m.similar }
  return {
    session := session
    settings := settings
    scheme := options.scheme
    starting := m.nodes.mapValues fun _ _ => []
    timer := Timer.empty
    patience := options.patience }

/-- Act on the session. -/
def onSession {τ : Type} : Action α (Session α) τ → Action α (Run α) τ :=
  Action.focus (·.session) fun r s => { r with session := s }

/-- Act on the node of an index. -/
def onNode {τ : Type} (index : Datum α) (act : Action α (Node α) τ) : Action α (Run α) τ :=
  onSession (Session.onModel (Model.onNode index act))

/-- Hand the next reading of the stopwatch to the timer. -/
def readStopwatch (note : Datum α → Action α (Timer α) Unit) : Action α (Run α) Unit := do
  let (time, stopwatch) := (← get).session.stopwatch.read
  modify fun r => { r with session := { r.session with stopwatch := stopwatch } }
  Action.focus (·.timer) (fun r t => { r with timer := t }) (note time)

/-- Act within a section; the time is taken whether the action fails or not. -/
def timed {τ : Type} (part : RunSection) (act : Action α (Run α) τ) : Action α (Run α) τ := do
  readStopwatch fun time => Timer.enter (.text part.name) (.ok time)
  try act finally readStopwatch fun time => Timer.leave (.ok time)

/-- Fail if the user stops the run before its next step. -/
def heed : Action α (Run α) Unit := do
  match (← get).patience with
  | none => return ()
  | some 0 => throw .interrupted
  | some (steps + 1) => modify fun r => { r with patience := some steps }

/-- The next scenario. -/
def sampleScenario : Action α (Run α) (Scenario α) :=
  timed .sampleScenario do
    heed
    let (scenario, scheme) ← onSession (Session.sample (← get).scheme)
    modify fun r => { r with scheme := scheme }
    return scenario

/-- Solve a node, unless the user stops the run before. -/
def attend (solver : Solver α) (index : Datum α) (state : State β) (noise : Datum α)
    (needsDuals : Bool) : Action α (Run α) (Solution α) := do
  heed
  onSession (Session.solve solver index state noise needsDuals)

/-- Solve a node as a section of its own. -/
def solve (solver : Solver α) (index : Datum α) (state : State β) (noise : Datum α)
    (needsDuals : Bool) : Action α (Run α) (Solution α) :=
  timed .solveSubproblem (attend solver index state noise needsDuals)

/-- The starting states of a node. -/
def startingStates (index : Datum α) : Action α (Run α) (List (State α)) := do
  Action.ofOption .missingKey ((← get).starting.get? index)

/-- Make a state a starting state of a node, if it is far from those that the node has. -/
def addStarting (index : Datum α) (state : State α) : Action α (Run α) Unit := do
  let distance ← Action.ofExcept (distanceTo (← startingStates index) state)
  if (← get).settings.distance.lt (distance.bind Scalar.exact) then
    modify fun r => { r with starting := r.starting.modify index (· ++ [state]) }

/-- The state in which a walk enters a node: its own, or in exchange a starting state of the
node. -/
def enteringState (index : Datum α) (state : State α) : Action α (Run α) (State α) := do
  if (← startingStates index).isEmpty then return state
  addStarting index state
  let states ← startingStates index
  let i ← onSession (Session.onDraws (chooseBelow states.length))
  modify fun r => { r with starting := r.starting.modify index fun states => states.eraseIdx i }
  Action.ofOption .indexOutOfRange states[i]?

/-- Solve the nodes of a path one after the other, from a state; the answers are the states in which
they were left and the sum of the objectives of their stages. -/
def follow (solver : Solver α) :
    (path : List (Visit α)) → (state : State α) → (states : List (State α)) → (value : α) →
    Action α (Run α) (List (State α) × α)
  | [], _, states, value => return (states, value)
  | visit :: rest, state, states, value => do
    let _ ← Action.ofExcept ((← get).session.model.node visit.node)
    let state ← enteringState visit.node state
    let s ← solve solver visit.node state visit.noise false
    follow solver rest s.outgoing (states ++ [s.outgoing]) (value + s.stageObjective)

/-- A forward pass. -/
def forward (solver : Solver α) : Action α (Run α) (ForwardResult α) := do
  let scenario ← sampleScenario
  let (states, value) ← follow solver scenario.path (← get).settings.initial [] 0
  match scenario.cutShort, scenario.path.getLast?, states.getLast? with
  | true, some visit, some state => addStarting visit.node state
  | _, _, _ => pure ()
  return ⟨scenario.path, states, value⟩

/-- The risk measure of a node. -/
def measureOf (index : Datum α) : Action α (Run α) (Measure α) := do
  Action.ofOption .missingKey ((← get).settings.measures.get? index)

/-- Refine the cut model of a node at a state, given solutions and their probabilities. -/
def refine (index : Datum α) (state : State β) (results : List (ChildSolution α))
    (probabilities : List α) : Action α (Run α) Unit := do
  heed
  let measure ← measureOf index
  let sense := (← get).session.model.sense
  onNode index (Node.refine sense measure state (results.map (·.solution.duals)) probabilities
    (results.map (·.solution.objective)))

/-- The probabilities that another node gives the outcomes of a step. -/
def probabilitiesAt (settings : PassSettings α) (other : Datum α)
    (results : List (ChildSolution α)) : List α :=
  results.map fun c => settings.transitions.getD (other, c.child) 0 * c.noise.probability

/-- Refine a visited node, and the nodes that are similar to it, at the state in which it was
left. -/
def refineAt (solver : Solver α) (index : Datum α) (state : State β) : Action α (Run α) Unit := do
  let n ← Action.ofExcept ((← get).session.model.node index)
  if n.children.isEmpty then return ()
  let results ← Session.solveChildren n.children (·.session.model) fun child noise =>
    solve solver child state noise true
  refine index state results (results.map (·.probability))
  let settings := (← get).settings
  if settings.refinesSimilar then
    let others ← Action.ofOption .missingKey (settings.similar.get? index)
    others.forM fun other => refine other state results (probabilitiesAt settings other results)

/-- A backward pass along a path and the states in which its nodes were left, from the last to the
first. -/
def backward (solver : Solver α) (path : List (Visit α)) (states : List (State β)) :
    Action α (Run α) Unit :=
  path.zipIdx.reverse.forM fun (visit, i) => do
    let state ← Action.ofOption .indexOutOfRange states[i]?
    refineAt solver visit.node state

/-- The value of the model at the root. The user may also stop the run once all children are
solved. -/
def bound (solver : Solver α) (measure : Measure α) : Action α (Run α) α := do
  let initial := (← get).session.model.initial
  let value ← Session.boundBy (·.session.model)
    (fun child noise => attend solver child initial noise true) measure
  heed
  return value

end Run

end Multistage
