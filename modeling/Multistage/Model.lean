import Multistage.Belief
import Multistage.Graph
import Multistage.Text.Table

/-!
# Models

A model is a validated graph whose nodes other than the root carry stages and cut models. It is
built once; afterwards only cuts are added and taken out, and subproblems are solved.

## Main definitions

- `StagePlans`: which node is built from which plan.
- `Model`, `Model.build`: a model, and the model of a graph and plans.
- `Model.node`, `Model.onNode`: look up a node and act on it.
- `Model.updater`: the belief updater of the model.
- `Model.table`: the model as a table.
-/

namespace Multistage

/-- Plans for the stages of nodes. -/
structure StagePlans (α : Type) where
  /-- Plans with the nodes they are for; the first one that lists a node counts. -/
  listed : List (List (Datum α) × StagePlan α) := []
  /-- The plan of all other nodes. -/
  rest : StagePlan α := {}

/-- A policy graph with a subproblem at every node. -/
structure Model (α : Type) where
  sense : Sense
  root : Datum α
  rootChildren : List (Edge α)
  /-- The state at the root. -/
  initial : State α
  nodes : Dict (Datum α) (Node α)
  partition : List (List (Datum α))

/-- The largest multiplier of a belief. -/
def multiplierBound {α : Type} [Scalar α] : α := Scalar.ofNat 1000000

/-- Children with probabilities as edges. -/
def Edge.ofPairs {α : Type} (children : List (Datum α × α)) : List (Edge α) :=
  children.map fun (child, probability) => ⟨child, probability⟩

variable {α : Type} [Scalar α]

/-- The plan of a node. -/
def StagePlans.of (plans : StagePlans α) (node : Datum α) : StagePlan α :=
  ((plans.listed.find? fun e => e.1.contains node).map (·.2)).getD plans.rest

namespace Node

/-- The node of a stage. Its value term is bounded as set if the node has children, and zero
otherwise. -/
def ofStage (settings : CutSettings α) (children : List (Edge α)) (stage : Stage α) :
    Except (Failure α) (Node α) :=
  let zero : Extended α := .finite 0
  let (lower, upper) := if children.isEmpty then (zero, zero) else (settings.lower, settings.upper)
  match Stage.onSubproblem (Subproblem.addVariable .null (.ok lower) (.ok upper)) stage with
  | .ok term s => .ok ⟨s, children, ⟨settings, term, CutPool.empty⟩, none⟩
  | .error e _ => .error e

/-- Give a node of a block one multiplier for every member of the block. -/
def addMultipliers (position : Nat) (members : List (Datum α)) (belief : Belief α) :
    Action α (Node α) Unit := do
  let multipliers ← members.mapM fun member => do
    return (member, ← onSubproblem
      (Subproblem.addVariable .null (.ok (.finite 0)) (.ok (.finite multiplierBound))))
  modify fun n => { n with belief? := some ⟨position, belief, Dict.ofList multipliers⟩ }

/-- A node with multipliers for the block that contains it, if one does. -/
def observed (partition : List (List (Datum α))) (belief : Belief α) (index : Datum α)
    (n : Node α) : Except (Failure α) (Node α) :=
  match partition.zipIdx.find? fun e => e.1.contains index with
  | none => .ok n
  | some (members, position) =>
    match addMultipliers position members belief n with
    | .ok _ n => .ok n
    | .error e _ => .error e

end Node

namespace Model

/-- The sense of a model, given by a word. -/
def senseOf (word : Datum α) : Except (Failure α) Sense :=
  match word with
  | .text s => (Sense.ofWord? s).elim (.error (.unknownModelSense word)) .ok
  | _ => .error (.unknownModelSense word)

/-- The stages of the nodes of a graph, built in its order. -/
def buildStages (graph : Graph α) (plans : StagePlans α) :
    Except (Failure α) (List (Datum α × Stage α)) :=
  graph.staged.zipIdx.mapM fun (index, owner) => do
    return (index, ← Stage.build index owner (plans.of index))

/-- The state at the root: the initial values of the states of all stages; later stages win. -/
def initialState (stages : List (Stage α)) : State α :=
  stages.foldl (fun state s => state.insertAll s.initial.entries) Dict.empty

/-- The model of a graph with a stage at every node but the root. -/
def build (graph : Graph α) (settings : CutSettings α) (sense : Datum α) (plans : StagePlans α) :
    Except (Failure α) (Model α) := do
  graph.validate
  let sense ← senseOf sense
  let stages ← buildStages graph plans
  let nodes ← stages.mapM fun (index, stage) => do
    let children := Edge.ofPairs (graph.nodes.getD index [])
    return (index, ← Node.ofStage settings children stage)
  let belief : Belief α := ⟨nodes.map fun (index, _) => (index, 0)⟩
  if !graph.partition.isEmpty && !termsAreKeys ⟨nodes⟩ then .error .wrongKind else
  let nodes ← nodes.mapM fun (index, n) => do
    return (index, ← n.observed graph.partition belief index)
  return {
    sense := sense
    root := graph.root
    rootChildren := Edge.ofPairs (graph.nodes.getD graph.root [])
    initial := initialState (stages.map (·.2))
    nodes := ⟨nodes⟩
    partition := graph.partition }

/-- The node of an index. -/
def node (m : Model α) (index : Datum α) : Except (Failure α) (Node α) := do
  index.requireKey
  (m.nodes.get? index).elim (.error (.missingNode index)) .ok

/-- Act on the node of an index. -/
def onNode {β : Type} (index : Datum α) (act : Action α (Node α) β) : Action α (Model α) β :=
  fun m =>
    match m.node index with
    | .error e => .error e m
    | .ok n =>
      let put (n : Node α) : Model α := { m with nodes := m.nodes.modify index fun _ => n }
      match act n with
      | .ok b n => .ok b (put n)
      | .error e n => .error e (put n)

/-- Solve the node of an index for an incoming state and a realization of the noise. -/
def solve {β : Type} [Quantity β α] (solver : Solver α) (index : Datum α) (state : State β)
    (noise : Datum α) (needsDuals : Bool) : Action α (Model α) (Solution α) := do
  onNode index (Node.solve solver (← get).sense state noise needsDuals)

/-- The belief updater of the model for a partition of its nodes. The members of the partition and
the noise terms must be able to be keys. -/
def updater (m : Model α) (partition : List (List (Datum α))) :
    Except (Failure α) (BeliefUpdater α) :=
  if partition.all Datum.areKeys && termsAreKeys m.nodes then
    .ok ⟨partition, transitionMap m.nodes, emissionMap m.nodes⟩
  else .error .wrongKind

/-- For every node the other nodes with children whose children are all children of the node. -/
def similar (m : Model α) : Dict (Datum α) (List (Datum α)) :=
  let children (n : Node α) : List (Datum α) := n.children.map (·.child)
  m.nodes.mapValues fun index n =>
    let isSimilar (other : Datum α) (k : Node α) : Bool :=
      !other.equals index && !k.children.isEmpty && (children k).all (children n).contains
    (m.nodes.entries.filter fun (other, k) => isSimilar other k).map (·.1)

/-- Children with probabilities as a text. -/
def edgesShown (edges : List (Edge Float)) : String :=
  ", ".intercalate (edges.map fun e => e.child.shown ++ ": " ++ generalText e.probability)

/-- The headings of the table of a model after the node. -/
def tableHeadings : List String := ["children", "noise_terms", "cuts"]

/-- The cells of a node in the table of a model. -/
def tableCells (n : Node Float) : List String :=
  [if n.children.isEmpty then "-" else edgesShown n.children,
    ", ".intercalate (n.stage.noise.map fun t => t.term.written),
    toString n.cuts.pool.cuts.length]

/-- The model as a table, in which null stands for a size of the terminal. A table with a gap has
one line more than its height. -/
def table (m : Model Float) (width height : Datum Float) :
    Except (Failure Float) (List String) :=
  Text.listing ("PolicyGraph(sense=" ++ Text.quoted m.sense.word ++ ",") tableHeadings
    (m.root.shown, [edgesShown m.rootChildren, "", ""])
    (m.nodes.entries.map fun (index, n) => (index.shown, tableCells n)) width height

end Model

end Multistage
