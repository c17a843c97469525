import Multistage.Datum.Tensor
import Multistage.Graph
import Multistage.Scalar.Summation

/-!
# Markovian graphs

The nodes of a Markovian graph are pairs of a stage and a Markov state. A list of transition
matrices describes it: the entry of the `t`-th matrix in row `i` and column `k` is the probability
of moving from state `i` of stage `t - 1` to state `k` of stage `t`. The first matrix has one row,
the transition out of the root `(0, 0)`.

## Main definitions

- `Graph.markovian`: the graph of a list of transition matrices.
- `Graph.homogeneous`: the graph whose stages share one transition matrix.
-/

namespace Multistage

namespace Graph

variable {α : Type} [Scalar α]

/-- A transition matrix of a stage: non-negative entries, rows that sum to at most one, and as many
rows as the previous stage has states. -/
def validateTransition (stage previousStates : Nat) (m : Matrix α) : Except (Failure α) Unit :=
  let sums := m.rows.map Scalar.sumInLanes
  if m.rows.any (·.any (· < 0)) then .error .negativeTransition
  else if sums.any fun s => s < 0 || 1 + probabilityTolerance < s then .error .transitionSum
  else if 1 < stage && previousStates != m.rows.length then .error (.transitionSize stage)
  else .ok ()

/-- The edges into the states of a stage, one for every positive entry of its matrix, column by
column. -/
def transitionEdges (stage : Nat) (m : Matrix α) : List (Datum α × Datum α × Datum α) :=
  (List.range m.columns).flatMap fun state =>
    m.rows.zipIdx.filterMap fun (row, last) =>
      match row[state]? with
      | some probability =>
        if 0 < probability then
          some (.pair (stage - 1) last, .pair stage state, .real probability)
        else none
      | none => none

/-- The nodes and edges of the stages from `stage` on. -/
def markovianStages (stage previousStates : Nat) :
    List (Tensor α) →
    Except (Failure α) (List (Datum α) × List (Datum α × Datum α × Datum α))
  | [] => .ok ([], [])
  | t :: rest => do
    match t.matrix? with
    | none => .error (.transitionNotMatrix stage)
    | some m =>
      validateTransition stage previousStates m
      let (nodes, edges) ← markovianStages (stage + 1) m.columns rest
      return ((List.range m.columns).map (.pair stage) ++ nodes, transitionEdges stage m ++ edges)

/-- The graph of transition matrices that are given as tensors. -/
def ofTransitions (transitions : List (Tensor α)) : Except (Failure α) (Graph α) := do
  match transitions with
  | [] => .error (.firstTransition none)
  | t :: _ =>
    match t.shape with
    | [1, _] =>
      let (nodes, edges) ← markovianStages 1 1 transitions
      ofEdges (.pair 0 0) nodes edges []
    | shape => .error (.firstTransition (some shape))

/-- The graph of a list of transition matrices. -/
def markovian (transitions : List (Datum α)) : Except (Failure α) (Graph α) := do
  ofTransitions (← transitions.mapM Tensor.ofDatum)

/-- The graph of `stages` stages that share a transition matrix, after a first transition that is
given as a row. -/
def homogeneous (stages transition first : Datum α) : Except (Failure α) (Graph α) := do
  let first ← Tensor.ofDatum first
  let copies ← Datum.copies ((← stages.toInteger) - 1) [transition]
  let rest ← copies.mapM Tensor.ofDatum
  ofTransitions (first.asRow :: rest)

end Graph

end Multistage
