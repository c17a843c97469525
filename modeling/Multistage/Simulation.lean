import Multistage.Session

/-!
# Simulation

A simulation follows scenarios with the policy of the model, without changing any cut, and records
for every visited node the objective of the stage, the value term, and what else is asked for.

## Main definitions

- `RecordEntry`, `VisitRecord`: what is recorded of a visit.
- `Recorder`: a quantity that is read off a solved subproblem.
- `Session.simulate`: the records of a number of scenarios.
-/

namespace Multistage

/-- An entry of a record. -/
inductive RecordEntry (α : Type) where
  | datum (value : Datum α)
  | reading (value : Reading α)
  | word (text : String)

/-- The entries of a visit by their keys. -/
abbrev VisitRecord (α : Type) := Dict Name (RecordEntry α)

/-- A quantity that is read off a solved subproblem. -/
abbrev Recorder (α : Type) := Subproblem α → Except (Failure α) (RecordEntry α)

variable {α : Type} [Scalar α]

namespace Recorder

/-- The optimal value. -/
def objective : Recorder α := fun p =>
  match p.optimum? with
  | some x => .ok (.reading (.number x))
  | none => .error (.noSolution p.label)

/-- The word for how the solve ended. -/
def termination : Recorder α := fun p => .ok (.word p.termination.word)

end Recorder

namespace Session

/-- The value of what a name stands for in a subproblem. -/
def readName (p : Subproblem α) (name : Name) : Except (Failure α) (RecordEntry α) := do
  return .reading (← p.read p.describe (← p.lookup name))

/-- The record of a visit, given the solved node. -/
def visitRecord (visit : Visit α) (s : Solution α) (p : Subproblem α) (names : List Name)
    (recorders : List (Name × Recorder α)) : Except (Failure α) (VisitRecord α) := do
  let number (x : α) : RecordEntry α := .reading (.number x)
  let base : VisitRecord α := Dict.ofList [
    (.text "node_index", .datum visit.node),
    (.text "noise_term", .datum visit.noise),
    (.text "stage_objective", number s.stageObjective),
    (.text "bellman_term", number (s.objective - s.stageObjective))]
  let read ← names.mapM fun name => do return (name, ← readName p name)
  let recorded ← recorders.mapM fun (key, recorder) => do return (key, ← recorder p)
  return (base.insertAll read).insertAll recorded

/-- Follow a path from a state and record every visit. -/
def followPath (solver : Solver α) (names : List Name)
    (recorders : List (Name × Recorder α)) :
    (path : List (Visit α)) → (state : State α) → Action α (Session α) (List (VisitRecord α))
  | [], _ => return []
  | visit :: rest, state => do
    let s ← solve solver visit.node state visit.noise false
    let n ← Action.ofExcept ((← get).model.node visit.node)
    let record ← Action.ofExcept
      (visitRecord visit s n.stage.subproblem names recorders)
    return record :: (← followPath solver names recorders rest s.outgoing)

/-- The records of a number of scenarios. -/
def simulate (solver : Solver α) (names : List Name)
    (recorders : List (Name × Recorder α)) :
    (replications : Nat) → (scheme : Scheme α) →
    Action α (Session α) (List (List (VisitRecord α)))
  | 0, _ => return []
  | replications + 1, scheme => do
    let (scenario, scheme) ← sample scheme
    let records ← followPath solver names recorders scenario.path (← get).model.initial
    return records :: (← simulate solver names recorders replications scheme)

end Session

end Multistage
