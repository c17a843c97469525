import Multistage.Training.Journal
import Multistage.Training.Pass

/-!
# Training

Training repeats iterations: a forward pass, a backward pass along its scenario, and the value of
the model at the root, which bounds the optimal value. It ends with the status of the first stopping
rule that asks for it, or as interrupted when the user asks for it.

## Main definitions

- `Training`: the state of a training run.
- `Training.round`: an iteration and what the rules say of it.
- `Training.iterate`: iterations until a rule ends the run.
- `TrainingReport`, `train`: a training run from a session and options.

## Main statements

- `Training.iterate_succ_of_finished`: a larger budget changes nothing for a run that finished.

## Design notes

The number of iterations is not bounded by the options, since rules may be anything. A budget makes
training a total function: a run that uses up its budget fails as unfinished.

The user may stop a run not only before the steps of its passes and of its bound, but also before
the clock is read for the record of an iteration, before the rules are asked, and before the
iteration is reported.
-/

namespace Multistage

variable {α : Type} [Scalar α]

/-- The state of a training run. -/
structure Training (α : Type) where
  run : Run α
  /-- The number of the current iteration; the first one is one. -/
  number : Nat
  /-- The records of the iterations so far. -/
  log : List (LogRecord α)
  journal : List (Event α)

namespace Training

/-- A training run before its first iteration. -/
def ofRun (run : Run α) : Training α := ⟨run, 1, [], []⟩

/-- Act on the run. -/
def onRun {β : Type} : Action α (Run α) β → Action α (Training α) β :=
  Action.focus (·.run) fun t r => { t with run := r }

/-- Report an event. -/
def report (event : Event α) : Action α (Training α) Unit :=
  modify fun t => { t with journal := t.journal ++ [event] }

/-- One iteration: both passes, the bound, and a record of them. -/
def iteration (solver : Solver α) (measure : Measure α) (start : Datum α) :
    Action α (Training α) Unit := do
  let forward ← onRun (Run.timed .forwardPass (Run.forward solver))
  onRun (Run.timed .backwardPass (Run.backward solver forward.path forward.states))
  let bound ← onRun (Run.timed .bound (Run.bound solver measure))
  onRun Run.heed
  let now ← onRun (Run.onSession Session.readClock)
  let time ← Action.ofExcept (now.sub start)
  modify fun t =>
    { t with log := t.log ++ [⟨.int t.number, .real bound, .real forward.value, time⟩] }

/-- Report the last record, if iterations are reported. Its numbers must be scalars to be written
down. -/
def reportIteration (options : TrainingOptions α) : Action α (Training α) Unit := do
  if options.reportsAbove 0 then
    match (← get).log.getLast? with
    | some record =>
      [record.bound, record.simulation, record.time].forM fun d =>
        discard (Action.ofExcept d.asNumber)
      report (.iteration record)
    | none => pure ()

/-- One iteration with its verdict and its report, after which the next one has the next number; the
answer is the status of the run if a rule ends it. -/
def round (solver : Solver α) (options : TrainingOptions α) (rules : List (StoppingRule α))
    (start : Datum α) : Action α (Training α) (Option String) := do
  iteration solver options.rootMeasure start
  onRun Run.heed
  let verdict ← Action.ofExcept (firstConverged (← get).log rules)
  onRun Run.heed
  reportIteration options
  modify fun t => { t with number := t.number + 1 }
  return verdict

/-- Iterations until a rule ends the run, within a budget; the answer is the status. -/
def iterate (solver : Solver α) (options : TrainingOptions α) (rules : List (StoppingRule α))
    (start : Datum α) : (budget : Nat) → Action α (Training α) String
  | 0 => throw .unfinished
  | budget + 1 => do
    match ← round solver options rules start with
    | some status => return status
    | none => iterate solver options rules start budget

/-- A run with a budget left does one iteration, and goes on if no rule ends it. -/
theorem iterate_succ (solver : Solver α) (options : TrainingOptions α)
    (rules : List (StoppingRule α)) (start : Datum α) (budget : Nat) (t : Training α) :
    iterate solver options rules start (budget + 1) t =
      match round solver options rules start t with
      | .ok (some status) u => .ok status u
      | .ok none u => iterate solver options rules start budget u
      | .error e u => .error e u := by
  rw [iterate]
  simp only [bind, EStateM.bind]
  cases round solver options rules start t with
  | error e u => rfl
  | ok verdict u => cases verdict <;> rfl

/-- A run that finishes within a budget does the same with a larger one. -/
theorem iterate_succ_of_finished (solver : Solver α) (options : TrainingOptions α)
    (rules : List (StoppingRule α)) (start : Datum α) (budget : Nat) (t : Training α)
    (h : ∀ u, iterate solver options rules start budget t ≠ .error .unfinished u) :
    iterate solver options rules start (budget + 1) t =
      iterate solver options rules start budget t := by
  induction budget generalizing t with
  | zero => exact absurd rfl (h t)
  | succ budget ih =>
    rw [iterate_succ] at h
    rw [iterate_succ, iterate_succ]
    cases hr : round solver options rules start t with
    | error e u => rfl
    | ok verdict u =>
      cases verdict with
      | some status => rfl
      | none => exact ih u (by simpa only [hr] using h)

/-- The status of a run that the user has stopped. -/
def interruptedStatus : String := "interrupted"

/-- Turn the wish to stop into a status, and report that a node could not be solved. -/
def settle (act : Action α (Training α) String) : Action α (Training α) String := fun t =>
  match act t with
  | .ok status t => .ok status t
  | .error .interrupted t => .ok interruptedStatus t
  | .error (.unsolved node termination primal dual) t =>
    let e : Failure α := .unsolved node termination primal dual
    .error e { t with journal := t.journal ++ [.failed e] }
  | .error e t => .error e t

/-- The whole run: it is announced, iterated and summed up. -/
def perform (solver : Solver α) (options : TrainingOptions α) (rules : List (StoppingRule α))
    (budget : Nat) : Action α (Training α) String := do
  if options.reportsAbove 0 then
    report (.started (← get).run.session.model.nodes.size)
    report .headings
  let start ← onRun (Run.onSession Session.readClock)
  let status ← settle (iterate solver options rules start budget)
  if options.reportsAbove 1 then report (.times (← get).run.timer)
  report (.ended status (← get).log.length)
  return status

end Training

/-- What a training run leaves behind. -/
structure TrainingReport (α : Type) where
  /-- The status of the run, or why it failed. -/
  outcome : Except (Failure α) String
  session : Session α
  log : List (LogRecord α)
  journal : List (Event α)
  timer : Timer α
  /-- After how many more steps the user would have stopped the run, if at all. -/
  patience : Option Nat
  /-- No stopping rule was given. -/
  lacksRules : Bool

/-- The warning for a run without stopping rules. -/
def noRuleWarning : String :=
  "No stopping rule was specified. Training can only be terminated by a keyboard interrupt."

/-- The report of a run that never began. -/
def TrainingReport.refused (session : Session α) (cause : Failure α) (lacksRules : Bool) :
    TrainingReport α :=
  ⟨.error cause, session, [], [], Timer.empty, none, lacksRules⟩

/-- Train the model of a session. -/
def train (solver : Solver α) (budget : Nat) (request : TrainingRequest α) (session : Session α) :
    TrainingReport α :=
  match (do let o ← TrainingOptions.check request; return (o, ← o.allRules)) with
  | .error cause => .refused session cause false
  | .ok (options, rules) =>
    match (do options.requireTimerAndSeed; Run.start session options) with
    | .error cause => .refused session cause rules.isEmpty
    | .ok run =>
      let report (outcome : Except (Failure α) String) (t : Training α) : TrainingReport α :=
        ⟨outcome, t.run.session, t.log, t.journal, t.run.timer, t.run.patience, rules.isEmpty⟩
      match Training.perform solver options rules budget (.ofRun run) with
      | .ok status t => report (.ok status) t
      | .error cause t => report (.error cause) t

end Multistage
