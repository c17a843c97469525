import Multistage.Sampling
import Multistage.Stopping

/-!
# Options of training

The options of a training run are given as data, checked once, and then read. A risk measure may be
shared by all nodes or given for every node.

## Main definitions

- `PerNode`, `PerNode.resolve`: a value for every node.
- `TrainingOptions`: the options with their defaults.
- `TrainingOptions.check`: the checks, in a fixed order.
- `TrainingOptions.allRules`: the stopping rules of a run in the order in which they are tried.
-/

namespace Multistage

/-- A value for every node. -/
inductive PerNode (α β : Type) where
  | shared (value : β)
  | listed (entries : Dict (Datum α) β)
  | computed (value : Datum α → β)

variable {α β : Type} [Scalar α]

/-- The value of every node of a list. A list of entries must have one for every node; it is taken
as it is. -/
def PerNode.resolve (nodes : List (Datum α)) : PerNode α β → Except (Failure α) (Dict (Datum α) β)
  | shared value => .ok ⟨nodes.map fun node => (node, value)⟩
  | listed entries =>
    match nodes.find? fun node => !entries.contains node with
    | some node => .error (.missingEntry node)
    | none => .ok entries
  | computed value => .ok ⟨nodes.map fun node => (node, value node)⟩

/-- The options of a training run. -/
structure TrainingOptions (α : Type) where
  /-- The number of iterations, or null. -/
  iterationLimit : Datum α
  /-- The time, or null. -/
  timeLimit : Datum α
  rules : List (StoppingRule α)
  measure : PerNode α (Measure α)
  scheme : Scheme α
  /-- By how much a state must differ from the starting states of a node to become one of them. -/
  distance : Datum α
  /-- Also refine nodes whose children are children of the visited node. -/
  refinesSimilar : Datum α
  /-- What is reported: only the end at zero, iterations above zero, times above one. -/
  verbosity : Datum α
  seed : Datum α
  /-- A timer other than that of the run, or null; no datum is one. -/
  timer : Datum α
  /-- After how many of its steps the user stops the run, if at all. -/
  patience : Option Nat

/-- The options of a run of which nothing is asked. -/
def TrainingOptions.standard : TrainingOptions α where
  iterationLimit := .null
  timeLimit := .null
  rules := []
  measure := .shared .expectation
  scheme := .unlimited
  distance := .real 0
  refinesSimilar := .bool true
  verbosity := .int 0
  seed := .null
  timer := .null
  patience := none

/-- Options as they are given, before any check. A scheme and rules may be given as data that are
none. -/
structure TrainingRequest (α : Type) where
  options : TrainingOptions α
  scheme : Datum α ⊕ Scheme α := .inr .unlimited
  rules : List (Datum α ⊕ StoppingRule α) := []
  /-- The names of options that do not exist. -/
  unknown : List String := []

namespace TrainingOptions

/-- The names of the options. -/
def names : List String :=
  ["iteration_limit", "time_limit", "stopping_rules", "risk_measure", "sampling_scheme",
    "cycle_discretization_delta", "refine_at_similar_nodes", "print_level", "seed", "timer"]

/-- Fail for a number of which a test holds. -/
def refuse (test : Except (Failure α) Bool) (failure : Failure α) : Except (Failure α) Unit := do
  if ← test then .error failure else return ()

/-- A scheme that is one. -/
def schemeOf : Datum α ⊕ Scheme α → Except (Failure α) (Scheme α)
  | .inl d => .error (.notAScheme d)
  | .inr s => .ok s

/-- A rule that is one. -/
def ruleOf : Datum α ⊕ StoppingRule α → Except (Failure α) (StoppingRule α)
  | .inl d => .error (.notARule d)
  | .inr r => .ok r

/-- Fail for a limit of which a test holds, unless it is null. -/
def refuseLimit (d : Datum α) (test : Datum α → Except (Failure α) Bool) (failure : Failure α) :
    Except (Failure α) Unit :=
  match d with
  | .null => .ok ()
  | d => refuse (test d) failure

/-- Check options in the order: names, iterations, time, distance, verbosity, scheme, rules. -/
def check (request : TrainingRequest α) : Except (Failure α) (TrainingOptions α) := do
  let o := request.options
  if !request.unknown.isEmpty then .error (.unknownOptions request.unknown) else
  refuseLimit o.iterationLimit (·.less (.int 1)) (.optionIterations o.iterationLimit)
  refuseLimit o.timeLimit (·.atMost (.int 0)) (.optionTime o.timeLimit)
  refuse (o.distance.less (.int 0)) .optionDistance
  refuse (o.verbosity.less (.int 0)) .optionVerbosity
  let scheme ← schemeOf request.scheme
  let rules ← request.rules.mapM ruleOf
  return { o with scheme := scheme, rules := rules }

/-- The rule of a limit, unless it is null. -/
def limitRule (rule? : Datum α → Except (Failure α) (StoppingRule α)) (d : Datum α) :
    Except (Failure α) (List (StoppingRule α)) :=
  match d with
  | .null => .ok []
  | d => (rule? d).map ([·])

/-- The stopping rules: those given, then the limit on iterations, then that on time. -/
def allRules (o : TrainingOptions α) : Except (Failure α) (List (StoppingRule α)) := do
  let iterations ← limitRule StoppingRule.iterations? o.iterationLimit
  let time ← limitRule StoppingRule.time? o.timeLimit
  return o.rules ++ iterations ++ time

/-- Fail unless the timer is that of the run and the seed is one. -/
def requireTimerAndSeed (o : TrainingOptions α) : Except (Failure α) Unit :=
  match o.timer with
  | .null => requireSeed o.seed
  | _ => .error .missingField

/-- The risk measure at the root: the shared one, or the expectation. -/
def rootMeasure (o : TrainingOptions α) : Measure α :=
  match o.measure with
  | .shared m => m
  | _ => .expectation

/-- The verbosity is above a level. -/
def reportsAbove (o : TrainingOptions α) (level : Int) : Bool :=
  (Datum.less (.int level) o.verbosity).toOption.getD false

end TrainingOptions

end Multistage
