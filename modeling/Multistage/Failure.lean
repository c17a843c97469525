import Multistage.Linear.Operand
import Multistage.Linear.Program

/-!
# Failures

Every operation that can fail does so for one of the causes listed here. A cause carries what its
message shows. The first group is about data and has no message of its own.

## Main definitions

- `Failure`: the causes.
- `Failure.message?`: the text of a cause.
- `Action`: a computation on a state that may fail, where a failure keeps the state reached.
-/

namespace Multistage

/-- Why an operation fails. -/
inductive Failure (α : Type) where
  /-- An operand or argument is of a kind that the operation does not take. -/
  | wrongKind
  /-- A text, an infinity or not-a-number where a number of a certain form is needed. -/
  | malformedNumber
  /-- A number is too large for its new form. -/
  | tooLarge
  /-- A text or a list would be too long to be kept. -/
  | tooLong
  | divisionByZero
  | indexOutOfRange
  | missingKey
  /-- A value lacks the field that is asked for. -/
  | missingField
  /-- Vectors or matrices of different sizes are combined. -/
  | sizeMismatch
  /-- The weights of a draw are not a finite measure of positive mass. -/
  | invalidWeights
  /-- A nested list is no matrix. -/
  | raggedMatrix
  /-- The numbers of a linear program are not finite, or it has no variables. -/
  | invalidProgram
  /-- There are no draws left. -/
  | drawsExhausted
  /-- A seed is no integer. -/
  | seedKind
  /-- A seed has more bits than a seed can have. -/
  | seedSize
  /-- A clock has no readings left. -/
  | clockExhausted
  /-- The user asked to stop. -/
  | interrupted
  /-- The budget of iterations is used up before a stopping rule has converged. -/
  | unfinished
  -- Graphs
  | duplicateNode (node : Datum α)
  | missingNode (node : Datum α)
  | edgeIntoRoot
  | edgeSum (node : Datum α) (sum : α)
  | negativeEdge (node : Datum α)
  | rootInPartition (partition : List (List (Datum α))) (root : Datum α)
  | overlappingPartition (partition : List (List (Datum α)))
  | incompletePartition (partition : List (List (Datum α)))
  | firstTransition (size : Option (List Nat))
  | transitionNotMatrix (stage : Nat)
  | negativeTransition
  | transitionSum
  | transitionSize (stage : Nat)
  -- Subproblems
  | nameTaken (name : Name)
  | foreignVariable (handle : Variable)
  | foreignConstraint (misfit : Misfit α)
  | unknownRelation (symbol : Datum α)
  | unknownSense (word : Datum α)
  | notAffine (misfit : Misfit α)
  | notScalable
  | noSolution (label : Datum α)
  | noDual (handle : Variable)
  -- Stages and models
  | stateTaken (name : Name)
  | parameterizedTwice
  | realizationCount
  | noiseSum (sum : α)
  | unknownModelSense (word : Datum α)
  | unknownCutOptions (names : List String)
  | negativeImprovement
  | unsolved (node : Datum α) (termination : Termination) (primal dual : PointStatus)
  | impossibleObservation (noise block : Datum α)
  -- Options
  | tailLevel (level : Datum α)
  | mixtureWeight (weight : Datum α)
  | negativeWeight
  | walkDepth (depth : Datum α)
  | ruleIterations (limit : Datum α)
  | ruleTime (limit : Datum α)
  | ruleStallingCount
  | ruleStallingTolerance
  | unknownOptions (names : List String)
  | optionIterations (limit : Datum α)
  | optionTime (limit : Datum α)
  | optionDistance
  | optionVerbosity
  | notAScheme (value : Datum α)
  | notARule (value : Datum α)
  | missingEntry (node : Datum α)
  -- Tables
  | tableHeight
  | cellWidth

namespace Failure

instance {α : Type} : Inhabited (Failure α) := ⟨wrongKind⟩

/-- The failure that is about a variable. A variable that cannot be shown is of the wrong kind. -/
def ofVariable {α : Type} (cause : Variable → Failure α) (v : Variable) : Failure α :=
  if v.isShown then cause v else wrongKind

/-- A belief partition in brackets. -/
def partitionText (partition : List (List (Datum Float))) : String :=
  Text.bracketed (partition.map fun block => Text.bracketed (block.map Datum.written))

/-- Names in brackets, sorted. -/
def sortedNames (names : List String) : String :=
  Text.bracketed ((names.mergeSort fun a b => !decide (b < a)).map Text.quoted)

/-- The text of a cause; the causes about data have none. -/
def message? : Failure Float → Option String
  | wrongKind | malformedNumber | tooLarge | tooLong | divisionByZero | indexOutOfRange
  | missingKey | missingField | sizeMismatch | invalidWeights | raggedMatrix | invalidProgram
  | drawsExhausted | seedKind | seedSize | clockExhausted | interrupted | unfinished => none
  | duplicateNode node => "Node " ++ node.written ++ " already exists."
  | missingNode node => "Node " ++ node.written ++ " does not exist."
  | edgeIntoRoot => "Cannot have an edge entering the root node."
  | edgeSum node sum => "Probability on edges leaving node " ++ node.written ++ " sum to " ++
      shortestText sum ++ ", but this must be in [0.0, 1.0]"
  | negativeEdge node => "Negative edge probability leaving node " ++ node.written ++ "."
  | rootInPartition partition root => "Belief partition " ++ partitionText partition ++
      " cannot contain the root node " ++ root.written ++ "."
  | overlappingPartition partition =>
      "Belief partition " ++ partitionText partition ++ " contains overlapping sets."
  | incompletePartition partition => "Belief partition " ++ partitionText partition ++
      " does not form a valid partition of the nodes in the graph."
  | firstTransition size =>
      "Expected the first transition matrix to be of size (1, N). It is of size " ++
        size.elim "None" (fun s => Datum.parenthesised (s.map toString)) ++ "."
  | transitionNotMatrix stage =>
      "Transition matrix for stage " ++ toString stage ++ " is not a matrix."
  | negativeTransition => "Entries in the transition matrix must be non-negative."
  | transitionSum => "Rows in the transition matrix must sum to between 0.0 and 1.0."
  | transitionSize stage =>
      "Transition matrix for stage " ++ toString stage ++ " is the wrong size."
  | nameTaken name => "An object named " ++ name.written ++ " already exists."
  | foreignVariable v => "Variable " ++ v.shown ++ " belongs to a different subproblem."
  | foreignConstraint misfit =>
      "Variable " ++ misfit.shown ++ " belongs to a different subproblem."
  | unknownRelation symbol => "Constraint sense must be one of " ++
      Datum.parenthesised (Relation.all.map fun r => Text.quoted r.symbol) ++ ", got " ++
      symbol.written ++ "."
  | unknownSense word => "Objective sense must be 'min' or 'max', got " ++ word.written ++ "."
  | notAffine misfit => "Cannot interpret " ++ misfit.shown ++ " as a linear expression."
  | notScalable => "Expressions can only be scaled by real numbers."
  | noSolution label => "Subproblem " ++ label.written ++ " has no primal solution."
  | noDual v => "No dual available for variable " ++ v.shown ++
      "; is it fixed and the subproblem solved?"
  | stateTaken name => "The state " ++ name.written ++ " already exists."
  | parameterizedTwice =>
      "Duplicate calls to parameterize detected. Only parameterize a node at most one time."
  | realizationCount => "Provide one probability per realization."
  | noiseSum sum =>
      "Noise probabilities must sum to one. They sum to " ++ shortestText sum ++ "."
  | unknownModelSense word =>
      "The optimization sense must be 'min' or 'max'. It is " ++ word.written ++ "."
  | unknownCutOptions names =>
      "Keywords " ++ sortedNames names ++ " not recognised as arguments to AverageCut."
  | negativeImprovement => "Cut improvement tolerance must be non-negative."
  | unsolved node termination primal dual => "Unable to solve node " ++ node.written ++
      ". Termination status: " ++ termination.word ++ ", primal status: " ++ primal.word ++
      ", dual status: " ++ dual.word ++ "."
  | impossibleObservation noise block => "Observation of noise " ++ noise.written ++
      " in partition " ++ block.shown ++ " is impossible under the incoming belief."
  | tailLevel level => "Beta must be in (0, 1]. It is " ++ level.shown ++ "."
  | mixtureWeight weight => "Lambda must be in [0, 1]. It is " ++ weight.shown ++ "."
  | negativeWeight => "Weights of a convex combination must be non-negative."
  | walkDepth depth => "The maximum depth must be non-negative. It is " ++ depth.shown ++ "."
  | ruleIterations limit => "The iteration limit must be positive. It is " ++ limit.shown ++ "."
  | ruleTime limit => "The time limit must be positive. It is " ++ limit.shown ++ "."
  | ruleStallingCount => "The number of previous iterations must be positive."
  | ruleStallingTolerance => "The tolerance must be non-negative."
  | unknownOptions names =>
      "Keywords " ++ sortedNames names ++ " not recognised as options to train."
  | optionIterations limit => "iteration_limit must be positive. It is " ++ limit.shown ++ "."
  | optionTime limit => "time_limit must be positive. It is " ++ limit.shown ++ "."
  | optionDistance => "cycle_discretization_delta must be non-negative."
  | optionVerbosity => "print_level must be non-negative."
  | notAScheme value => value.written ++ " is not a sampling scheme."
  | notARule value => value.written ++ " is not a stopping rule."
  | missingEntry node => "Missing key: " ++ node.written ++ "."
  | tableHeight => "Height too small"
  | cellWidth => "Width too small"

end Failure

/-- A computation on a state that may fail; a failure keeps the state that was reached. -/
abbrev Action (α σ β : Type) := EStateM (Failure α) σ β

namespace Action

variable {α σ τ β : Type}

/-- Fail with the cause, or answer the value, of a computation without a state. -/
def ofExcept : Except (Failure α) β → Action α σ β
  | .ok b => pure b
  | .error e => throw e

/-- Run a computation on a part of the state. -/
def focus (part : σ → τ) (replace : σ → τ → σ) (act : Action α τ β) : Action α σ β := fun s =>
  match act (part s) with
  | .ok b t => .ok b (replace s t)
  | .error e t => .error e (replace s t)

/-- The value that an option holds, or a failure. -/
def ofOption (e : Failure α) : Option β → Action α σ β
  | some b => pure b
  | none => throw e

end Action

end Multistage
