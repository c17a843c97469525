import Multistage.Linear.Formula

/-!
# Stages

A stage is the decision problem of one node: a subproblem, state variables with an incoming and an
outgoing copy, an objective, and noise terms. A realization of the noise changes the subproblem by
a fixed list of assignments whose values are formulas in the noise.

## Main definitions

- `Stage`: the decision problem of a node.
- `Edit`: an assignment that the noise makes.
- `Stage.addState`, `Stage.parameterize`, `Stage.setObjective`, `Stage.applyNoise`: the operations.
- `ExactSum`: the sum of scalars, rounded once.
- `StagePlan`, `Stage.build`: a description of a stage, and the stage that it describes.
-/

namespace Multistage

/-- An assignment to the subproblem of a stage. -/
inductive Edit (α : Type) where
  | fix (target : Name) (value : Formula α)
  | setLower (target : Name) (value : Formula α)
  | setUpper (target : Name) (value : Formula α)
  | unfix (target : Name)
  | setRhs (constraint : Name) (value : Formula α)
  | setCoefficient (constraint target : Name) (value : Formula α)
  | objective (value : Formula α)

/-- A realization of the noise and its probability. -/
structure NoiseTerm (α : Type) where
  term : Datum α
  probability : α

/-- The decision problem of a node. -/
structure Stage (α : Type) where
  index : Datum α
  subproblem : Subproblem α
  states : Dict Name StateVariable
  /-- The values of the states at the root. -/
  initial : Dict Name α
  objective : Operand α
  /-- The subproblem has the objective of the stage. -/
  objectiveInstalled : Bool
  noise : List (NoiseTerm α)
  edits : List (Edit α)

/-- A sum of scalars that is kept exactly and rounded once. -/
structure ExactSum (α : Type) where
  /-- The sum of the finite scalars since the last one that is not finite. -/
  exact : Rat
  /-- The scalars that are not finite. -/
  special : List α

namespace ExactSum

variable {α : Type} [Scalar α]

/-- The sum of nothing. -/
def zero : ExactSum α := ⟨0, []⟩

/-- Add a scalar. The sum may at no time be too large for a scalar. -/
def add (s : ExactSum α) (x : α) : Except (Failure α) (ExactSum α) :=
  match Scalar.exact x with
  | .finite q =>
    if Scalar.isFinite (Scalar.ofRat (s.exact + q) : α) then .ok { s with exact := s.exact + q }
    else .error .tooLarge
  | _ => .ok ⟨0, s.special ++ [x]⟩

/-- The sum as a scalar; opposite infinities have none. -/
def rounded (s : ExactSum α) : Except (Failure α) α :=
  let holds (value : Extended Rat) : Bool := s.special.any fun x => Scalar.exact x = value
  if s.special.isEmpty then .ok (Scalar.ofRat s.exact)
  else if holds .posInf && holds .negInf then .error .malformedNumber
  else .ok (Scalar.sum s.special)

/-- The sum of numbers that are given as data. -/
def ofData (ds : List (Datum α)) : Except (Failure α) α := do
  (← ds.foldlM (fun s d => do s.add (← d.asNumber)) zero).rounded

end ExactSum

namespace Stage

variable {α : Type} [Scalar α]

/-- The stage of a node before anything is declared. -/
def empty (index : Datum α) (owner : Nat) : Stage α where
  index := index
  subproblem := Subproblem.empty index owner
  states := Dict.empty
  initial := Dict.empty
  objective := .datum (.real 0)
  objectiveInstalled := false
  noise := []
  edits := []

/-- Act on the subproblem of the stage. -/
def onSubproblem {β : Type} : Action α (Subproblem α) β → Action α (Stage α) β :=
  Action.focus (·.subproblem) fun s p => { s with subproblem := p }

/-- The name of the incoming copy of a state. -/
def incomingName (state : Name) : Name := .text (state.shown ++ "_in")

/-- The name of the outgoing copy of a state. -/
def outgoingName (state : Name) : Name := .text (state.shown ++ "_out")

/-- Add a state variable: an unbounded incoming copy and an outgoing copy within bounds. Bounds and
the initial value may be failures to read them; the state is there even if its initial value cannot
be read. -/
def addState (name : Name) (initial : Except (Failure α) α)
    (lower upper : Except (Failure α) (Extended α)) : Action α (Stage α) Unit := do
  if !name.isKey then throw .wrongKind
  if (← get).states.contains name then throw (.stateTaken name)
  let incoming ← onSubproblem
    (Subproblem.addVariable (incomingName name) (.ok .negInf) (.ok .posInf))
  let outgoing ← onSubproblem (Subproblem.addVariable (outgoingName name) lower upper)
  let copies : StateVariable := ⟨incoming, outgoing⟩
  onSubproblem (Subproblem.register name (.state copies))
  modify fun s => { s with states := s.states.insert name copies }
  let x ← Action.ofExcept initial
  modify fun s => { s with initial := s.initial.insert name x }

/-- Set the objective of the stage; the next solve installs it. -/
def setObjective (objective : Operand α) : Action α (Stage α) Unit :=
  modify fun s => { s with objective := objective, objectiveInstalled := false }

/-- How far the probabilities of noise terms may be from one in total. -/
def noiseTolerance : α := Scalar.ofRat (mkRat 1 1000000000)

/-- The probabilities of noise terms: those given, or equal ones. -/
def noiseProbabilities (count : Nat) :
    Option (List (Datum α)) → Except (Failure α) (List (Datum α))
  | none =>
    if count == 0 then .error .divisionByZero
    else .ok (List.replicate count (.real (1 / Scalar.ofNat count)))
  | some ps => if ps.length != count then .error .realizationCount else .ok ps

/-- Declare the noise terms of the stage and the assignments that a realization makes. -/
def parameterize (realizations : List (Datum α)) (probabilities : Option (List (Datum α)))
    (edits : List (Edit α)) : Action α (Stage α) Unit := do
  if !(← get).noise.isEmpty then throw .parameterizedTwice
  let ps ← Action.ofExcept (noiseProbabilities realizations.length probabilities)
  let sum ← Action.ofExcept (ExactSum.ofData ps)
  if noiseTolerance < Scalar.abs (sum - 1) then throw (.noiseSum sum)
  let ps ← Action.ofExcept (ps.mapM Datum.asNumber)
  modify fun s => { s with
    noise := List.zipWith NoiseTerm.mk realizations ps
    edits := edits }

/-- The endings that tell the two copies of a state apart. -/
def copySuffixes : List (String × (StateVariable → Variable)) :=
  [(".in", (·.incoming)), (".out", (·.outgoing))]

/-- What a name, which must be a text, stands for: a copy of a state, or what the subproblem knows
by the name. -/
def lookup (s : Stage α) (name : Name) : Except (Failure α) (Operand α) := do
  let .text text := name | .error .missingField
  match copySuffixes.find? fun e => text.endsWith e.1 with
  | some (suffix, copy) =>
    let state := String.ofList (text.toList.take (text.length - suffix.length))
    match ← s.subproblem.lookup (.text state) with
    | .state copies => return .decision (copy copies)
    | _ => .error .missingField
  | none => s.subproblem.lookup name

/-- What names stand for in formulas of the stage. -/
def scope (s : Stage α) (noise : Datum α) : Scope α where
  lookup := s.lookup
  describe := s.subproblem.describe
  noise := noise

/-- Evaluate a formula in the current stage. -/
def evaluate (formula : Formula α) (noise : Datum α) : Action α (Stage α) (Operand α) := do
  Action.ofExcept (formula.eval ((← get).scope noise))

/-- Assign a scalar to a variable that is given by name. -/
def assign (target : Name) (value : Formula α) (noise : Datum α)
    (set : Variable → α → Action α (Subproblem α) Unit) : Action α (Stage α) Unit := do
  let operand ← Action.ofExcept ((← get).lookup target)
  let x ← Action.ofExcept (← evaluate value noise).toScalar
  let v ← Action.ofExcept operand.toVariable
  onSubproblem (set v x)

/-- Make the assignment of an edit for a realization of the noise. -/
def applyEdit (noise : Datum α) : Edit α → Action α (Stage α) Unit
  | .fix target value => assign target value noise Subproblem.fix
  | .setLower target value =>
    assign target value noise fun v x => Subproblem.setLower v (Scalar.classify x)
  | .setUpper target value =>
    assign target value noise fun v x => Subproblem.setUpper v (Scalar.classify x)
  | .unfix target => do
    let operand ← Action.ofExcept ((← get).lookup target)
    let v ← Action.ofExcept operand.toVariable
    onSubproblem (Subproblem.unfix v)
  | .setRhs constraint value => do
    let operand ← Action.ofExcept ((← get).lookup constraint)
    let x ← Action.ofExcept (← evaluate value noise).toScalar
    let h ← Action.ofExcept operand.toConstraint
    onSubproblem (modify fun p => p.editConstraint h.index fun c => { c with rhs := x })
  | .setCoefficient constraint target value => do
    let c ← Action.ofExcept ((← get).lookup constraint)
    let v ← Action.ofExcept ((← get).lookup target)
    let x ← Action.ofExcept (← evaluate value noise).toScalar
    let h ← Action.ofExcept c.toConstraint
    let v ← Action.ofExcept v.toVariable
    let i ← Action.ofExcept ((← get).subproblem.position v)
    onSubproblem (modify fun p =>
      p.editConstraint h.index fun c => { c with coefficients := c.coefficients.insert i x })
  | .objective value => do setObjective (← evaluate value noise)

/-- Apply a realization of the noise: make the assignments in order. -/
def applyNoise (noise : Datum α) : Action α (Stage α) Unit := do
  (← get).edits.forM (applyEdit noise)

/-- The value of the objective of the stage at the point of the last solve. -/
def objectiveValue (s : Stage α) : Except (Failure α) α :=
  match s.objective.expression? with
  | some e => s.subproblem.valueOf e
  | none => s.objective.toScalar

end Stage

/-- The declaration of a variable. Bounds that are left out are infinite. -/
structure VariablePlan (α : Type) where
  /-- The name, or null for a variable without one. -/
  name : Name
  lower? : Option (Datum α)
  upper? : Option (Datum α)

/-- The declaration of a state variable with the bounds of its outgoing copy. -/
structure StatePlan (α : Type) extends VariablePlan α where
  initial : Datum α

/-- The declaration of a constraint; its relation is given by a symbol. -/
structure ConstraintPlan (α : Type) where
  lhs : Formula α
  relation : Datum α
  rhs : Formula α
  /-- The name, or null for a constraint without one. -/
  name : Name

/-- The description of a stage, declared in the order of its fields. Numbers are read when they are
declared. -/
structure StagePlan (α : Type) where
  states : List (StatePlan α) := []
  decisions : List (VariablePlan α) := []
  constraints : List (ConstraintPlan α) := []
  objective : Option (Formula α) := none
  /-- Realizations with probabilities, each declared on its own; more than one fails. -/
  noise : List (List (Datum α) × Option (List (Datum α))) := []
  edits : List (Edit α) := []

namespace Stage

variable {α : Type} [Scalar α]

/-- Declare a constraint. -/
def declareConstraint (plan : ConstraintPlan α) : Action α (Stage α) Unit := do
  let lhs ← evaluate plan.lhs .null
  let rhs ← evaluate plan.rhs .null
  let relation ← Action.ofExcept (Relation.ofDatum plan.relation)
  let describe := (← get).subproblem.describe
  let left ← Action.ofExcept (lhs.toAffine describe)
  let right ← Action.ofExcept (rhs.toAffine describe)
  discard (onSubproblem (Subproblem.addConstraint left relation right plan.name))

/-- Declare a stage as described. -/
def declare (plan : StagePlan α) : Action α (Stage α) Unit := do
  plan.states.forM fun s =>
    addState s.name s.initial.toScalar (Datum.bound .negInf s.lower?) (Datum.bound .posInf s.upper?)
  plan.decisions.forM fun v => discard (onSubproblem (Subproblem.addVariable v.name
    (Datum.bound .negInf v.lower?) (Datum.bound .posInf v.upper?)))
  plan.constraints.forM declareConstraint
  match plan.objective with
  | some formula => setObjective (← evaluate formula .null)
  | none => pure ()
  plan.noise.forM fun n => parameterize n.1 n.2 plan.edits

/-- The stage that a plan describes; a stage without noise terms has the null realization. -/
def build (index : Datum α) (owner : Nat) (plan : StagePlan α) : Except (Failure α) (Stage α) :=
  match declare plan (empty index owner) with
  | .ok _ s => .ok (if s.noise.isEmpty then { s with noise := [⟨.null, 1⟩] } else s)
  | .error e _ => .error e

end Stage

end Multistage
