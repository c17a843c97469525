import Multistage.Model

/-!
# Sampling

All randomness comes from a list of draws, numbers in `[0, 1)` that are used one after the other. A
scenario is a walk through a model from the root: the nodes that it visits with the noise terms that
it meets there, and whether it was cut short although it could have gone on.

## Main definitions

- `Draws`: the draws that are left.
- `requireSeed`: the check of a seed.
- `chooseIndex`, `chooseBelow`, `chooseCategory`: an index by weights, a number below another, and
  an outcome of a distribution that may lack mass.
- `Scenario`: a walk.
- `Scheme`, `Scheme.sample`: a way to find scenarios, and the next scenario.

## Design notes

At every node that a walk reaches, one draw chooses the node and one its noise term, so the number
of draws bounds the number of steps.
-/

namespace Multistage

/-- The draws that are left. -/
abbrev Draws (α : Type) := List α

variable {α : Type} [Scalar α]

/-- The next draw. -/
def nextDraw : Action α (Draws α) α := do
  match ← get with
  | [] => throw .drawsExhausted
  | u :: rest => do
    set rest
    return u

/-- Fail unless a datum is null or a seed: an integer of 64 bits, with a sign or without. Since the
draws are given, a seed has no effect. -/
def requireSeed (seed : Datum α) : Except (Failure α) Unit :=
  match seed with
  | .null => .ok ()
  | .int n => if -Nat.pow 2 63 ≤ n && n < Nat.pow 2 64 then .ok () else .error .seedSize
  | _ => .error .seedKind

/-- The weights are finite and not negative, and their sum is positive. -/
def validWeights (weights : List α) : Bool :=
  weights.all (fun w => 0 ≤ w && Scalar.isFinite w) && 0 < Scalar.sum weights

/-- The position of the first weight at which the running sum exceeds a target. -/
def firstAbove (target : α) : (weights : List α) → (sum : α) → (position : Nat) → Option Nat
  | [], _, _ => none
  | w :: rest, sum, position =>
    if target < sum + w then some position else firstAbove target rest (sum + w) (position + 1)

/-- The last position of a positive weight. -/
def lastPositive (weights : List α) : Nat :=
  ((weights.zipIdx.filter fun e => 0 < e.1).getLast?.map (·.2)).getD 0

/-- The position that a draw `u` chooses: the first at which the running sum exceeds `u` times the
total. -/
def indexOfDraw (weights : List α) (u : α) : Nat :=
  (firstAbove (u * Scalar.sum weights) weights 0 0).getD (lastPositive weights)

/-- Choose a position with probabilities in proportion to weights. -/
def chooseIndex (weights : List α) : Action α (Draws α) Nat := do
  if !validWeights weights then throw .invalidWeights
  return indexOfDraw weights (← nextDraw)

/-- The largest number below `n` that is at most `u * n`. -/
def numberOfDraw (n : Nat) (u : α) : Nat :=
  ((List.range (n - 1)).filter fun k => Scalar.ofNat (k + 1) ≤ u * Scalar.ofNat n).length

/-- Choose a number below `n`, each with the same probability. -/
def chooseBelow (n : Nat) : Action α (Draws α) Nat := do
  return numberOfDraw n (← nextDraw)

/-- The probability that probabilities lack to one. -/
def missingMass (probabilities : List α) : α :=
  Scalar.greater 0 (1 - Scalar.sumInLanes probabilities)

/-- Choose an outcome of a distribution. If it may stop, the mass that it lacks to one is the
probability to choose none. -/
def chooseCategory (probabilities : List α) (mayStop : Bool) : Action α (Draws α) (Option Nat) := do
  if mayStop then
    let i ← chooseIndex (probabilities ++ [missingMass probabilities])
    return if i == probabilities.length then none else some i
  else
    return some (← chooseIndex probabilities)

/-- A node that is visited and the noise term that is met there. -/
structure Visit (α : Type) where
  node : Datum α
  noise : Datum α

/-- A walk through a model. -/
structure Scenario (α : Type) where
  path : List (Visit α)
  /-- The walk was ended although its last node has children. -/
  cutShort : Bool

/-- A way to find scenarios. -/
inductive Scheme (α : Type) where
  /-- A random walk with the probabilities of the model. It ends after `depth` nodes if that is
  positive, and before it visits a node again if `stopsOnCycle` is true. -/
  | randomWalk (depth : Int) (stopsOnCycle : Datum α)
  /-- Given scenarios, one after the other; after the last one the user asks to stop. -/
  | given (scenarios : List (Scenario α))

/-- Choose one of the edges, or none. -/
def chooseEdge (edges : List (Edge α)) : Action α (Draws α) (Option (Datum α)) := do
  let choice ← chooseCategory (edges.map (·.probability)) true
  return choice.bind fun i => edges[i]?.map (·.child)

/-- Choose a noise term of a node. -/
def chooseNoise (n : Node α) : Action α (Draws α) (Datum α) := do
  let i ← chooseIndex (n.stage.noise.map (·.probability))
  Action.ofOption .indexOutOfRange (n.stage.noise[i]?.map (·.term))

/-- Continue a walk that has come to edges, for a number of steps. -/
def walkFrom (m : Model α) (depth : Int) (stopsOnCycle : Bool) :
    (steps : Nat) → (edges : List (Edge α)) → (path : List (Visit α)) →
    Action α (Draws α) (Scenario α)
  | 0, _, _ => throw .drawsExhausted
  | steps + 1, edges, path => do
    if edges.isEmpty then return ⟨path, false⟩
    match ← chooseEdge edges with
    | none => return ⟨path, false⟩
    | some index =>
      if stopsOnCycle && path.any (·.node == index) then return ⟨path, true⟩
      let n ← Action.ofExcept (m.node index)
      let path := path ++ [⟨index, ← chooseNoise n⟩]
      if n.children.isEmpty then return ⟨path, false⟩
      if 0 < depth && depth ≤ path.length then return ⟨path, true⟩
      walkFrom m depth stopsOnCycle steps n.children path

/-- A random walk from the root. -/
def walk (m : Model α) (depth : Int) (stopsOnCycle : Bool) : Action α (Draws α) (Scenario α) := do
  walkFrom m depth stopsOnCycle ((← get).length + 1) m.rootChildren []

namespace Scheme

/-- The random walk of a depth, which is not negative. -/
def randomWalk? (depth stopsOnCycle : Datum α) : Except (Failure α) (Scheme α) := do
  if ← depth.less (.int 0) then .error (.walkDepth depth)
  else return randomWalk (← depth.truncated) stopsOnCycle

/-- The random walk that ends where the model does. -/
def unlimited : Scheme α := randomWalk 0 (.bool false)

/-- The next scenario, and the scheme for those after it. -/
def sample (m : Model α) : Scheme α → Action α (Draws α) (Scenario α × Scheme α)
  | randomWalk depth stopsOnCycle => do
    return (← walk m depth stopsOnCycle.truth, randomWalk depth stopsOnCycle)
  | given [] => throw .interrupted
  | given (s :: rest) => return (s, given rest)

/-- The text of a scheme. -/
def shown : Scheme Float → String
  | randomWalk depth stopsOnCycle =>
    "InSampleMonteCarlo(max_depth=" ++ toString depth ++ ", terminate_on_cycle=" ++
      stopsOnCycle.shown ++ ")"
  | given _ => "script"

end Scheme

end Multistage
