import Multistage.Node

/-!
# Beliefs

In a partially observable model one sees at every step a noise term and the block of the partition
that the current node is in, but not the node. A belief gives the nodes probabilities. Upon an
observation it is updated by Bayes' rule: with transition probabilities `Φ` and noise distributions
`Ω`, the posterior of a node `i` of the observed block is

  `Ω i noise * ∑ j, belief j * Φ j i`

divided by the probability of the observation, and it is zero for all other nodes.

## Main definitions

- `transitionMap`, `emissionMap`: the two laws as maps.
- `BeliefUpdater`: the laws with a partition.
- `BeliefUpdater.arrivalMass`, `BeliefUpdater.observationMass`: the probability to arrive at a node,
  and the mass by which the posterior is divided.
- `BeliefUpdater.update`: the posterior.
-/

namespace Multistage

/-- Probabilities of nodes. -/
abbrev Belief (α : Type) := Dict (Datum α) α

variable {α : Type} [Scalar α]

/-- The probabilities of the edges between nodes. Of several edges between the same two nodes the
last one counts. -/
def transitionMap (nodes : Dict (Datum α) (Node α)) : Dict (Datum α × Datum α) α :=
  Dict.ofList (nodes.entries.flatMap fun (index, node) =>
    node.children.map fun e => ((index, e.child), e.probability))

/-- The distribution of noise terms, where the probabilities of equal terms add up. -/
def emission (terms : List (NoiseTerm α)) : Dict (Datum α) α :=
  terms.foldl (fun d t => d.insert t.term (d.getD t.term 0 + t.probability)) Dict.empty

/-- The noise distributions of the nodes. -/
def emissionMap (nodes : Dict (Datum α) (Node α)) : Dict (Datum α) (Dict (Datum α) α) :=
  nodes.mapValues fun _ node => emission node.stage.noise

/-- All noise terms of nodes can be keys of a distribution. -/
def termsAreKeys (nodes : Dict (Datum α) (Node α)) : Bool :=
  nodes.values.all fun node => node.stage.noise.all (·.term.isKey)

/-- The laws of a model together with a partition of its nodes. -/
structure BeliefUpdater (α : Type) where
  partition : List (List (Datum α))
  transitions : Dict (Datum α × Datum α) α
  emissions : Dict (Datum α) (Dict (Datum α) α)

namespace BeliefUpdater

/-- The probability to move from one node to another. -/
def transition (u : BeliefUpdater α) (i j : Datum α) : α := u.transitions.getD (i, j) 0

/-- The probability that the next noise term is the given one, from a node. -/
def noiseMass (u : BeliefUpdater α) (i noise : Datum α) : α :=
  Scalar.sum (u.emissions.entries.map fun (j, d) => u.transition i j * d.getD noise 0)

/-- The probability that the next noise term is the given one, under a belief. -/
def observationMass (u : BeliefUpdater α) (belief : Belief α) (noise : Datum α) : α :=
  Scalar.sum (belief.entries.map fun (i, b) => b * u.noiseMass i noise)

/-- The probability that the next node is the given one, under a belief. -/
def arrivalMass (u : BeliefUpdater α) (belief : Belief α) (i : Datum α) : α :=
  Scalar.sum (belief.entries.map fun (j, b) => b * u.transition j i)

/-- The probability of a noise term at a node of a block; nodes outside the block have none. -/
def likelihood (u : BeliefUpdater α) (block : List (Datum α)) (noise i : Datum α) :
    Except (Failure α) α :=
  if block.contains i then
    match u.emissions.get? i with
    | some d => .ok (d.getD noise 0)
    | none => .error .missingKey
  else .ok 0

/-- The posterior of a belief when a block and a noise term are observed. The block is given by its
position, which counts from the end if it is negative. -/
def update (u : BeliefUpdater α) (belief : Belief α) (observed noise : Datum α) :
    Except (Failure α) (Belief α) := do
  let block ← Datum.itemAt u.partition observed
  if !belief.isEmpty && !u.emissions.isEmpty then noise.requireKey
  let mass := u.observationMass belief noise
  if mass ≤ 0 then .error (.impossibleObservation noise observed) else
  let entries ← belief.keys.mapM fun i => do
    return (i, (← u.likelihood block noise i) * u.arrivalMass belief i / mass)
  return ⟨entries⟩

/-- The mass of an observation if there are no nodes: probabilities are multiplied by the integer
zero, so that no integer is too large. -/
def emptyMass (belief : Dict (Datum α) (Datum α)) : Except (Failure α) (Datum α) :=
  belief.values.foldlM (fun mass p => do mass.add (← p.mul (.int 0))) (.real 0)

/-- The posterior of a belief whose probabilities are given as data. -/
def updateGiven (u : BeliefUpdater α) (belief : Dict (Datum α) (Datum α))
    (observed noise : Datum α) : Except (Failure α) (Belief α) := do
  let _ ← Datum.itemAt u.partition observed
  if u.emissions.isEmpty then
    if ← (← emptyMass belief).atMost (.int 0) then .error (.impossibleObservation noise observed)
  else if !belief.isEmpty then noise.requireKey
  let entries ← belief.entries.mapM fun (i, probability) => do return (i, ← probability.asNumber)
  u.update ⟨entries⟩ observed noise

end BeliefUpdater

end Multistage
