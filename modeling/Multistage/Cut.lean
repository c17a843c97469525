import Multistage.Quantity
import Multistage.Risk

/-!
# Cuts and their bookkeeping

A cut is an affine function of the state that bounds the value of what comes after a node. A pool
keeps all cuts together with the states that were visited, and knows for every visited state which
cut is the best there and for every cut at how many visited states it is the best. A cut that is
nowhere the best is dominated.

## Main definitions

- `State`: values of the state variables by name.
- `Cut`, `Cut.height`: a cut and its value at a state.
- `Sense.improves`: the comparison of heights.
- `StateKey`: what tells states apart.
- `CutPool`, `CutPool.add`: the pool, and what a new cut at a new state changes.

## Design notes

Cuts and states are over quantities. Over scalars the only failure is a state that lacks the value
for a coefficient.

One list of cuts serves both the node, which installs cuts and takes them out, and the bookkeeping,
in which they compete. A refinement hands its cut to both, nothing else adds a cut to either or
takes one away, and both hold the cut itself and no copy. A new cut is in both before it competes,
so that they are the same list also where it cannot be evaluated at a state.
-/

namespace Multistage

/-- Values of the state variables by name. -/
abbrev State (β : Type) := Dict Name β

/-- The affine function `intercept + ∑ coefficient * state`. -/
structure Cut (β : Type) where
  intercept : β
  coefficients : Dict Name β
  /-- The position of the constraint that installs the cut, if it is installed. -/
  constraint? : Option Nat
  /-- The number of visited states at which the cut is the best. -/
  count : Int
  /-- The cut was installed once and has been taken out as dominated. -/
  removed : Bool

/-- The value of a cut at a state, which must have a value for every coefficient. -/
def Cut.height {α β : Type} [Quantity β α] (c : Cut β) (state : State β) :
    Except (Failure α) β := do
  let slope ← c.coefficients.entries.foldlM (fun sum (name, coefficient) =>
    match state.get? name with
    | some x => do Quantity.add sum (← Quantity.mul coefficient x)
    | none => .error .missingKey) Quantity.zero
  Quantity.add c.intercept slope

/-- The first height is strictly better than the second: higher when minimising. -/
def Sense.improves {α β : Type} [Quantity β α] (sense : Sense) (trial incumbent : β) :
    Except (Failure α) Bool :=
  match sense with
  | .min => Quantity.less incumbent trial
  | .max => Quantity.less trial incumbent

/-! ### Which states are the same -/

/-- Names can be put in order: they are texts, or they are numbers, or there is only one. -/
def sortable (names : List Name) : Bool :=
  names.length ≤ 1 || names.all Datum.isNumeric || names.all (· matches .text _)

/-- A name comes before another of its kind. -/
def nameBefore (a b : Name) : Bool :=
  match a, b with
  | .text s, .text t => decide (s < t)
  | a, b => (a.less b).toOption.getD false

/-- What tells states apart: their entries as data, sorted by name. -/
abbrev StateKey (α : Type) := List (Name × Datum α)

namespace StateKey

variable {α β : Type} [Scalar α]

/-- The key of a state. Its names must be of one kind, and its values must be able to be keys. -/
def ofState [Quantity β α] (state : State β) : Except (Failure α) (StateKey α) := do
  if !sortable state.keys then .error .wrongKind else
  let entries := state.entries.map fun (name, x) => (name, Quantity.toDatum x)
  entries.forM fun e => e.2.requireKey
  return entries.mergeSort fun a b => !nameBefore b.1 a.1

/-- Two keys are of the same state. -/
def same (a b : StateKey α) : Bool :=
  a.length == b.length && (a.zip b).all fun (x, y) => x.1 == y.1 && x.2.equals y.2

end StateKey

/-! ### Pools -/

/-- A state that was visited, with the best cut there. -/
structure VisitedState (β : Type) where
  state : State β
  bestHeight : β
  bestCut : Nat

/-- The cuts and the visited states. -/
structure CutPool (α β : Type) where
  cuts : List (Cut β)
  visited : List (VisitedState β)
  /-- The keys of the states that count as visited. -/
  seen : List (StateKey α)

namespace CutPool

variable {α β : Type}

/-- The pool without cuts. -/
def empty : CutPool α β := ⟨[], [], []⟩

/-- Change the count of a cut. -/
def addCount (pool : CutPool α β) (cut : Nat) (difference : Int) : CutPool α β :=
  { pool with cuts := pool.cuts.modify cut fun c => { c with count := c.count + difference } }

/-- Make a cut the best at a visited state. -/
def award (pool : CutPool α β) (place cut : Nat) (height : β) : CutPool α β :=
  match pool.visited[place]? with
  | none => pool
  | some v =>
    let pool := (pool.addCount v.bestCut (-1)).addCount cut 1
    { pool with visited := pool.visited.set place ⟨v.state, height, cut⟩ }

/-- Let a cut compete at a visited state. -/
def contest [Quantity β α] (sense : Sense) (cut place : Nat) :
    Action α (CutPool α β) Unit := do
  let pool ← get
  match pool.cuts[cut]?, pool.visited[place]? with
  | some c, some v =>
    let height ← Action.ofExcept (c.height v.state)
    if ← Action.ofExcept (sense.improves height v.bestHeight) then
      set (pool.award place cut height)
  | _, _ => pure ()

/-- Visit a state with a new key: the given cut is the best there until all cuts have competed. -/
def visit [Quantity β α] (sense : Sense) (cut : Nat) (state : State β) (key : StateKey α) :
    Action α (CutPool α β) Unit := do
  modify fun pool => { pool with seen := pool.seen ++ [key] }
  match (← get).cuts[cut]? with
  | none => pure ()
  | some c =>
    let height ← Action.ofExcept (c.height state)
    let place := (← get).visited.length
    modify fun pool =>
      let pool := pool.addCount cut 1
      { pool with visited := pool.visited ++ [⟨state, height, cut⟩] }
    (List.range (← get).cuts.length).forM fun other => contest sense other place

/-- Add a cut: it competes at the visited states, and then all cuts compete at the new state,
unless that has no entries or its key was seen before. The key is that of the state as it was
given, which may be more exact than the quantities that cuts are evaluated with. -/
def add {γ : Type} [Scalar α] [Quantity β α] [Quantity γ α] (sense : Sense) (cut : Cut β)
    (state : State β) (given : State γ) : Action α (CutPool α β) Unit := do
  let place := (← get).cuts.length
  modify fun pool => { pool with cuts := pool.cuts ++ [cut] }
  (List.range (← get).visited.length).forM (contest sense place)
  if state.isEmpty then return ()
  let key ← Action.ofExcept (StateKey.ofState given)
  if !(← get).seen.any key.same then visit sense place state key

end CutPool

end Multistage
