import Multistage.Datum.Arithmetic
import Multistage.Scalar.Summation

/-!
# Risk measures

A risk measure looks at outcomes with probabilities and objective values and moves probability
towards the bad ones. Its value is the mean of the objectives under the adjusted probabilities.

## Main definitions

- `Sense`: whether objectives are minimised or maximised, so which outcomes are bad.
- `Measure`: expectation, worst case, mean of the worst outcomes of a given mass (tail), weighted
  sums of measures, and the mixture of expectation and tail.
- `Measure.adjust`: the adjusted probabilities.
- `Measure.scale`, `Measure.join`: a multiple of a measure and the sum of two.

## Design notes

An outcome that is impossible counts as infinitely good in the worst case, so it can only be chosen
if all others are as good. A value that is not a number counts as the worst of all.
-/

namespace Multistage

/-- The sense of optimisation. -/
inductive Sense where
  | min
  | max
  deriving DecidableEq

namespace Sense

/-- The word for a sense. -/
def word : Sense → String
  | min => "min"
  | max => "max"

/-- The sense of a word. -/
def ofWord? (s : String) : Option Sense :=
  if s == "min" then some min else if s == "max" then some max else none

/-- One when minimising, minus one when maximising. -/
def sign {α : Type} [Scalar α] : Sense → α
  | min => 1
  | max => -1

end Sense

/-- A risk measure. -/
inductive Measure (α : Type) where
  | expectation
  | worstCase
  /-- The mean of the worst outcomes, `level` of the total mass. -/
  | tail (level : α)
  /-- The weighted sum of measures. -/
  | mixture (terms : List (α × Measure α))
  /-- `weight` times the expectation and the rest of one times the tail. -/
  | weightedTail (weight level : α)

namespace Measure

variable {α : Type} [Scalar α]

/-- The level of a tail, which is in `(0, 1]`. -/
def tailLevel (level : Datum α) : Except (Failure α) α := do
  let v ← level.value
  if Extended.lt (.finite 0) v && v.le (.finite 1) then level.asNumber
  else .error (.tailLevel level)

/-- The tail of a level. -/
def tail? (level : Datum α) : Except (Failure α) (Measure α) := do return tail (← tailLevel level)

/-- The mixture of expectation and tail, for a weight in `[0, 1]`. -/
def weightedTail? (weight level : Datum α) : Except (Failure α) (Measure α) := do
  let v ← weight.value
  if !(Extended.le (.finite 0) v && v.le (.finite 1)) then .error (.mixtureWeight weight) else
  return weightedTail (← weight.asNumber) (← tailLevel level)

/-- The weighted sum of measures, for weights that are not negative. -/
def mixture? (terms : List (Datum α × Measure α)) : Except (Failure α) (Measure α) := do
  let terms ← terms.mapM fun (w, m) => w.toScalar.map fun x => (x, m)
  if terms.any (·.1 < 0) then .error .negativeWeight else return mixture terms

/-- The terms of a weighted sum, also of the one that a mixture with a tail stands for. -/
def terms? : Measure α → Option (List (α × Measure α))
  | mixture terms => some terms
  | weightedTail weight level => some [(weight, expectation), (1 - weight, tail level)]
  | _ => none

/-- The terms that a measure contributes to a sum: a weighted sum is dissolved, everything else is
one term. -/
def summands : Measure α → List (Datum α × Measure α)
  | mixture terms => terms.map fun (w, m) => (.real w, m)
  | m => [(.real 1, m)]

/-- A multiple of a measure. -/
def scale (weight : Datum α) (m : Measure α) : Except (Failure α) (Measure α) :=
  mixture? [(weight, m)]

/-- The sum of two measures. -/
def join (m n : Measure α) : Except (Failure α) (Measure α) := mixture? (m.summands ++ n.summands)

/-- The second value is strictly worse than the first. -/
def worse (sense : Sense) : Extended α → Extended α → Bool
  | .nan, _ => false
  | _, .nan => true
  | a, b =>
    match sense with
    | .min => a.lt b
    | .max => b.lt a

/-- The position of the first of the worst values. -/
def firstWorst (sense : Sense) : List (Extended α) → Nat
  | [] => 0
  | v :: rest =>
    (rest.zipIdx 1).foldl (fun best e => if worse sense best.2 e.1 then (e.2, e.1) else best) (0, v)
      |>.1

/-- All mass on the first of the worst outcomes, where impossible outcomes are infinitely good. -/
def adjustWorstCase (sense : Sense) (probabilities objectives : List α) :
    Except (Failure α) (List α) :=
  let nothing := probabilities.map fun _ => (0 : α)
  if !probabilities.any (0 < ·) then .ok nothing
  else if objectives.length != probabilities.length then .error .indexOutOfRange
  else
    let best : Extended α := match sense with | .min => .negInf | .max => .posInf
    let values := List.zipWith (fun p f => if 0 < p then Scalar.classify f else best)
      probabilities objectives
    .ok (nothing.set (firstWorst sense values) (Scalar.sumInLanes probabilities))

/-- The first number does not come after the second in ascending order, which ends with the values
that are not numbers. -/
def ascends (a b : α) : Bool := !(b < a) && (Scalar.isNumber a || !Scalar.isNumber b)

/-- The positions of the objectives from worst to best, equal ones in their order. -/
def worstFirst (sense : Sense) (objectives : List α) : List Nat :=
  (objectives.zipIdx.mergeSort fun x y =>
    match sense with
    | .min => ascends y.1 x.1
    | .max => ascends x.1 y.1).map (·.2)

/-- Give the outcomes at the positions their probabilities, one after the other, until `level` of
the total mass is collected. -/
def collect (probabilities : List α) (total level : α) :
    (positions : List Nat) → (collected : α) → (adjusted : List α) → Except (Failure α) (List α)
  | [], _, adjusted => .ok adjusted
  | i :: rest, collected, adjusted =>
    if level ≤ collected then .ok adjusted else
    match probabilities[i]? with
    | none => .error .indexOutOfRange
    | some p =>
      let share := Scalar.lesser (p / total) (level - collected)
      collect probabilities total level rest (collected + share)
        (adjusted.set i (total * share / level))

/-- The mass of the worst outcomes, scaled to the mass of all. -/
def adjustTail (level : α) (sense : Sense) (probabilities objectives : List α) :
    Except (Failure α) (List α) :=
  let total := Scalar.sumInLanes probabilities
  let nothing := probabilities.map fun _ => (0 : α)
  if total ≤ 0 then .ok nothing
  else collect probabilities total level (worstFirst sense objectives) 0 nothing

/-- Add a multiple of a vector. -/
def addScaled (weight : α) (q scratch : List α) : List α :=
  List.zipWith (fun x y => x + weight * y) q scratch

mutual

/-- The adjusted probabilities. -/
def adjust (sense : Sense) (probabilities objectives : List α) :
    Measure α → Except (Failure α) (List α)
  | expectation => .ok probabilities
  | worstCase => adjustWorstCase sense probabilities objectives
  | tail level => adjustTail level sense probabilities objectives
  | mixture terms =>
    adjustTerms sense probabilities objectives terms (probabilities.map fun _ => 0)
  | weightedTail weight level => do
    let rest ← adjustTail level sense probabilities objectives
    return addScaled (1 - weight) (addScaled weight (probabilities.map fun _ => 0) probabilities)
      rest

/-- Add the adjusted probabilities of the terms of a weighted sum. -/
def adjustTerms (sense : Sense) (probabilities objectives : List α) :
    List (α × Measure α) → (sum : List α) → Except (Failure α) (List α)
  | [], sum => .ok sum
  | (weight, m) :: rest, sum => do
    let q ← adjust sense probabilities objectives m
    adjustTerms sense probabilities objectives rest (addScaled weight sum q)

end

mutual

/-- The text of a measure. -/
def shown : Measure Float → String
  | expectation => "Expectation()"
  | worstCase => "WorstCase()"
  | tail level => "AVaR(" ++ shortestText level ++ ")"
  | mixture terms => " + ".intercalate (termsShown terms)
  | weightedTail weight level =>
    "EAVaR(lambda_=" ++ shortestText weight ++ ", beta=" ++ shortestText level ++ ")"

/-- The texts of the terms of a weighted sum. -/
def termsShown : List (Float × Measure Float) → List String
  | [] => []
  | (weight, m) :: rest => (shortestText weight ++ " * " ++ shown m) :: termsShown rest

end

end Measure

end Multistage
