import Multistage.Risk

/-!
# Writing adjusted probabilities into vectors

Adjusted probabilities are written into a vector that the caller provides. A weighted sum makes one
more vector, into which its terms write one after the other before they are added. Neither vector is
prepared: both hold whatever was there before.

## Main definitions

- `Memory`: what new vectors hold.
- `Measure.write`: write the adjusted probabilities into a vector.

## Design notes

A write says what it does with the entries that it finds: it sets all of them to zero, or replaces
all of them. That nothing else of them is left is a property of the writes, see
`Measure.write_eq_adjust`.
-/

namespace Multistage

/-- What new vectors hold. Every weighted sum makes one, which is found by the positions of the
terms that lead to the sum from the outermost one. -/
def Memory (α : Type) := List Nat → List α

namespace Memory

variable {α : Type}

/-- What the vector of the outermost sum holds. -/
def fresh (memory : Memory α) : List α := memory []

/-- What the vectors that are made within the term at a position hold. -/
def within (memory : Memory α) (position : Nat) : Memory α := fun path => memory (position :: path)

end Memory

namespace Measure

variable {α : Type} [Scalar α]

/-- Set all entries of a vector to zero. -/
def clear (out : List α) : List α := out.map fun _ => 0

/-- Replace the entries of a vector by those of another one. -/
def overwrite (out entries : List α) : List α := List.zipWith (fun _ x => x) out entries

/-- Clear a vector, and put all mass on the first of the worst outcomes. -/
def writeWorstCase (sense : Sense) (probabilities objectives out : List α) :
    Except (Failure α) (List α) :=
  if !probabilities.any (0 < ·) then .ok (clear out)
  else if objectives.length != probabilities.length then .error .indexOutOfRange
  else
    let best : Extended α := match sense with | .min => .negInf | .max => .posInf
    let values := List.zipWith (fun p f => if 0 < p then Scalar.classify f else best)
      probabilities objectives
    .ok ((clear out).set (firstWorst sense values) (Scalar.sumInLanes probabilities))

/-- Clear a vector, and collect the mass of the worst outcomes. -/
def writeTail (level : α) (sense : Sense) (probabilities objectives out : List α) :
    Except (Failure α) (List α) :=
  let total := Scalar.sumInLanes probabilities
  if total ≤ 0 then .ok (clear out)
  else collect probabilities total level (worstFirst sense objectives) 0 (clear out)

mutual

/-- Write the adjusted probabilities into a vector. -/
def write (sense : Sense) (probabilities objectives : List α) :
    Measure α → Memory α → (out : List α) → Except (Failure α) (List α)
  | expectation, _, out => .ok (overwrite out probabilities)
  | worstCase, _, out => writeWorstCase sense probabilities objectives out
  | tail level, _, out => writeTail level sense probabilities objectives out
  | mixture terms, memory, out =>
    writeTerms sense probabilities objectives terms 0 memory memory.fresh (clear out)
  | weightedTail weight level, memory, out => do
    let scratch := overwrite memory.fresh probabilities
    let sum := addScaled weight (clear out) scratch
    let scratch ← writeTail level sense probabilities objectives scratch
    return addScaled (1 - weight) sum scratch

/-- The terms of a weighted sum from a position on write into the same vector, and what each of them
has written is added to the sum. -/
def writeTerms (sense : Sense) (probabilities objectives : List α) :
    List (α × Measure α) → (position : Nat) → Memory α → (scratch sum : List α) →
      Except (Failure α) (List α)
  | [], _, _, _, sum => .ok sum
  | (weight, m) :: rest, position, memory, scratch, sum => do
    let scratch ← write sense probabilities objectives m (memory.within position) scratch
    writeTerms sense probabilities objectives rest (position + 1) memory scratch
      (addScaled weight sum scratch)

end

end Measure

end Multistage
