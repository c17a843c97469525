import Multistage.Failure
import Multistage.Text.Number

/-!
# Arithmetic on data

Integers stay integers under addition, subtraction and multiplication, a quotient of integers is the
nearest scalar, and a truth value counts as zero or one. Numbers are compared by the values that
they stand for. Sequences can be joined and repeated. Every other combination fails.

## Main definitions

- `Datum.add`, `Datum.sub`, `Datum.mul`, `Datum.div`, `Datum.neg`, `Datum.abs`: the operations.
- `Datum.less`, `Datum.atMost`: the comparisons.
- `Datum.toScalar`, `Datum.asNumber`, `Datum.truncated`: a datum as a scalar and as an integer.
- `Datum.isKey`, `Datum.elements`, `Datum.component`: data as keys and as containers.
-/

namespace Multistage

namespace Datum

variable {α : Type} [Scalar α]

/-! ### Data as numbers -/

/-- The scalar of an integer, unless it is too large. -/
def scalarOfInt (n : Int) : Except (Failure α) α :=
  let x : α := Scalar.ofInt n
  if Scalar.isFinite x then .ok x else .error .tooLarge

/-- The integer that a datum is; truth values are zero and one. -/
def integer? : Datum α → Option Int
  | int n => some n
  | bool b => some (if b then 1 else 0)
  | _ => none

/-- The integer that a datum is, or a failure. -/
def toInteger (d : Datum α) : Except (Failure α) Int := d.integer?.elim (.error .wrongKind) .ok

/-- The truth of a datum: zero, nothing and what is empty are false. -/
def truth : Datum α → Bool
  | null => false
  | bool b => b
  | int n => n != 0
  | real x => !Scalar.isZero x
  | text s => !s.isEmpty
  | tuple items => !items.isEmpty
  | list items => !items.isEmpty
  | record fields => !fields.isEmpty

/-- The datum is a number. -/
def isNumeric : Datum α → Bool
  | int _ | bool _ | real _ => true
  | _ => false

/-- A number as a scalar; everything else is of the wrong kind. -/
def asNumber : Datum α → Except (Failure α) α
  | int n => scalarOfInt n
  | bool b => .ok (if b then 1 else 0)
  | real x => .ok x
  | _ => .error .wrongKind

/-- A number, or the number that a text spells, as a scalar. -/
def toScalar : Datum α → Except (Failure α) α
  | text s =>
    match (SpelledNumber.read? s).bind SpelledNumber.toScalar? with
    | some x => .ok x
    | none => .error .malformedNumber
  | d => d.asNumber

/-- A number without its fractional part. -/
def truncated (d : Datum α) : Except (Failure α) Int :=
  match d.integer? with
  | some n => .ok n
  | none => do
    match Scalar.exact (← d.asNumber) with
    | .finite q => return q.num.tdiv q.den
    | .nan => .error .malformedNumber
    | _ => .error .tooLarge

/-- The value that a number stands for. -/
def value (d : Datum α) : Except (Failure α) (Extended Rat) :=
  match d.integer?, d with
  | some n, _ => .ok (.finite n)
  | none, real x => .ok (Scalar.exact x)
  | none, _ => .error .wrongKind

/-- The first number is strictly smaller than the second. -/
def less (a b : Datum α) : Except (Failure α) Bool := do return (← a.value).lt (← b.value)

/-- The first number is at most the second. -/
def atMost (a b : Datum α) : Except (Failure α) Bool := do return (← a.value).le (← b.value)

/-- A bound that may be left out, in which case it is another. -/
def bound (other : Extended α) : Option (Datum α) → Except (Failure α) (Extended α)
  | some d => d.toScalar.map Scalar.classify
  | none => .ok other

/-! ### Operations -/

/-- Combine two numbers, as integers if both are and as scalars otherwise. -/
def combine (onInt : Int → Int → Except (Failure α) (Datum α))
    (onScalar : α → α → Except (Failure α) (Datum α)) (a b : Datum α) :
    Except (Failure α) (Datum α) :=
  match a.integer?, b.integer? with
  | some m, some n => onInt m n
  | _, _ =>
    if a.isNumeric && b.isNumeric then do onScalar (← a.asNumber) (← b.asNumber)
    else .error .wrongKind

/-- The sum of numbers, or a sequence followed by another of its kind. -/
def add : Datum α → Datum α → Except (Failure α) (Datum α)
  | text s, text t => .ok (text (s ++ t))
  | tuple xs, tuple ys => .ok (tuple (xs ++ ys))
  | list xs, list ys => .ok (list (xs ++ ys))
  | a, b => combine (fun m n => .ok (int (m + n))) (fun x y => .ok (real (x + y))) a b

/-- The difference of numbers. -/
def sub (a b : Datum α) : Except (Failure α) (Datum α) :=
  combine (fun m n => .ok (int (m - n))) (fun x y => .ok (real (x - y))) a b

/-- Counts are below this number in size. -/
def countLimit : Int := Nat.pow 2 63

/-- Texts and lists are shorter than this; longer ones do not fit into memory. -/
def lengthLimit : Nat := Nat.pow 2 36

/-- A number of copies of a list, one after the other; a negative number counts as none. -/
def copies {β : Type} (times : Int) (items : List β) : Except (Failure α) (List β) :=
  if times < -countLimit || countLimit ≤ times then .error .tooLarge
  else if items.isEmpty then .ok []
  else if lengthLimit ≤ times.toNat * items.length then .error .tooLong
  else .ok (List.replicate times.toNat items).flatten

/-- A number of copies of a text. Their characters must be counted by a count. -/
def copiesOfText (times : Int) (s : String) : Except (Failure α) String :=
  if countLimit ≤ times * s.length then .error .tooLarge
  else (copies times s.toList).map String.ofList

/-- A sequence repeated an integer number of times, if the datum is one. -/
def repeated? (d : Datum α) (times : Int) : Option (Except (Failure α) (Datum α)) :=
  match d with
  | text s => some ((copiesOfText times s).map text)
  | tuple items => some ((copies times items).map tuple)
  | list items => some ((copies times items).map list)
  | _ => none

/-- The product of numbers, or a sequence repeated. -/
def mul (a b : Datum α) : Except (Failure α) (Datum α) :=
  match b.integer?.bind a.repeated?, a.integer?.bind b.repeated? with
  | some d, _ => d
  | none, some d => d
  | none, none => combine (fun m n => .ok (int (m * n))) (fun x y => .ok (real (x * y))) a b

/-- The scalar nearest to the quotient of integers. A quotient that is zero is negative if just one
of the integers is. -/
def quotient (m n : Int) : Except (Failure α) (Datum α) :=
  if n == 0 then .error .divisionByZero else
  let x : α := Scalar.ofRat (mkRat m.natAbs n.natAbs)
  if !Scalar.isFinite x then .error .tooLarge
  else .ok (real (if decide (m < 0) == decide (n < 0) then x else -x))

/-- The quotient of numbers. -/
def div (a b : Datum α) : Except (Failure α) (Datum α) :=
  combine quotient
    (fun x y => if Scalar.isZero y then .error .divisionByZero else .ok (real (x / y))) a b

/-- The negative of a number. -/
def neg (d : Datum α) : Except (Failure α) (Datum α) :=
  match d.integer?, d with
  | some n, _ => .ok (int (-n))
  | none, real x => .ok (real (-x))
  | none, _ => .error .wrongKind

/-- The absolute value of a number. -/
def abs (d : Datum α) : Except (Failure α) (Datum α) :=
  match d.integer?, d with
  | some n, _ => .ok (int n.natAbs)
  | none, real x => .ok (real (Scalar.abs x))
  | none, _ => .error .wrongKind

/-! ### Data as keys and as containers -/

mutual

/-- The datum can be a key: it is no list and no record, and holds none. -/
def isKey : Datum α → Bool
  | list _ | record _ => false
  | tuple items => areKeys items
  | _ => true

/-- All data of a list can be keys. -/
def areKeys : List (Datum α) → Bool
  | [] => true
  | d :: rest => isKey d && areKeys rest

end

/-- Fail unless a datum can be a key. -/
def requireKey (d : Datum α) : Except (Failure α) Unit :=
  if d.isKey then .ok () else .error .wrongKind

/-- The members of a container: the items of a sequence, the characters of a text, the names of a
record. -/
def elements : Datum α → Except (Failure α) (List (Datum α))
  | tuple items => .ok items
  | list items => .ok items
  | text s => .ok (s.toList.map fun c => text (String.singleton c))
  | record fields => .ok (fields.map fun f => text f.1)
  | _ => .error .wrongKind

/-- The item of a list at a position, which counts from the end if it is negative. -/
def itemAt? {β : Type} (items : List β) (position : Int) : Option β :=
  let place := if position < 0 then position + items.length else position
  if place < 0 then none else items[place.toNat]?

/-- The item of a list at a position that is given as a datum. -/
def itemAt {β : Type} (items : List β) (position : Datum α) : Except (Failure α) β := do
  (itemAt? items (← position.toInteger)).elim (.error .indexOutOfRange) .ok

/-- The field of a record, or the item of a sequence at a position. -/
def component (d index : Datum α) : Except (Failure α) (Datum α) :=
  match d with
  | record fields =>
    if !index.isKey then .error .wrongKind else
    match fields.find? fun f => index == text f.1 with
    | some f => .ok f.2
    | none => .error .missingKey
  | d => do itemAt (← d.elements) index

end Datum

end Multistage
