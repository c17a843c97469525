import Multistage.Linear.Subproblem

/-!
# Formulas

A formula is arithmetic over data, names and the realization of the noise. Its value is a datum or
an affine expression: sums and differences may join variables, a product scales an expression by a
number, and only numbers divide. Tuples, of which a state is one, can be joined and repeated.

## Main definitions

- `Formula`: the syntax.
- `Operand.add`, `Operand.sub`, `Operand.mul`, `Operand.div`, `Operand.neg`: the operations, under
  which a datum stays a datum as long as no variable joins.
- `Scope`, `Formula.eval`: the value of a formula.
- `Subproblem.read`: the value of an operand at the point of the last solve.
-/

namespace Multistage

/-- Arithmetic over data, names and noise. -/
inductive Formula (α : Type) where
  | datum (value : Datum α)
  | name (name : String)
  /-- The realization of the noise. -/
  | noise
  /-- A component of the realization of the noise. -/
  | component (index : Datum α)
  | neg (a : Formula α)
  | add (a b : Formula α)
  | sub (a b : Formula α)
  | mul (a b : Formula α)
  | div (a b : Formula α)

/-- What names and noise stand for. -/
structure Scope (α : Type) where
  lookup : Name → Except (Failure α) (Operand α)
  /-- A constraint, as it stands where an expression is needed. -/
  describe : ConstraintHandle → Misfit α
  /-- The realization of the noise, or null if there is none. -/
  noise : Datum α

namespace Operand

variable {α : Type} [Scalar α]

/-- The expression that an operand is, if it is a variable or an expression. -/
def expression? : Operand α → Option (Affine α)
  | decision v => some (Affine.ofVariable v)
  | affine e => some e
  | _ => none

/-- An operand as an affine expression; a number is a constant. -/
def toAffine (describe : ConstraintHandle → Misfit α) :
    Operand α → Except (Failure α) (Affine α)
  | decision v => .ok (Affine.ofVariable v)
  | affine e => .ok e
  | datum d =>
    if d.isNumeric then d.asNumber.map Affine.ofScalar else .error (.notAffine (.datum d))
  | state s => .error (.notAffine (.state s))
  | tuple items => .error (.notAffine (.tuple items))
  | constraint h => .error (.notAffine (describe h))

/-- The items of an operand that is a tuple. A state is the tuple of its two copies. -/
def items? : Operand α → Option (List (TupleItem α))
  | state s => some [.decision s.incoming, .decision s.outgoing]
  | tuple items => some items
  | datum (.tuple items) => some (items.map .datum)
  | _ => none

/-- A tuple followed by another. -/
def append (a b : Operand α) : Except (Failure α) (Operand α) :=
  match a.items?, b.items? with
  | some xs, some ys => .ok (tuple (xs ++ ys))
  | _, _ => .error .wrongKind

/-- A tuple repeated a number of times. -/
def repeated (a times : Operand α) : Except (Failure α) (Operand α) :=
  match a.items?, times with
  | some items, datum d => do return tuple (← Datum.copies (← d.toInteger) items)
  | _, _ => .error .wrongKind

/-- An operand as a scalar. -/
def toScalar : Operand α → Except (Failure α) α
  | datum d => d.toScalar
  | _ => .error .wrongKind

/-- The factor that an operand is for an expression. -/
def factor : Operand α → Except (Failure α) α
  | datum d => if d.isNumeric then d.asNumber else .error .notScalable
  | _ => .error .notScalable

/-- The reciprocal of a number. -/
def reciprocal : Operand α → Except (Failure α) α
  | datum d => do
    let x ← d.asNumber
    if Scalar.isZero x then .error .divisionByZero else return 1 / x
  | _ => .error .wrongKind

/-- The handle of a variable. -/
def toVariable : Operand α → Except (Failure α) Variable
  | decision v => .ok v
  | _ => .error .missingField

/-- The handle of a constraint. -/
def toConstraint : Operand α → Except (Failure α) ConstraintHandle
  | constraint h => .ok h
  | _ => .error .missingField

/-- The sum; tuples are joined. -/
def add (describe : ConstraintHandle → Misfit α) (a b : Operand α) :
    Except (Failure α) (Operand α) :=
  match a.expression?, b.expression?, a, b with
  | some e, _, _, _ => return affine (e.add (← b.toAffine describe))
  | none, some f, _, _ => return affine (f.add (← a.toAffine describe))
  | none, none, datum x, datum y => (x.add y).map datum
  | none, none, a, b => a.append b

/-- The difference. -/
def sub (describe : ConstraintHandle → Misfit α) (a b : Operand α) :
    Except (Failure α) (Operand α) :=
  match a.expression?, b.expression?, a, b with
  | some e, _, _, _ => return affine (e.sub (← b.toAffine describe))
  | none, some f, _, _ => return affine ((← a.toAffine describe).sub f)
  | none, none, datum x, datum y => (x.sub y).map datum
  | none, none, _, _ => .error .wrongKind

/-- The product; an expression is multiplied by numbers only, and a tuple is repeated. -/
def mul (a b : Operand α) : Except (Failure α) (Operand α) :=
  match a.expression?, b.expression?, a, b with
  | some e, _, _, _ => return affine (e.scale (← b.factor))
  | none, some f, _, _ => return affine (f.scale (← a.factor))
  | none, none, datum x, datum y => (x.mul y).map datum
  | none, none, datum x, b => b.repeated (datum x)
  | none, none, a, b => a.repeated b

/-- The quotient; an expression is multiplied by the reciprocal of a number. -/
def div (a b : Operand α) : Except (Failure α) (Operand α) :=
  match a.expression?, a, b with
  | some e, _, _ => return affine (e.scale (← b.reciprocal))
  | none, datum x, datum y => (x.div y).map datum
  | none, _, _ => .error .wrongKind

/-- The negative. -/
def neg (a : Operand α) : Except (Failure α) (Operand α) :=
  match a.expression?, a with
  | some e, _ => .ok (affine e.neg)
  | none, datum x => x.neg.map datum
  | none, _ => .error .wrongKind

end Operand

namespace Formula

instance {α : Type} : Inhabited (Formula α) := ⟨noise⟩

variable {α : Type} [Scalar α]

/-- The value of a formula; the operands of an operation are evaluated from left to right. -/
def eval (scope : Scope α) : Formula α → Except (Failure α) (Operand α)
  | datum d => .ok (.datum d)
  | name n => scope.lookup (.text n)
  | noise => .ok (.datum scope.noise)
  | component i => (scope.noise.component i).map Operand.datum
  | neg a => do (← eval scope a).neg
  | add a b => do
    let x ← eval scope a
    x.add scope.describe (← eval scope b)
  | sub a b => do
    let x ← eval scope a
    x.sub scope.describe (← eval scope b)
  | mul a b => do
    let x ← eval scope a
    x.mul (← eval scope b)
  | div a b => do
    let x ← eval scope a
    x.div (← eval scope b)

end Formula

/-- The value of an operand at a point: a number, or those of the two copies of a state. -/
inductive Reading (α : Type) where
  | number (value : α)
  | copies (incoming outgoing : α)

/-- The value of an operand at the point of the last solve. -/
def Subproblem.read {α : Type} [Scalar α] (p : Subproblem α)
    (describe : ConstraintHandle → Misfit α) (item : Operand α) :
    Except (Failure α) (Reading α) := do
  if p.point?.isNone then .error (.noSolution p.label) else
  match item with
  | .state s =>
    return .copies (← p.valueOf (Affine.ofVariable s.incoming))
      (← p.valueOf (Affine.ofVariable s.outgoing))
  | item => return .number (← p.valueOf (← item.toAffine describe))

end Multistage
