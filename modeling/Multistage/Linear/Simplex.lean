import Multistage.Linear.Limits
import Multistage.Scalar.Binary64

/-!
# The simplex method

Linear programs over the rationals are solved exactly. Variables are shifted and mirrored so that
all are non-negative, inequalities get slack variables, and equations and rows with a negative right
hand side get artificial variables. A first phase drives the artificial variables to zero, a second
one minimises the cost.

The tableau holds integers over one common denominator, the last pivot: a pivot step then divides
without remainder, and no fraction is ever reduced. The entering and the leaving variable are those
of least index (Bland's rule), so no basis comes twice and the number of steps is at most the number
of sets of columns.

## Main definitions

- `Simplex.Column`, `Simplex.columns`: non-negative variables for the variables of a program.
- `Simplex.Tableau`, `Simplex.Tableau.pivot`: the tableau and its step.
- `Simplex.minimise`: pivot steps until no column is attractive.
- `Simplex.solve`: the solver.
- `Simplex.solver`: the solver of programs over any scalars, exact up to one rounding and up to the
  limits of their numbers.
-/

namespace Multistage.Simplex

/-- A non-negative variable that contributes `sign` times itself to the variable at `index`. -/
structure Column where
  index : Nat
  sign : Int

/-- How a variable of a program is written with non-negative variables: from its lower bound
upwards, from its upper bound downwards, or as a difference. -/
def columnsOf (index : Nat) : Option Rat → Option Rat → List Column
  | some _, _ => [⟨index, 1⟩]
  | none, some _ => [⟨index, -1⟩]
  | none, none => [⟨index, 1⟩, ⟨index, -1⟩]

/-- The point that a variable is written from. -/
def offsetOf : Option Rat → Option Rat → Rat
  | some l, _ => l
  | none, some u => u
  | none, none => 0

/-- The bounds of the variables of a program. -/
def bounds (p : Program Rat) : List (Option Rat × Option Rat) := p.lower.zip p.upper

/-- The non-negative variables. -/
def columns (p : Program Rat) : List Column :=
  (bounds p).zipIdx.flatMap fun (b, j) => columnsOf j b.1 b.2

/-- The point of the program at which all non-negative variables are zero. -/
def offsets (p : Program Rat) : List Rat := (bounds p).map fun b => offsetOf b.1 b.2

/-- A row of integers and its right hand side. -/
structure Line where
  entries : List Int
  rhs : Int

/-- The least common multiple of the denominators of numbers. -/
def commonDenominator (qs : List Rat) : Nat := qs.foldl (fun d q => d.lcm q.den) 1

/-- A number as an integer, in units of one over a multiple of its denominator. -/
def inUnits (unit : Nat) (q : Rat) : Int := q.num * (unit / q.den : Nat)

/-- A row over the non-negative variables in integers, and the factor by which it was multiplied;
the factor is negative if that makes the right hand side non-negative. -/
def integral (coefficients : List Rat) (rhs : Rat) : Line × Int :=
  let unit := commonDenominator (rhs :: coefficients)
  let factor : Int := if rhs < 0 then -unit else unit
  let scaled (q : Rat) : Int := if rhs < 0 then -inUnits unit q else inUnits unit q
  (⟨coefficients.map scaled, scaled rhs⟩, factor)

/-- The coefficients of a row for the non-negative variables. -/
def coefficientsFor (cs : List Column) (row : List Rat) : List Rat :=
  cs.map fun c => (row[c.index]?.getD 0) * c.sign

/-- A row of the program over the non-negative variables. -/
def lineOf (cs : List Column) (origin : List Rat) (r : Row Rat) : Line × Int :=
  integral (coefficientsFor cs r.coefficients) (r.rhs - Scalar.dot r.coefficients origin)

/-- The rows that keep variables with two bounds below the upper one. -/
def boundLines (p : Program Rat) (cs : List Column) : List (Line × Int) :=
  (bounds p).zipIdx.filterMap fun (b, j) =>
    match b with
    | (some l, some u) =>
      some (integral (cs.map fun c => if c.index == j then 1 else 0) (u - l))
    | _ => none

/-- A unit vector of a given length. -/
def unitVector (length place : Nat) (value : Int) : List Int :=
  (List.range length).map fun i => if i == place then value else 0

/-- Integers over a common denominator: for every row its basic column, the rows, and the reduced
costs, whose right hand side is minus the cost. -/
structure Tableau where
  basis : List Nat
  rows : List Line
  cost : Line
  denominator : Int

/-- The entry of a line in a column. -/
def Line.at (l : Line) (column : Nat) : Int := l.entries[column]?.getD 0

/-- Clear the pivot column from a line. -/
def Line.eliminate (l pivotLine : Line) (column : Nat) (denominator : Int) : Line :=
  let p := pivotLine.at column
  let f := l.at column
  let step (a b : Int) : Int := (p * a - f * b) / denominator
  ⟨List.zipWith step l.entries pivotLine.entries, step l.rhs pivotLine.rhs⟩

/-- Bring a column into the basis in the place of a row whose entry in it is positive. -/
def Tableau.pivot (t : Tableau) (row column : Nat) : Tableau :=
  match t.rows[row]? with
  | none => t
  | some pivotLine =>
    { basis := t.basis.set row column
      rows := t.rows.zipIdx.map fun (l, i) =>
        if i == row then l else l.eliminate pivotLine column t.denominator
      cost := t.cost.eliminate pivotLine column t.denominator
      denominator := pivotLine.at column }

/-- The first column, of those that may enter, with a negative reduced cost. -/
def Tableau.entering? (t : Tableau) (allowed : Nat) : Option Nat :=
  (t.cost.entries.take allowed).findIdx? (· < 0)

/-- The row whose basic variable is the first to reach zero as the column grows; of several the one
whose basic column is least. -/
def Tableau.leaving? (t : Tableau) (column : Nat) : Option Nat :=
  let candidates := (t.rows.zip t.basis).zipIdx.filter fun e => 0 < e.1.1.at column
  let better (a b : (Line × Nat) × Nat) : Bool :=
    let left := a.1.1.rhs * b.1.1.at column
    let right := b.1.1.rhs * a.1.1.at column
    left < right || (left == right && a.1.2 < b.1.2)
  match candidates with
  | [] => none
  | c :: rest => some (rest.foldl (fun best e => if better e best then e else best) c).2

/-- How a phase ends. -/
inductive Phase where
  | optimal (t : Tableau)
  | unbounded
  | undecided

/-- Pivot steps on the columns that may enter until no reduced cost is negative. -/
def minimise (allowed : Nat) : (fuel : Nat) → Tableau → Phase
  | 0, _ => .undecided
  | fuel + 1, t =>
    match t.entering? allowed with
    | none => .optimal t
    | some column =>
      match t.leaving? column with
      | none => .unbounded
      | some row => minimise allowed fuel (t.pivot row column)

/-- The negative of a line. -/
def Line.neg (l : Line) : Line := ⟨l.entries.map (-·), -l.rhs⟩

/-- Replace a basic artificial variable of value zero, if some column can take its place. -/
def Tableau.dropArtificial (t : Tableau) (allowed row : Nat) : Tableau :=
  match t.basis[row]?, t.rows[row]? with
  | some basic, some l =>
    if basic < allowed then t else
    match (l.entries.take allowed).findIdx? (· != 0) with
    | none => t
    | some column =>
      let l := if l.at column < 0 then l.neg else l
      { t with rows := t.rows.set row l }.pivot row column
  | _, _ => t

/-- Reduced costs of a cost vector for a basis. -/
def Tableau.withCost (t : Tableau) (cost : List Int) : Tableau :=
  let start : Line := ⟨cost.map (· * t.denominator), 0⟩
  let priced (l : Line) (e : Line × Nat) : Line :=
    let c := cost[e.2]?.getD 0
    if c == 0 then l
    else ⟨List.zipWith (fun a b => a - c * b) l.entries e.1.entries, l.rhs - c * e.1.rhs⟩
  { t with cost := (t.rows.zip t.basis).foldl priced start }

/-- A program over non-negative variables, in integers. -/
structure Standard where
  /-- The non-negative variables. -/
  structural : Nat
  /-- The inequalities, then the equations, each with the factor by which it was multiplied. -/
  inequalities : List (Line × Int)
  equations : List (Line × Int)
  cost : List Int
  costUnit : Nat

/-- A program in standard form. -/
def standard (p : Program Rat) : Standard :=
  let cs := columns p
  let origin := offsets p
  let cost := coefficientsFor cs p.cost
  let unit := commonDenominator cost
  { structural := cs.length
    inequalities := p.atMost.map (lineOf cs origin) ++ boundLines p cs
    equations := p.equal.map (lineOf cs origin)
    cost := cost.map (inUnits unit)
    costUnit := unit }

namespace Standard

/-- The columns that may enter a basis: structural and slack variables. -/
def allowed (s : Standard) : Nat := s.structural + s.inequalities.length

/-- The number of rows. -/
def height (s : Standard) : Nat := s.inequalities.length + s.equations.length

/-- The tableau of the first phase. Every row has an artificial variable after the columns that may
enter, first those of the equations; a row whose slack variable is basic does not use it. Since an
artificial variable never enters a basis again, only the equations, whose marginals are read off
there, have a column for it. -/
def initial (s : Standard) : Tableau :=
  let slack (i : Nat) (factor : Int) : List Int :=
    unitVector s.inequalities.length i (if factor < 0 then -1 else 1)
  let upper := s.inequalities.zipIdx.map fun ((l, factor), i) =>
    (⟨l.entries ++ slack i factor ++ List.replicate s.equations.length 0, l.rhs⟩,
      if factor < 0 then s.allowed + s.equations.length + i else s.structural + i)
  let lower := s.equations.zipIdx.map fun ((l, _), i) =>
    (⟨l.entries ++ List.replicate s.inequalities.length 0 ++
        unitVector s.equations.length i 1, l.rhs⟩,
      s.allowed + i)
  let all : List (Line × Nat) := upper ++ lower
  { basis := all.map (·.2)
    rows := all.map (·.1)
    cost := ⟨[], 0⟩
    denominator := 1 }

/-- The cost of the first phase: the sum of the artificial variables. -/
def artificialCost (s : Standard) : List Int :=
  List.replicate s.allowed 0 ++ List.replicate s.height 1

/-- The cost of the second phase. -/
def structuralCost (s : Standard) : List Int :=
  s.cost ++ List.replicate (s.inequalities.length + s.equations.length) 0

/-- At least the number of bases, which bounds the steps of a phase. -/
def fuel (s : Standard) : Nat := Nat.pow 2 (s.allowed + s.height)

end Standard

/-- The value of a column of an optimal tableau. -/
def Tableau.value (t : Tableau) (column : Nat) : Rat :=
  match (t.rows.zip t.basis).find? (·.2 == column) with
  | some (l, _) => (l.rhs : Rat) / t.denominator
  | none => 0

/-- The point of the program for an optimal tableau. -/
def pointOf (p : Program Rat) (t : Tableau) : List Rat :=
  let values := (columns p).zipIdx.map fun (c, k) => (c.index, t.value k * c.sign)
  (offsets p).zipIdx.map fun (origin, j) =>
    values.foldl (fun x v => if v.1 == j then x + v.2 else x) origin

/-- The marginals of the equations: minus the reduced costs of their artificial variables, in the
units of the program. -/
def marginalsOf (s : Standard) (t : Tableau) : List Rat :=
  s.equations.zipIdx.map fun ((_, factor), i) =>
    let reduced := t.cost.at (s.allowed + i)
    (-reduced : Rat) / t.denominator * factor / s.costUnit

/-- The second phase, from a feasible basis. -/
def secondPhase (p : Program Rat) (s : Standard) (t : Tableau) : Outcome Rat :=
  match minimise s.allowed s.fuel (t.withCost s.structuralCost) with
  | .optimal t =>
    let point := pointOf p t
    .optimal point (Scalar.dot p.cost point) (marginalsOf s t)
  | .unbounded => .unbounded
  | .undecided => .undecided

/-- Solve a linear program over the rationals. -/
def solve (p : Program Rat) : Outcome Rat :=
  let s := standard p
  match minimise s.allowed s.fuel (s.initial.withCost s.artificialCost) with
  | .optimal t =>
    if t.cost.rhs < 0 then .infeasible
    else
      secondPhase p s
        ((List.range s.height).foldl (fun t row => t.dropArtificial s.allowed row) t)
  | _ => .undecided

/-- A number of a program as a rational; programs are solved only if all their numbers are
finite. -/
def toRational {α : Type} [Scalar α] (a : α) : Rat := (Scalar.exact a).finite?.getD 0

/-- Solve a linear program over any scalars, as it is within the limits of the library: exactly, and
then rounded. A program that is refused has no point. -/
def solver {α : Type} [Scalar α] : Solver α := fun p =>
  match (p.map toRational).within? Limits.standard with
  | some q => (solve q).map Scalar.ofRat
  | none => .infeasible

end Multistage.Simplex
