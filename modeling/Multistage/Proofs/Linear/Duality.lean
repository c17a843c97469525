import Mathlib.Algebra.BigOperators.Ring.Finset
import Mathlib.Algebra.Order.BigOperators.Group.Finset
import Mathlib.Data.Real.Basic
import Mathlib.Data.Rat.BigOperators
import Mathlib.Tactic.Linarith
import Mathlib.Tactic.Ring
import Multistage.Linear.Program

/-!
# Duality of linear programs

Multipliers of the rows and of the bounds of a linear program bound its cost from below. A solver is
sound if the multipliers of the equations that it reports belong to multipliers that bound the cost
by the cost of the point that it reports.

## Main definitions

- `Program.Allows`, `Program.Feasible`: the inequalities and bounds hold at a point, and all rows
  do.
- `Program.Multipliers`: multipliers that prove a value to be a lower bound.
- `Solver.Sound`: what is asked of a solver.

## Main statements

- `Program.Multipliers.le_cost`: the bound at a point that violates the equations, which counts with
  the multipliers of the equations.
-/

namespace Multistage

open Finset

/-- The left hand side of a row at a point. -/
noncomputable def Row.value (size : ℕ) (r : Row ℚ) (z : ℕ → ℝ) : ℝ :=
  ∑ j ∈ range size, (r.coefficients.getD j 0 : ℝ) * z j

namespace Program

variable (p : Program ℚ)

/-- The row of an inequality. -/
def inequality (i : ℕ) : Row ℚ := p.atMost.getD i ⟨[], 0⟩

/-- The row of an equation. -/
def equation (k : ℕ) : Row ℚ := p.equal.getD k ⟨[], 0⟩

/-- The lower bound of a variable. -/
def lowerOf (j : ℕ) : Option ℚ := p.lower.getD j none

/-- The upper bound of a variable. -/
def upperOf (j : ℕ) : Option ℚ := p.upper.getD j none

/-- The cost of a point. -/
noncomputable def costAt (z : ℕ → ℝ) : ℝ := ∑ j ∈ range p.size, (p.cost.getD j 0 : ℝ) * z j

/-- Multipliers of the inequalities, of the equations and of the bounds that add up to the cost; the
same sum of the right hand sides and of the bounds is the value. -/
structure Multipliers (value : ℚ) (marginals : List ℚ) (rows lower upper : ℕ → ℚ) : Prop where
  length_eq : marginals.length = p.equal.length
  rows_nonpos : ∀ i, rows i ≤ 0
  lower_nonneg : ∀ j, 0 ≤ lower j
  upper_nonpos : ∀ j, upper j ≤ 0
  lower_eq_zero : ∀ j, p.lowerOf j = none → lower j = 0
  upper_eq_zero : ∀ j, p.upperOf j = none → upper j = 0
  cost_eq : ∀ j < p.size, p.cost.getD j 0 =
    ∑ i ∈ range p.atMost.length, rows i * (p.inequality i).coefficients.getD j 0 +
      ∑ k ∈ range p.equal.length, marginals.getD k 0 * (p.equation k).coefficients.getD j 0 +
      lower j + upper j
  value_eq : value =
    ∑ i ∈ range p.atMost.length, rows i * (p.inequality i).rhs +
      ∑ k ∈ range p.equal.length, marginals.getD k 0 * (p.equation k).rhs +
      ∑ j ∈ range p.size, (lower j * (p.lowerOf j).getD 0 + upper j * (p.upperOf j).getD 0)

/-- The point satisfies the inequalities and lies within the bounds. -/
structure Allows (z : ℕ → ℝ) : Prop where
  atMost_le : ∀ i < p.atMost.length, (p.inequality i).value p.size z ≤ (p.inequality i).rhs
  lower_le : ∀ j < p.size, ∀ l ∈ p.lowerOf j, (l : ℝ) ≤ z j
  le_upper : ∀ j < p.size, ∀ u ∈ p.upperOf j, z j ≤ (u : ℝ)

/-- The point satisfies every row and lies within the bounds. -/
structure Feasible (z : ℕ → ℝ) : Prop extends p.Allows z where
  equal_eq : ∀ k < p.equal.length, (p.equation k).value p.size z = (p.equation k).rhs

variable {p}

namespace Multipliers

variable {value : ℚ} {marginals : List ℚ} {rows lower upper : ℕ → ℚ}

/-- The cost of a point, sorted by the multipliers. -/
theorem costAt_eq (h : p.Multipliers value marginals rows lower upper) (z : ℕ → ℝ) :
    p.costAt z =
      ∑ i ∈ range p.atMost.length, (rows i : ℝ) * (p.inequality i).value p.size z +
        ∑ k ∈ range p.equal.length, (marginals.getD k 0 : ℝ) * (p.equation k).value p.size z +
        ∑ j ∈ range p.size, ((lower j : ℝ) * z j + (upper j : ℝ) * z j) := by
  have exchange : ∀ (n : ℕ) (weight : ℕ → ℚ) (row : ℕ → Row ℚ),
      ∑ i ∈ range n, (weight i : ℝ) * (row i).value p.size z =
        ∑ j ∈ range p.size,
          (∑ i ∈ range n, (weight i : ℝ) * ((row i).coefficients.getD j 0 : ℝ)) * z j := by
    intro n weight row
    simp only [Row.value, mul_sum, sum_mul]
    rw [sum_comm]
    refine sum_congr rfl fun j _ => sum_congr rfl fun i _ => ?_
    ring
  rw [exchange, exchange, ← sum_add_distrib, ← sum_add_distrib, costAt]
  refine sum_congr rfl fun j hj => ?_
  rw [h.cost_eq j (mem_range.1 hj)]
  push_cast
  ring

/-- A multiplier of a bound counts at least as much at a point as at the bound. -/
theorem bound_le (h : p.Multipliers value marginals rows lower upper) {z : ℕ → ℝ}
    (hz : p.Allows z) {j : ℕ} (hj : j < p.size) :
    (lower j : ℝ) * ((p.lowerOf j).getD 0 : ℚ) + (upper j : ℝ) * ((p.upperOf j).getD 0 : ℚ) ≤
      lower j * z j + upper j * z j := by
  have low : (lower j : ℝ) * ((p.lowerOf j).getD 0 : ℚ) ≤ lower j * z j := by
    cases hl : p.lowerOf j with
    | none => rw [h.lower_eq_zero j hl]; simp
    | some l =>
      exact mul_le_mul_of_nonneg_left (hz.lower_le j hj l hl) (Rat.cast_nonneg.2 (h.lower_nonneg j))
  have high : (upper j : ℝ) * ((p.upperOf j).getD 0 : ℚ) ≤ upper j * z j := by
    cases hu : p.upperOf j with
    | none => rw [h.upper_eq_zero j hu]; simp
    | some u =>
      exact mul_le_mul_of_nonpos_left (hz.le_upper j hj u hu) (Rat.cast_nonpos.2 (h.upper_nonpos j))
  exact add_le_add low high

/-- The value bounds the cost from below, also at points that violate the equations: what they miss
counts with the multipliers of the equations. -/
theorem le_costAt (h : p.Multipliers value marginals rows lower upper) {z : ℕ → ℝ}
    (hz : p.Allows z) :
    value + ∑ k ∈ range p.equal.length, (marginals.getD k 0 : ℝ) *
        ((p.equation k).value p.size z - (p.equation k).rhs) ≤ p.costAt z := by
  have inequalities : ∑ i ∈ range p.atMost.length, (rows i : ℝ) * (p.inequality i).rhs ≤
      ∑ i ∈ range p.atMost.length, (rows i : ℝ) * (p.inequality i).value p.size z :=
    sum_le_sum fun i hi => mul_le_mul_of_nonpos_left (hz.atMost_le i (mem_range.1 hi))
      (Rat.cast_nonpos.2 (h.rows_nonpos i))
  have bounds : ∑ j ∈ range p.size, ((lower j : ℝ) * ((p.lowerOf j).getD 0 : ℚ) +
        (upper j : ℝ) * ((p.upperOf j).getD 0 : ℚ)) ≤
      ∑ j ∈ range p.size, ((lower j : ℝ) * z j + (upper j : ℝ) * z j) :=
    sum_le_sum fun j hj => h.bound_le hz (mem_range.1 hj)
  have value_eq : (value : ℝ) =
      ∑ i ∈ range p.atMost.length, (rows i : ℝ) * (p.inequality i).rhs +
        ∑ k ∈ range p.equal.length, (marginals.getD k 0 : ℝ) * (p.equation k).rhs +
        ∑ j ∈ range p.size, ((lower j : ℝ) * ((p.lowerOf j).getD 0 : ℚ) +
          (upper j : ℝ) * ((p.upperOf j).getD 0 : ℚ)) := by
    rw [h.value_eq]
    push_cast
    rfl
  rw [h.costAt_eq z, value_eq]
  simp only [mul_sub, sum_sub_distrib]
  linarith

end Multipliers

end Program

/-- Whenever the solver reports a point it is feasible and has the cost that is reported, and the
marginals that are reported belong to multipliers that prove this cost to be the least. -/
def Solver.Sound (solver : Solver ℚ) : Prop :=
  ∀ (p : Program ℚ) (point : List ℚ) (value : ℚ) (marginals : List ℚ),
    solver p = .optimal point value marginals →
      p.Admits point ∧ value = Scalar.dot p.cost point ∧
        ∃ rows lower upper, p.Multipliers value marginals rows lower upper

end Multistage
