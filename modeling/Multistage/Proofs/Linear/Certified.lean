import Mathlib.Data.List.GetD
import Multistage.Proofs.Linear.Duality
import Multistage.Stage

/-!
# Solvers that check

A feasible point with multipliers of the rows can be checked: what the rows leave of the cost must
be made up for by the bounds, and the value must be the cost of the point. A solver that only
reports what passes this check is sound, wherever its points and multipliers come from.

## Main definitions

- `Certificate`, `Program.Accepts`: a point with multipliers, and the check.
- `Solver.certified`: the solver that reports what passes.
- `carrying`, `carryingSolver`: a small stage and a solver for it.

## Main statements

- `Solver.sound_certified`: the solver is sound.
-/

namespace Multistage

open Finset

/-- A point with multipliers of the inequalities and of the equations. -/
structure Certificate where
  point : List ℚ
  rows : List ℚ
  marginals : List ℚ

namespace Program

variable (p : Program ℚ) (c : Certificate)

/-- What the rows leave of the cost of a variable. -/
def reducedCost (j : ℕ) : ℚ :=
  p.cost.getD j 0 -
    (∑ i ∈ range p.atMost.length, c.rows.getD i 0 * (p.inequality i).coefficients.getD j 0 +
      ∑ k ∈ range p.equal.length, c.marginals.getD k 0 * (p.equation k).coefficients.getD j 0)

/-- The point is feasible, the multipliers have the right signs, a reduced cost that is not zero
meets a bound, and the multipliers prove the cost of the point to be the least. -/
def Accepts : Prop :=
  (c.point.length = p.size ∧ (∀ r ∈ p.atMost, Scalar.dot r.coefficients c.point ≤ r.rhs) ∧
    (∀ r ∈ p.equal, Scalar.dot r.coefficients c.point = r.rhs) ∧
    (∀ b ∈ p.lower.zip c.point, ∀ l ∈ b.1, l ≤ b.2) ∧
      ∀ b ∈ p.upper.zip c.point, ∀ u ∈ b.1, b.2 ≤ u) ∧
  c.marginals.length = p.equal.length ∧ (∀ y ∈ c.rows, y ≤ 0) ∧
  (∀ j < p.size, (p.lowerOf j = none → p.reducedCost c j ≤ 0) ∧
    (p.upperOf j = none → 0 ≤ p.reducedCost c j)) ∧
  Scalar.dot p.cost c.point =
    ∑ i ∈ range p.atMost.length, c.rows.getD i 0 * (p.inequality i).rhs +
      ∑ k ∈ range p.equal.length, c.marginals.getD k 0 * (p.equation k).rhs +
      ∑ j ∈ range p.size, (max (p.reducedCost c j) 0 * (p.lowerOf j).getD 0 +
        min (p.reducedCost c j) 0 * (p.upperOf j).getD 0)

instance : Decidable (p.Accepts c) := by
  unfold Accepts
  infer_instance

variable {p c}

/-- An accepted certificate has multipliers of the bounds. -/
theorem Accepts.multipliers (h : p.Accepts c) :
    p.Multipliers (Scalar.dot p.cost c.point) c.marginals (fun i => c.rows.getD i 0)
      (fun j => if j < p.size then max (p.reducedCost c j) 0 else 0)
      fun j => if j < p.size then min (p.reducedCost c j) 0 else 0 := by
  obtain ⟨-, hlength, hrows, hbounds, hvalue⟩ := h
  refine ⟨hlength, fun i => ?_, fun j => ?_, fun j => ?_, fun j hj => ?_, fun j hj => ?_,
    fun j hj => ?_, ?_⟩
  · rcases Nat.lt_or_ge i c.rows.length with hi | hi
    · rw [List.getD_eq_getElem _ _ hi]
      exact hrows _ (List.getElem_mem hi)
    · rw [List.getD_eq_default _ _ hi]
  · split
    · exact le_max_right _ _
    · exact le_rfl
  · split
    · exact min_le_right _ _
    · exact le_rfl
  · split
    next hlt => exact max_eq_right ((hbounds j hlt).1 hj)
    next => rfl
  · split
    next hlt => exact min_eq_right ((hbounds j hlt).2 hj)
    next => rfl
  · simp only [if_pos hj]
    have parts := max_add_min (p.reducedCost c j) 0
    rw [add_zero] at parts
    rw [add_assoc _ (max _ _), parts, reducedCost]
    ring
  · rw [hvalue]
    refine congrArg _ (sum_congr rfl fun j hj => ?_)
    simp only [if_pos (mem_range.1 hj)]

end Program

/-- Report what is guessed, if it passes the check. -/
def Solver.certified (guess : Program ℚ → Certificate) : Solver ℚ := fun p =>
  if p.Accepts (guess p) then
    .optimal (guess p).point (Scalar.dot p.cost (guess p).point) (guess p).marginals
  else .undecided

/-- What passes the check is optimal. -/
theorem Solver.sound_certified (guess : Program ℚ → Certificate) : (certified guess).Sound := by
  intro p point value marginals h
  unfold certified at h
  split at h
  next haccepts =>
    cases h
    obtain ⟨hlength, hatMost, hequal, hlower, hupper⟩ := haccepts.1
    exact ⟨⟨hlength, hatMost, hequal, hlower, hupper⟩, rfl, _, _, _, haccepts.multipliers⟩
  next => cases h

/-! ### A stage that carries its state over -/

/-- A stage that carries one state over and costs at least so much. -/
def carrying (cost : ℤ) : StagePlan ℚ where
  states := [⟨⟨.text "x", some (.int 0), some (.int 10)⟩, .int 1⟩]
  decisions := [⟨.text "y", some (.int cost), none⟩]
  constraints := [⟨.name "x.out", .text "==", .name "x.in", .null⟩]
  objective := some (.name "y")

/-- What solves such stages from the state one: the least cost, and for what follows the height of
the first cut, which does not depend on the state. -/
def carryingSolver : Solver ℚ :=
  .certified fun p => ⟨[1, 1, (p.lowerOf 2).getD 0, -(p.inequality 0).rhs], [-1], [0, 0]⟩

end Multistage
