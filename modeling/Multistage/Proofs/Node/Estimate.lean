import Multistage.Node
import Multistage.Proofs.Cut.Height
import Mathlib.Data.EReal.Basic

/-!
# The estimate of a node

The installed cuts and the bound of the value term estimate what comes after a node: the estimate is
the largest of them when minimising and the smallest when maximising.

## Main definitions

- `CutModel.estimate`: the tightest of the bound and the heights of the installed cuts.

## Main statements

- `CutModel.estimate_atMost_iff`: the estimate is tight, and nothing tighter is installed.
- `CutModel.estimate_eq_bound`: the estimate of a node without installed cuts.
-/

namespace Multistage

/-- A bound as an extended real number, where one that is not a number is replaced. -/
noncomputable def Extended.toEReal (other : EReal) : Extended ℚ → EReal
  | finite x => ((x : ℝ) : EReal)
  | posInf => ⊤
  | negInf => ⊥
  | nan => other

namespace Sense

/-- The tighter of two estimates: the larger when minimising. -/
noncomputable def tighter : Sense → EReal → EReal → EReal
  | min, a, b => a ⊔ b
  | max, a, b => a ⊓ b

theorem tighter_atMost_iff {sense : Sense} {a b t : EReal} :
    sense.AtMost (sense.tighter a b) t ↔ sense.AtMost a t ∧ sense.AtMost b t := by
  cases sense with
  | min => exact sup_le_iff
  | max => exact le_inf_iff

end Sense

/-- The bound of the value term on the side of the cuts. -/
noncomputable def CutSettings.estimate (s : CutSettings ℚ) : Sense → EReal
  | .min => s.lower.toEReal ⊥
  | .max => s.upper.toEReal ⊤

/-- The better of the bound and the heights of the installed cuts. -/
noncomputable def CutModel.estimate (sense : Sense) (m : CutModel ℚ) (x : Name → ℝ) : EReal :=
  (m.pool.cuts.filter fun c => c.constraint?.isSome).foldr
    (fun c e => sense.tighter (c.value x : ℝ) e) (m.settings.estimate sense)

theorem CutModel.estimate_atMost_iff {sense : Sense} {m : CutModel ℚ} {x : Name → ℝ} {t : EReal} :
    sense.AtMost (m.estimate sense x) t ↔ sense.AtMost (m.settings.estimate sense) t ∧
      ∀ c ∈ m.pool.cuts, c.constraint?.isSome = true →
        sense.AtMost ((c.value x : ℝ) : EReal) t := by
  have folded : ∀ cuts : List (Cut ℚ),
      sense.AtMost (cuts.foldr (fun c e => sense.tighter (c.value x : ℝ) e)
        (m.settings.estimate sense)) t ↔
      sense.AtMost (m.settings.estimate sense) t ∧
        ∀ c ∈ cuts, sense.AtMost ((c.value x : ℝ) : EReal) t := by
    intro cuts
    induction cuts with
    | nil => simp
    | cons c rest ih =>
      rw [List.foldr_cons, Sense.tighter_atMost_iff, ih, List.forall_mem_cons]
      tauto
  unfold CutModel.estimate
  rw [folded]
  simp only [List.mem_filter, and_imp]

/-- Without an installed cut the estimate is the bound. -/
theorem CutModel.estimate_eq_bound {sense : Sense} {m : CutModel ℚ}
    (h : ∀ c ∈ m.pool.cuts, ¬c.constraint?.isSome = true) (x : Name → ℝ) :
    m.estimate sense x = m.settings.estimate sense := by
  have none : (m.pool.cuts.filter fun c => c.constraint?.isSome) = [] := List.filter_eq_nil_iff.2 h
  rw [estimate, none, List.foldr_nil]

end Multistage
