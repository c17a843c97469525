import Multistage.Proofs.Model.Throughout
import Multistage.Proofs.Node.Independence
import Multistage.Proofs.Session.Related

/-!
# Models that echo each other

Two models echo each other if whatever is solved in one is solved in the other with the same
solution, or fails in both, and they go on doing so. A model does so with itself. So do two models
that were built alike and used in different ways, as long as the same cuts are installed in them and
the objectives of the same stages: an objective that cannot be installed counts as installed once
this has failed.

## Main definitions

- `Model.Echo`: a relation of models that solves keep, with the same solutions.

## Main statements

- `Model.Lockstep.echo`, `Model.echo_paired`: the two kinds.
- `Model.related_paired`: models that were operated and have the same installed cuts.
-/

namespace Multistage

open Multistage.Action (Parallel)

/-- Solves keep a relation of models that declare the same, with the same solutions or with failures
in a relation. -/
structure Model.Echo {α : Type} [Scalar α] (solver : Solver α) (K : Model α → Model α → Prop)
    (F : Failure α → Failure α → Prop) : Prop where
  refl : ∀ e, F e e
  declaration : ∀ {m m'}, K m m' → m'.declaration = m.declaration
  solve : ∀ index (state : State α) noise needsDuals,
    let act := Model.solve solver index state noise needsDuals
    Parallel K act act (fun s s' m m' => s = s' ∧ K m m') fun e e' m m' => F e e' ∧ K m m'

/-- Models that do the same echo each other. -/
theorem Model.Lockstep.echo {α : Type} [Scalar α] {solver : Solver α}
    {K : Set (Datum α) → Model α → Model α → Prop} {F : Failure α → Failure α → Prop}
    (h : Model.Lockstep solver K F) : Model.Echo solver (K ∅) F where
  refl := h.refl
  declaration := h.declaration
  solve index state noise needsDuals :=
    (h.solve ∅ index state noise needsDuals).consequence (fun _ _ => id)
      (fun _ _ m m' hm => ⟨hm.1, h.hereditary (Set.empty_subset _) m m' hm.2⟩) fun _ _ _ _ => id

/-! ### Models with the same cuts -/

namespace Model

variable {m₀ : Model ℚ} {solver : Solver ℚ}

/-- Models with the same cuts echo each other, whatever they were used for. -/
theorem echo_paired (hblank : ∀ index start, m₀.nodes.get? index = some start → start.Blank)
    (hsolver : solver.IgnoresOrder) :
    Echo solver (m₀.Related fun _ => Node.Paired m₀.sense) Failure.Alike where
  refl := .refl
  declaration h := h.right.trans h.left.symm
  solve index state noise needsDuals := by
    refine Parallel.get_bind fun m m' h => ?_
    rw [sense_of_declaration_eq h.left, sense_of_declaration_eq h.right]
    refine h.parallel_onNode .refl (fun _ _ _ _ => id) (fun _ _ _ _ _ => id)
      fun start n n' hs hn => ?_
    refine (hn.parallel_solve hsolver (hblank index start hs) state noise needsDuals).consequence
      (fun _ _ => id)
      ?_ ?_
    · rintro answer answer' r r' ⟨ha, -, hr, -⟩
      exact ⟨ha, hr.left.declaration.trans hn.left.declaration.symm,
        hr.right.declaration.trans hn.right.declaration.symm, fun _ _ => hr⟩
    · rintro e e' r r' ⟨he, hr, -⟩
      exact ⟨he, hr.left.declaration.trans hn.left.declaration.symm,
        hr.right.declaration.trans hn.right.declaration.symm, fun _ _ => hr⟩

end Model

/-! ### Histories -/

/-- Whatever was done to a node, its installed cuts have constraints of their own. -/
theorem Node.Operating.seated {solver : Solver ℚ} {sense : Sense} {start n : Node ℚ}
    (hb : start.Blank) (h : Operating solver sense start n) : Seated sense n := by
  induction h with
  | start => exact seated_of_blank hb
  | refined before measure x duals probabilities objectives ih =>
    exact (seated_refine _ _ _ _ _).final ih
  | pruned before ih => exact seated_prune.final ih
  | @solved n before x noise needsDuals ih =>
    have used := (before.used_backed hb).1
    have solved :
        Action.Triple (· = n) (solve solver sense x noise needsDuals) (fun _ => Seated sense)
        (Seated sense) :=
      (triple_solve hb used needsDuals).consequence (fun _ => id)
        (fun _ _ h => ih.of_sameCuts used h.1.1 h.1.2) fun _ h => ih.of_sameCuts used h.1 h.2
    exact solved.final rfl

/-- Two models that were operated have related nodes if the same cuts are installed in them. Where
the objective of a stage cannot be installed, both must have tried or neither. -/
theorem Model.related_paired {solver : Solver ℚ} {m₀ m m' : Model ℚ}
    (hblank : ∀ index start, m₀.nodes.get? index = some start → start.Blank)
    (h : m₀.Throughout (fun _ start n => Node.Operating solver m₀.sense start n) m)
    (h' : m₀.Throughout (fun _ start n => Node.Operating solver m₀.sense start n) m')
    (hcuts : ∀ index n n', m.nodes.get? index = some n → m'.nodes.get? index = some n' →
      n'.installed.Perm n.installed)
    (hobjectives : ∀ index start n n',
      m₀.nodes.get? index = some start → m.nodes.get? index = some n →
      m'.nodes.get? index = some n' → ¬start.Poses →
        n'.stage.objectiveInstalled = n.stage.objectiveInstalled) :
    m₀.Related (fun _ => Node.Paired m₀.sense) m m' := by
  refine ⟨h.declaration, h'.declaration, fun index start n n' hs hn hn' => ?_⟩
  have hb := hblank index start hs
  have operated := h.node index start n hs hn
  have operated' := h'.node index start n' hs hn'
  obtain ⟨used, backed⟩ := operated.used_backed hb
  obtain ⟨used', backed'⟩ := operated'.used_backed hb
  exact ⟨used, used', backed,
    Node.later_perm used used' backed backed' (operated.seated hb) (operated'.seated hb)
    (hcuts index n n' hn hn'), hobjectives index start n n' hs hn hn'⟩

end Multistage
