import Multistage.Proofs.Action
import Multistage.Stage

/-!
# What declarations keep

A declaration of a stage changes the subproblem, the states, the objective or the noise, and nothing
else, also if it fails. So it keeps what does not depend on what it changes.

## Main statements

- `Stage.ensures_addState`, `Stage.ensures_parameterize`: single declarations.
- `Stage.ensures_declare`: the declaration of a plan.
-/

namespace Multistage

namespace Stage

open Multistage.Action (Ensures)

variable {α : Type} [Scalar α] {I : Stage α → Prop}

omit [Scalar α] in
theorem ensures_onSubproblem {β : Type} (hsubproblem : ∀ s p, I s → I { s with subproblem := p })
    (act : Action α (Subproblem α) β) : Ensures I (onSubproblem act) fun _ => True :=
  .elsewhere act hsubproblem

theorem ensures_evaluate (f : Formula α) (noise : Datum α) :
    Ensures I (evaluate f noise) fun _ => True := .bind .get fun _ _ => .ofExcept fun _ _ => trivial

omit [Scalar α] in
theorem ensures_addState (hsubproblem : ∀ s p, I s → I { s with subproblem := p })
    (hstates : ∀ s states initial, I s → I { s with states := states, initial := initial })
    (name : Name) (initial : Except (Failure α) α) (lower upper : Except (Failure α) (Extended α)) :
    Ensures I (addState name initial lower upper) fun _ => True := by
  unfold addState
  refine .when (R := fun _ => True) (b := ()) (fun _ => .throw) (fun _ => trivial) fun _ _ => ?_
  refine .bind .get fun s _ => ?_
  refine .when (R := fun _ => True) (b := ()) (fun _ => .throw) (fun _ => trivial) fun _ _ => ?_
  refine .bind (ensures_onSubproblem hsubproblem _) fun incoming _ =>
    .bind (ensures_onSubproblem hsubproblem _) fun outgoing _ =>
      .bind (ensures_onSubproblem hsubproblem _) fun _ _ => ?_
  refine .bind (.modify fun s hs => hstates s _ s.initial hs) fun _ _ => ?_
  exact .bind (.ofExcept (R := fun _ => True) fun _ _ => trivial) fun x _ =>
    .modify fun s hs => hstates s s.states _ hs

theorem ensures_declareConstraint (hsubproblem : ∀ s p, I s → I { s with subproblem := p })
    (plan : ConstraintPlan α) : Ensures I (declareConstraint plan) fun _ => True := by
  refine .bind (ensures_evaluate _ _) fun lhs _ => .bind (ensures_evaluate _ _) fun rhs _ => ?_
  refine .bind (.ofExcept (R := fun _ => True) fun _ _ => trivial) fun relation _ =>
    .bind .get fun s _ => ?_
  refine .bind (.ofExcept (R := fun _ => True) fun _ _ => trivial) fun left _ => ?_
  refine .bind (.ofExcept (R := fun _ => True) fun _ _ => trivial) fun right _ => ?_
  exact .bind (ensures_onSubproblem hsubproblem _) fun _ _ => .pure trivial

theorem ensures_parameterize
    (hnoise : ∀ s noise edits, I s → I { s with noise := noise, edits := edits })
    (realizations : List (Datum α)) (probabilities : Option (List (Datum α)))
    (edits : List (Edit α)) :
    Ensures I (parameterize realizations probabilities edits) fun _ => True := by
  refine .bind .get fun s _ =>
    .when (R := fun _ => True) (b := ()) (fun _ => .throw) (fun _ => trivial)
    fun _ _ => ?_
  refine .bind (.ofExcept (R := fun _ => True) fun _ _ => trivial) fun ps _ => ?_
  refine .bind (.ofExcept (R := fun _ => True) fun _ _ => trivial) fun sum _ => ?_
  refine .when (R := fun _ => True) (b := ()) (fun _ => .throw) (fun _ => trivial) fun _ _ => ?_
  exact .bind (.ofExcept (R := fun _ => True) fun _ _ => trivial) fun _ _ => .modify fun s hs =>
    hnoise s _ _ hs

/-- The declaration of a plan keeps what all its parts keep. -/
theorem ensures_declare (hsubproblem : ∀ s p, I s → I { s with subproblem := p })
    (hstates : ∀ s states initial, I s → I { s with states := states, initial := initial })
    (hobjective : ∀ s o, I s → I { s with objective := o, objectiveInstalled := false })
    (hnoise : ∀ realizations probabilities edits,
      Ensures I (parameterize realizations probabilities edits) fun _ => True)
    (plan : StagePlan α) : Ensures I (declare plan) fun _ => True := by
  have noted : Ensures I (plan.noise.forM fun n => parameterize n.1 n.2 plan.edits) fun _ => True :=
    .forM fun n _ => hnoise n.1 n.2 plan.edits
  refine .bind (.forM fun s _ => ensures_addState hsubproblem hstates _ _ _ _) fun _ _ => ?_
  refine .bind
    (.forM fun v _ => .bind (ensures_onSubproblem hsubproblem _) fun _ _ => .pure trivial)
    fun _ _ => .bind (.forM fun c _ => ensures_declareConstraint hsubproblem c) fun _ _ => ?_
  split
  · exact .bind (ensures_evaluate _ _) fun o _ => .bind (.modify fun s hs => hobjective s o hs)
      fun _ _ => noted
  · exact noted

end Stage

end Multistage
