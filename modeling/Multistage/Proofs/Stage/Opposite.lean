import Multistage.Proofs.Stage.Declaring
import Multistage.Proofs.Stage.Mirror

/-!
# Building stages of the other sense

The plan of a stage can be turned to the other sense: its objective is negated, and so are the
objectives that the noise assigns. What it describes is the stage with negated objectives, before a
value term is added to it.

## Main definitions

- `StagePlan.mirror`: the plan of the other sense.
- `Stage.negated`: the stage with negated objectives.

## Main statements

- `Stage.build_mirror`: the stage that the plan of the other sense describes.
-/

namespace Multistage

/-- The plan of the other sense. -/
def StagePlan.mirror (plan : StagePlan ℚ) : StagePlan ℚ :=
  { plan with objective := plan.objective.map Formula.neg, edits := plan.edits.map Edit.mirror }

namespace Stage

open Multistage.Action (Ensures Mirrors Triple Twin)

/-- The stage with negated objectives. -/
def negated (s : Stage ℚ) : Stage ℚ :=
  { s with objective := s.objective.negated, edits := s.edits.map Edit.mirror }

variable {s t : Stage ℚ} {β : Type} {R : β → Prop} {plan : StagePlan ℚ}

theorem negated_empty (index : Datum ℚ) (owner : ℕ) :
    (empty index owner : Stage ℚ).negated = empty index owner := by
  have zero : (Operand.datum (.real 0) : Operand ℚ).negated = .datum (.real 0) :=
    congrArg (fun x : ℚ => Operand.datum (.real x)) neg_zero
  simp only [negated, empty, zero, List.map_nil]

/-! ### Declarations that do not see the objectives -/

theorem negates_onSubproblem (act : Action ℚ (Subproblem ℚ) β) :
    Twin negated id (fun _ => True) (fun _ => True) (onSubproblem act) (onSubproblem act) :=
  .elsewhere (.of_final fun _ _ => trivial) (fun _ _ => id) (fun _ _ => rfl) fun _ _ _ => rfl

theorem negates_addState (name : Name) (initial : Except (Failure ℚ) ℚ)
    (lower upper : Except (Failure ℚ) (Extended ℚ)) :
    Twin negated id (fun _ => True) (fun _ => True) (addState name initial lower upper)
      (addState name initial lower upper) := by
  unfold addState
  refine .when (h := id) (R := fun _ => True) (b := ()) (fun _ => .throw) (fun _ => trivial)
    fun _ _ => ?_
  refine .bind .get fun s _ => ?_
  refine .when (h := id) (R := fun _ => True) (b := ()) (fun _ => .throw) (fun _ => trivial)
    fun _ _ => ?_
  refine .bind (negates_onSubproblem _) fun incoming _ => .bind (negates_onSubproblem _)
    fun outgoing _ =>
    .bind (negates_onSubproblem _) fun _ _ => .bind (.modify (fun _ => id) fun _ _ => rfl)
      fun _ _ => ?_
  exact .bind (h := id) (R := fun _ => True)
    (.ofExcept (congrFun Except.map_id _).symm fun _ _ => trivial)
    fun x _ => .modify (fun _ => id) fun _ _ => rfl

theorem negates_evaluate (f : Formula ℚ) (noise : Datum ℚ) :
    Twin negated id (fun _ => True) (fun _ => True) (evaluate f noise) (evaluate f noise) :=
  .bind .get fun _ _ => .ofExcept (congrFun Except.map_id _).symm fun _ _ => trivial

theorem negates_declareConstraint (plan : ConstraintPlan ℚ) :
    Twin negated id (fun _ => True) (fun _ => True) (declareConstraint plan)
      (declareConstraint plan) := by
  refine .bind (negates_evaluate _ _) fun lhs _ => .bind (negates_evaluate _ _) fun rhs _ => ?_
  refine .bind (h := id) (R := fun _ => True)
    (.ofExcept (congrFun Except.map_id _).symm fun _ _ => trivial)
    fun relation _ => .bind .get fun s _ => ?_
  refine .bind (h := id) (R := fun _ => True)
    (.ofExcept (congrFun Except.map_id _).symm fun _ _ => trivial)
    fun left _ => ?_
  refine .bind (h := id) (R := fun _ => True)
    (.ofExcept (congrFun Except.map_id _).symm fun _ _ => trivial)
    fun right _ => ?_
  exact .bind (negates_onSubproblem _) fun _ _ => .pure (h := id) trivial

theorem negates_parameterize (realizations : List (Datum ℚ))
    (probabilities : Option (List (Datum ℚ))) (edits : List (Edit ℚ)) :
    Twin negated id (fun _ => True) (fun _ => True) (parameterize realizations probabilities edits)
      (parameterize realizations probabilities (edits.map Edit.mirror)) := by
  refine .bind .get fun s _ => ?_
  refine .when (h := id) (R := fun _ => True) (b := ()) (fun _ => .throw) (fun _ => trivial)
    fun _ _ => ?_
  refine .bind (h := id) (R := fun _ => True)
    (.ofExcept (congrFun Except.map_id _).symm fun _ _ => trivial)
    fun ps _ => ?_
  refine .bind (h := id) (R := fun _ => True)
    (.ofExcept (congrFun Except.map_id _).symm fun _ _ => trivial)
    fun sum _ => ?_
  refine .when (h := id) (R := fun _ => True) (b := ()) (fun _ => .throw) (fun _ => trivial)
    fun _ _ => ?_
  exact .bind (h := id) (R := fun _ => True)
    (.ofExcept (congrFun Except.map_id _).symm fun _ _ => trivial)
    fun ps _ => .modify (fun _ => id) fun _ _ => rfl

/-! ### Plans -/

/-- What is declared before the objective. -/
def declareProgram (plan : StagePlan ℚ) : Action ℚ (Stage ℚ) Unit := do
  plan.states.forM fun s =>
    addState s.name s.initial.toScalar (Datum.bound .negInf s.lower?) (Datum.bound .posInf s.upper?)
  plan.decisions.forM fun v => discard (onSubproblem (Subproblem.addVariable v.name
    (Datum.bound .negInf v.lower?) (Datum.bound .posInf v.upper?)))
  plan.constraints.forM declareConstraint

/-- The declaration of the objective. -/
def declareObjective (plan : StagePlan ℚ) : Action ℚ (Stage ℚ) Unit :=
  match plan.objective with
  | some formula => do setObjective (← evaluate formula .null)
  | none => pure ()

theorem declare_eq (plan : StagePlan ℚ) : declare plan = (do
    declareProgram plan
    declareObjective plan
    plan.noise.forM fun n => parameterize n.1 n.2 plan.edits) := by
  unfold declare declareProgram declareObjective
  cases plan.objective <;> simp only [bind_assoc, pure_bind]

theorem negates_declareProgram (plan : StagePlan ℚ) :
    Twin negated id (fun _ => True) (fun _ => True) (declareProgram plan)
      (declareProgram plan.mirror) :=
  .bind (.forM fun _ _ => negates_addState _ _ _ _) fun _ _ =>
    .bind (.forM fun _ _ => .bind (negates_onSubproblem _) fun _ _ => .pure (h := id) trivial)
      fun _ _ =>
      .forM fun c _ => negates_declareConstraint c

theorem evaluate_eq_ok {f : Formula ℚ} {noise : Datum ℚ} {o : Operand ℚ} :
    evaluate f noise s = .ok o t ↔ f.eval (s.scope noise) = .ok o ∧ t = s := by
  show Action.ofExcept (f.eval (s.scope noise)) s = .ok o t ↔ _
  cases f.eval (s.scope noise) with
  | error e => exact ⟨nofun, fun h => nomatch h.1⟩
  | ok o' =>
    constructor
    · intro h
      cases h
      exact ⟨rfl, rfl⟩
    · rintro ⟨h, rfl⟩
      cases h
      rfl

/-- An objective that has a negative is declared as its negative. -/
theorem declareObjective_mirror (h : declareObjective plan s = .ok () t)
    (ht : t.objective.Negatable) :
    declareObjective plan.mirror s.negated = .ok () t.negated := by
  unfold declareObjective at h ⊢
  cases hp : plan.objective with
  | none =>
    rw [hp] at h
    cases h
    simp only [StagePlan.mirror, hp, Option.map_none]
    rfl
  | some formula =>
    rw [hp] at h
    obtain ⟨o, u, ho, h⟩ := Action.bind_eq_ok.1 h
    cases h
    obtain ⟨hv, rfl⟩ := evaluate_eq_ok.1 ho
    simp only [StagePlan.mirror, hp, Option.map_some]
    refine Action.bind_eq_ok.2 ⟨o.negated, u.negated, evaluate_eq_ok.2 ⟨?_, rfl⟩, rfl⟩
    exact Except.bind_eq_ok.2 ⟨o, hv, ht.neg_eq⟩

/-- The plan of the other sense describes the stage with negated objectives. -/
theorem build_mirror {index : Datum ℚ} {owner : ℕ} (h : build index owner plan = .ok s)
    (hs : s.objective.Negatable) : build index owner plan.mirror = .ok s.negated := by
  unfold build at h
  split at h
  next _ u hrun =>
    obtain ⟨_, declared, hdeclared, hrest⟩ :=
      Action.bind_eq_ok.1 ((congrFun (declare_eq plan) _).symm.trans hrun)
    obtain ⟨_, objected, hobjected, hnoise⟩ := Action.bind_eq_ok.1 hrest
    have kept : Ensures (fun s : Stage ℚ => s.objective = objected.objective)
        (plan.noise.forM fun n => parameterize n.1 n.2 plan.edits) fun _ => True :=
      .forM fun n _ => ensures_parameterize (fun _ _ _ => id) n.1 n.2 plan.edits
    have objective : s.objective = objected.objective := by
      refine Eq.trans ?_ (kept.ok rfl hnoise).1
      cases h
      split <;> rfl
    have mirrored : declare plan.mirror (empty index owner) = .ok () u.negated := by
      rw [declare_eq]
      refine Action.bind_eq_ok.2
        ⟨(), declared.negated, ?_, Action.bind_eq_ok.2 ⟨(), objected.negated, ?_, ?_⟩⟩
      · rw [← negated_empty, (negates_declareProgram plan).mirrors _ trivial, hdeclared]
        rfl
      · exact declareObjective_mirror hobjected (objective ▸ hs)
      · have noted : Twin negated id (fun _ => True) (fun _ => True)
            (plan.noise.forM fun n => parameterize n.1 n.2 plan.edits)
            (plan.noise.forM fun n => parameterize n.1 n.2 (plan.edits.map Edit.mirror)) :=
          .forM fun n _ => negates_parameterize n.1 n.2 plan.edits
        show (plan.noise.forM fun n => parameterize n.1 n.2 (plan.edits.map Edit.mirror))
            objected.negated = _
        rw [noted.mirrors _ trivial, hnoise]
        rfl
    unfold build
    rw [mirrored]
    cases h
    cases hn : u.noise.isEmpty <;> simp only [negated, hn] <;> rfl
  next => cases h

end Stage

end Multistage
