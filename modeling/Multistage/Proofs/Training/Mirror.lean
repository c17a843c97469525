import Multistage.Proofs.Session.Mirror
import Multistage.Training

/-!
# Passes of the other sense

The passes through a model of the other sense follow the same scenarios and leave the same states,
with negative values.

## Main definitions

- `Run.mirror`: the run of the other sense.
- `ForwardResult.mirror`: what a forward pass of the other sense yields.

## Main statements

- `Run.twin_forward`, `Run.twin_backward`: the two passes.
-/

namespace Multistage

open Multistage.Action (Ensures Mirrors Twin)

/-- The run of the other sense. -/
def Run.mirror (r : Run ℚ) : Run ℚ := { r with session := r.session.mirror }

/-- The same path and states, with the negative value. -/
def ForwardResult.mirror (f : ForwardResult ℚ) : ForwardResult ℚ := { f with value := -f.value }

namespace Run

variable {o : Opposites} {β : Type} {h : β → β} {R : β → Prop}

/-- The value terms of all nodes are reserved, and given scenarios run through noise terms that may
be met. -/
def Reserves (o : Opposites) (r : Run ℚ) : Prop := r.session.Reserves o ∧ r.scheme.Meets o

theorem twin_onSession {act act' : Action ℚ (Session ℚ) β}
    (hact : Twin Session.mirror h (Session.Reserves o) R act act') :
    Twin mirror h (Reserves o) R (onSession act) (onSession act') :=
  .focus hact (fun _ => And.left) (fun _ _ hr hs => ⟨hs, hr.2⟩) (fun _ _ => rfl) fun _ _ _ => rfl

theorem twin_readStopwatch (note : Datum ℚ → Action ℚ (Timer ℚ) Unit) :
    Twin mirror id (Reserves o) (fun _ => True) (readStopwatch note) (readStopwatch note) :=
  .bind .get fun _ _ => .bind (.modify (fun _ => id) fun _ _ => rfl) fun _ _ =>
    .elsewhere (.of_final fun _ _ => trivial) (fun _ _ => id) (fun _ _ => rfl) fun _ _ _ => rfl

theorem twin_timed {act act' : Action ℚ (Run ℚ) β} (part : RunSection)
    (hact : Twin mirror h (Reserves o) R act act') :
    Twin mirror h (Reserves o) R (timed part act) (timed part act') :=
  .bind (twin_readStopwatch _) fun _ _ => .tryFinally hact (twin_readStopwatch _)

/-- Runs of both senses are stopped at the same step. -/
theorem twin_heed : Twin mirror id (Reserves o) (fun _ => True) heed heed := by
  refine .bind .get fun r _ => ?_
  rw [show r.mirror.patience = r.patience from rfl]
  split
  · exact .pure (h := id) trivial
  · exact .throw
  · exact .modify (fun _ => id) fun _ _ => rfl

theorem twin_sampleScenario :
    Twin mirror id (Reserves o) (fun s => ∀ v ∈ s.path, o.met v.node v.noise) sampleScenario
      sampleScenario :=
  twin_timed _ (.bind twin_heed fun _ _ => .bind .get fun _ hr =>
    .bind (twin_onSession (Session.twin_sample hr.2)) fun _ hfound =>
      .bind (.modify (fun _ hr => ⟨hr.1, hfound.2⟩) fun _ _ => rfl) fun _ _ =>
        .pure (h := id) hfound.1)

theorem twin_attend {index noise : Datum ℚ} (state : State ℚ) (hnoise : o.met index noise)
    (needsDuals : Bool) :
    Twin mirror Solution.mirror (Reserves o) (fun _ => True)
      (attend o.solver index state noise needsDuals)
      (attend o.opposite index state noise needsDuals) :=
  .bind twin_heed fun _ _ => twin_onSession (Session.twin_solve state hnoise needsDuals)

theorem twin_solve {index noise : Datum ℚ} (state : State ℚ) (hnoise : o.met index noise)
    (needsDuals : Bool) :
    Twin mirror Solution.mirror (Reserves o) (fun _ => True)
      (solve o.solver index state noise needsDuals)
      (solve o.opposite index state noise needsDuals) :=
  twin_timed _ (twin_attend state hnoise needsDuals)

theorem twin_startingStates (index : Datum ℚ) :
    Twin mirror id (Reserves o) (fun _ => True) (startingStates index) (startingStates index) :=
  .bind .get fun _ _ => .ofOption Option.map_id_apply.symm fun _ _ => trivial

theorem twin_addStarting (index : Datum ℚ) (state : State ℚ) :
    Twin mirror id (Reserves o) (fun _ => True) (addStarting index state)
      (addStarting index state) := by
  refine .bind (twin_startingStates index) fun states _ => ?_
  refine .bind (h := id) (R := fun _ => True)
    (.ofExcept (congrFun Except.map_id _).symm fun _ _ => trivial)
    fun distance _ => .bind .get fun r _ => ?_
  exact .ite (fun _ => .modify (fun _ => id) fun _ _ => rfl) fun _ => .pure (h := id) trivial

theorem twin_enteringState (index : Datum ℚ) (state : State ℚ) :
    Twin mirror id (Reserves o) (fun _ => True) (enteringState index state)
      (enteringState index state) := by
  refine .bind (twin_startingStates index) fun states _ => .ite (fun _ => .pure (h := id) trivial)
    fun _ => ?_
  refine .bind (twin_addStarting index state) fun _ _ => .bind (twin_startingStates index)
    fun states _ => ?_
  refine .bind
    (twin_onSession (Session.twin_onDraws (R := fun _ => True) (.of_final fun _ _ => trivial)))
    fun i _ => .bind (.modify (fun _ => id) fun _ _ => rfl) fun _ _ => ?_
  exact .ofOption Option.map_id_apply.symm fun _ _ => trivial

/-- Walks of both senses leave the same states, and collect negative values. -/
theorem twin_follow {path : List (Visit ℚ)} (hpath : ∀ v ∈ path, o.met v.node v.noise)
    (state : State ℚ) (states : List (State ℚ)) (value : ℚ) :
    Twin mirror (Prod.map id (-·)) (Reserves o) (fun _ => True)
      (follow o.solver path state states value) (follow o.opposite path state states (-value)) := by
  induction path generalizing state states value with
  | nil => exact .pure (h := Prod.map id (-·)) (b := (states, value)) trivial
  | cons visit rest ih =>
    obtain ⟨hvisit, hrest⟩ := List.forall_mem_cons.1 hpath
    refine .bind .get fun r _ => .bind (h := Node.mirror) (R := fun _ => True)
      (.ofExcept (Model.node_mirror r.session.model visit.node) fun _ _ => trivial) fun _ _ => ?_
    refine .bind (twin_enteringState visit.node state) fun state _ =>
      .bind (twin_solve state hvisit false) fun s _ => ?_
    have more : -value + s.mirror.stageObjective = -(value + s.stageObjective) := (neg_add ..).symm
    rw [more]
    exact ih hrest _ _ _

/-- Forward passes of both senses. -/
theorem twin_forward :
    Twin mirror ForwardResult.mirror (Reserves o) (fun _ => True) (forward o.solver)
      (forward o.opposite) := by
  refine .bind twin_sampleScenario fun scenario hscenario => .bind .get fun r _ => ?_
  have followed := twin_follow hscenario r.settings.initial [] 0
  rw [neg_zero] at followed
  refine .bind followed fun ⟨states, value⟩ _ => ?_
  have ended : Twin mirror ForwardResult.mirror (Reserves o) (fun _ => True)
      (pure ⟨scenario.path, states, value⟩)
      (pure ⟨scenario.path, states, -value⟩ : Action ℚ (Run ℚ) _) :=
    .pure (h := ForwardResult.mirror) (b := ⟨scenario.path, states, value⟩) trivial
  simp only [Prod.map, id]
  split
  · exact .bind (twin_addStarting _ _) fun _ _ => ended
  · exact ended

theorem twin_refine (index : Datum ℚ) (state : State ℚ) (results : List (ChildSolution ℚ))
    (probabilities : List ℚ) :
    Twin mirror id (Reserves o) (fun _ => True) (refine index state results probabilities)
      (refine index state (results.map ChildSolution.mirror) probabilities) := by
  have measured : Twin mirror id (Reserves o) (fun _ => True) (measureOf index) (measureOf index) :=
    .bind .get fun _ _ => .ofOption Option.map_id_apply.symm fun _ _ => trivial
  refine .bind twin_heed fun _ _ => .bind measured fun measure _ => .bind .get fun r _ => ?_
  have duals : (results.map ChildSolution.mirror).map (·.solution.duals) =
      (results.map (·.solution.duals)).map fun d => d.mapValues fun _ a => -a := by
    rw [List.map_map, List.map_map]
    rfl
  rw [duals, Session.objectives_mirror]
  exact twin_onSession
    (Session.twin_onModel (Model.twin_onNode fun _ _ => Node.twin_refine measure _ _ _))

/-- The refinements of a visited node and of the nodes that are similar to it. -/
theorem twin_refineAt (index : Datum ℚ) (state : State ℚ) :
    Twin mirror id (Reserves o) (fun _ => True) (refineAt o.solver index state)
      (refineAt o.opposite index state) := by
  refine .bind .get fun r _ => .bind (h := Node.mirror) (R := fun _ => True)
    (.ofExcept (Model.node_mirror r.session.model index) fun _ _ => trivial) fun n _ => ?_
  refine .ite (fun _ => .pure (h := id) trivial) fun _ => ?_
  refine .bind (Session.twin_solveChildren n.children (fun _ hr => ⟨hr.1, rfl⟩)
    fun child noise hnoise => twin_solve state hnoise true) fun results _ => ?_
  rw [Session.probabilities_mirror]
  refine .bind (twin_refine index state results _) fun _ _ => .bind .get fun r _ => ?_
  refine .ite (fun _ => ?_) fun _ => .pure (h := id) trivial
  refine .bind (h := id) (R := fun _ => True)
    (.ofOption Option.map_id_apply.symm fun _ _ => trivial)
    fun others _ => .forM fun other _ => ?_
  have probabilities : probabilitiesAt r.settings other (results.map ChildSolution.mirror) =
      probabilitiesAt r.settings other results := by
    unfold probabilitiesAt
    rw [List.map_map]
    rfl
  rw [show r.mirror.settings = r.settings from rfl, probabilities]
  exact twin_refine other state results _

/-- Backward passes of both senses. -/
theorem twin_backward (path : List (Visit ℚ)) (states : List (State ℚ)) :
    Twin mirror id (Reserves o) (fun _ => True) (backward o.solver path states)
      (backward o.opposite path states) :=
  .forM fun place _ => .bind (h := id) (R := fun _ => True)
    (.ofOption Option.map_id_apply.symm fun _ _ => trivial) fun state _ =>
      twin_refineAt place.1.node state

/-- The bound of a run of the other sense is the negative bound. -/
theorem twin_bound (measure : Measure ℚ) :
    Twin mirror (-·) (Reserves o) (fun _ => True) (bound o.solver measure)
      (bound o.opposite measure) := by
  refine .bind .get fun r _ => ?_
  have computed := Session.twin_boundBy (o := o) (g := mirror) (I := Reserves o)
    (·.session.model) measure (fun _ hr => ⟨hr.1, rfl⟩)
    fun child noise hnoise => twin_attend r.session.model.initial hnoise true
  exact .bind computed fun value _ => .bind twin_heed fun _ _ => .pure (h := (-·)) trivial

end Run

end Multistage
