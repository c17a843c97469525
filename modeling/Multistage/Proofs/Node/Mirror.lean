import Multistage.Proofs.Cut.Mirror
import Multistage.Proofs.Node.NewCut
import Multistage.Proofs.Node.Solve
import Multistage.Proofs.Stage.Mirror

/-!
# Nodes of the other sense

If the objectives of a node, its cuts and the bounds of its value term are negated, and the sense is
turned round, the value term takes the negative values. Solving, refining and pruning such a node is
what it was for the node, with negated values, duals and cuts.

## Main definitions

- `Node.mirror`, `Solution.mirror`: the node of the other sense, and its solutions.
- `Node.Reserves`: the value term of the node is reserved.

## Main statements

- `Node.twin_solve`, `Node.twin_refine`, `Node.twin_prune`: what is done to the node of the other
  sense.
-/

namespace Multistage

/-- The settings of the other sense: the bounds are exchanged and negated. -/
def CutSettings.mirror (s : CutSettings ℚ) : CutSettings ℚ :=
    ⟨s.upper.neg, s.lower.neg, s.improvement⟩

/-- The cut model of the other sense. -/
def CutModel.mirror (m : CutModel ℚ) : CutModel ℚ := ⟨m.settings.mirror, m.term, m.pool.mirror⟩

/-- The node of the other sense. -/
def Node.mirror (n : Node ℚ) : Node ℚ :=
  { n with stage := n.stage.mirror n.cuts.term.index, cuts := n.cuts.mirror }

/-- The same state is left, with negated values and duals. -/
def Solution.mirror (s : Solution ℚ) : Solution ℚ where
  outgoing := s.outgoing
  duals := s.duals.mapValues fun _ d => -d
  stageObjective := -s.stageObjective
  objective := -s.objective

theorem Sense.cutRelation_flip (sense : Sense) :
    sense.flip.cutRelation = sense.cutRelation.flip := by
  cases sense <;> rfl

namespace Node

open Multistage.Action (Mirrors Triple Twin)

/-- The value term of the node is reserved. -/
structure Reserves (met : Datum ℚ → Prop) (r : Reserve) (n : Node ℚ) : Prop where
  stage : n.stage.Reserves met r
  term_eq : n.cuts.term = r.term

variable {met : Datum ℚ → Prop} {r : Reserve} {n : Node ℚ} {β : Type} {h : β → β} {R : β → Prop}
  {sense : Sense} {state : State ℚ} {noise : Datum ℚ} {solver solver' : Solver ℚ}

/-! ### Parts of a node -/

theorem stage_mirror (hn : n.Reserves met r) : n.mirror.stage = n.stage.mirror r.term.index := by
  rw [mirror, hn.term_eq]

/-- Actions that are twins on stages are twins on nodes. -/
theorem twin_onStage {act act' : Action ℚ (Stage ℚ) β}
    (hact : Twin (Stage.mirror r.term.index) h (Stage.Reserves met r) R act act') :
    Twin mirror h (Reserves met r) R (onStage act) (onStage act') := by
  refine .focus hact (fun _ hn => hn.stage) (fun n s hn hs => ⟨hs, hn.term_eq⟩)
    (fun n hn => stage_mirror hn) fun n s hn => ?_
  simp only [mirror, hn.term_eq]

theorem twin_onSubproblem {act act' : Action ℚ (Subproblem ℚ) β}
    (hact : ∀ installed, Twin (Subproblem.mirror r.term.index) h
      (Subproblem.Reserves r installed) R act act') :
    Twin mirror h (Reserves met r) R (onSubproblem act) (onSubproblem act') :=
  twin_onStage (Stage.twin_onSubproblem hact)

theorem twin_onPool {act act' : Action ℚ (CutPool ℚ ℚ) β}
    (hact : Mirrors CutPool.mirror h (fun _ => True) act act') :
    Twin mirror h (Reserves met r) (fun _ => True) (onPool act) (onPool act') :=
  .focus hact.twin (fun _ _ => trivial) (fun _ _ hn _ => ⟨hn.stage, hn.term_eq⟩) (fun _ _ => rfl)
    fun _ _ _ => rfl

/-! ### Posing -/

/-- Both nodes are put in the same state. -/
theorem twin_setIncoming :
    Twin mirror id (Reserves met r) (fun _ => True) (setIncoming state) (setIncoming state) := by
  refine .bind .get fun n hn => .forM fun e he => ?_
  refine .bind (h := id) (R := fun _ => True)
    (.ofOption Option.map_id_apply.symm fun _ _ => trivial)
    fun value _ => ?_
  refine .bind (h := id) (R := fun _ => True)
    (.ofExcept (congrFun Except.map_id _).symm fun _ _ => trivial)
    fun x _ => ?_
  exact twin_onSubproblem fun _ => Subproblem.twin_fix (ne_of_lt (hn.stage.copies e he).1.2) x

/-- The node with its objective installed. -/
def withObjective (sense : Sense) (e : Affine ℚ) (n : Node ℚ) : Node ℚ :=
  { n with stage := { n.stage with
      objectiveInstalled := true
      subproblem := { n.stage.subproblem with
        sense := sense
        objective := e.add (Affine.ofVariable n.cuts.term) } } }

/-- An affine objective is installed as it is. -/
theorem installObjective_eq {e : Affine ℚ}
    (he : ∀ describe, n.stage.objective.toAffine describe = .ok e) :
    installObjective sense n = .ok () (n.withObjective sense e) := by
  obtain ⟨_, n', hrun, describe, e', he', rfl⟩ :=
    ((triple_installObjective n).consequence (fun _ => id) (fun _ _ => id)
      fun n' hn' => (hn'.1 (fun _ => .datum .null) e (he _) : False)).exists_ok rfl
  obtain rfl : e = e' := Except.ok.inj ((he describe).symm.trans he')
  exact hrun

theorem Reserves.withObjective (hn : n.Reserves met r) (sense : Sense) (e : Affine ℚ) :
    (n.withObjective sense e).Reserves met r where
  stage := { hn.stage with
    subproblem := { hn.stage.subproblem with
      mentions := fun _ => List.any_eq_true.2 ⟨n.cuts.term,
        Affine.mem_keys_add.2 (.inr (List.mem_singleton.2 rfl)),
        beq_iff_eq.2 (congrArg Variable.index hn.term_eq)⟩ } }
  term_eq := hn.term_eq

/-- The negative objective is installed in the other sense. -/
theorem withObjective_mirror (hn : n.Reserves met r) (sense : Sense) {e : Affine ℚ}
    (he : ∀ v ∈ e.terms.keys, v.index ≠ r.term.index) :
    n.mirror.withObjective sense.flip e.neg = (n.withObjective sense e).mirror := by
  have mentions := (hn.withObjective sense e).stage.subproblem.mentions rfl
  have objective : e.neg.add (Affine.ofVariable r.term) =
      (e.add (Affine.ofVariable r.term)).mirror r.term.index := by
    rw [← Affine.add_mirror, Affine.mirror_eq_neg he, Affine.mirror_ofVariable]
  simp only [Node.withObjective, hn.term_eq] at mentions
  simp only [Node.withObjective, mirror, CutModel.mirror, hn.term_eq, Stage.mirror,
    Subproblem.mirror,
    mentions, if_true, objective]

/-- A solve up to its program. -/
theorem pose_mirror (hnoise : met noise) :
    Triple (Reserves met r) (pose sense state noise)
        (fun _ n => n.Reserves met r ∧ n.stage.objectiveInstalled = true) (Reserves met r) ∧
      Mirrors mirror id (Reserves met r) (pose sense state noise)
        (pose sense.flip state noise) := by
  have fixed :
      Twin mirror id (Reserves met r) (fun _ => True) (setIncoming state) (setIncoming state) :=
    twin_setIncoming
  have noted : Twin mirror id (Reserves met r) (fun _ => True) (onStage (Stage.applyNoise noise))
      (onStage (Stage.applyNoise noise)) := twin_onStage (Stage.twin_applyNoise hnoise)
  -- an objective that has a negative is affine, so that it can be installed
  have affine : ∀ n : Node ℚ, n.Reserves met r → ∃ e : Affine ℚ,
      (∀ v ∈ e.terms.keys, v.index ≠ r.term.index) ∧
      installObjective sense n = .ok () (n.withObjective sense e) ∧
      installObjective sense.flip n.mirror = .ok () (n.mirror.withObjective sense.flip e.neg) := by
    intro n hn
    obtain ⟨e, he, hneg⟩ := hn.stage.negatable.toAffine
    refine ⟨e, fun v hv => ne_of_lt ?_, installObjective_eq he, installObjective_eq hneg⟩
    exact (hn.stage.objective.toAffine (he fun _ => .datum .null) v hv).2
  constructor
  · refine .bind fixed.keeps fun _ => .of_forall fun n hn => ?_
    refine .bind (noted.keeps.startingAt hn.1) fun _ => .get_bind fun n hn => ?_
    refine .ite (fun _ => ?_) fun hinstalled => .pure ?_
    · rintro _ rfl
      obtain ⟨e, -, hrun, -⟩ := affine _ hn.1
      rw [hrun]
      exact ⟨hn.1.withObjective sense e, rfl⟩
    · rintro _ rfl
      exact ⟨hn.1, by simpa using hinstalled⟩
  · refine .bind fixed.mirrors fixed.keeps fun _ => .bind (noted.mirrors.weaken fun _ hn => hn.1)
      (noted.keeps.consequence (fun _ hn => hn.1) (fun _ _ => id) fun _ => id) fun _ => ?_
    refine .get_bind fun n hn => .ite (fun _ => ?_) fun _ => .pure (h := id)
    rintro _ rfl
    obtain ⟨e, he, hrun, hrun'⟩ := affine _ hn.1
    rw [hrun, hrun', withObjective_mirror hn.1 sense he]
    rfl

/-! ### Solving -/

/-- Both nodes leave the same state. -/
theorem outgoing_mirror (hn : n.Reserves met r) : n.mirror.outgoing = n.outgoing := by
  refine congrArg (· >>= _) (Except.mapM_congr fun e he => ?_)
  have spared : e.2.outgoing.index ≠ r.term.index := ne_of_lt (hn.stage.copies e he).2.2
  rw [stage_mirror hn]
  show (do
    let value ← (n.stage.subproblem.mirror r.term.index).valueOf (Affine.ofVariable e.2.outgoing)
    let value :=
      clampAbove (← (n.stage.subproblem.mirror r.term.index).upperBound e.2.outgoing) value
    return (e.1,
      clampBelow (← (n.stage.subproblem.mirror r.term.index).lowerBound e.2.outgoing) value)) = _
  rw [Subproblem.valueOf_mirror fun v hv => by rwa [List.mem_singleton.1 hv],
    Subproblem.upperBound_mirror spared, Subproblem.lowerBound_mirror spared]

/-- The duals of the incoming state are negative. -/
theorem incomingDuals_mirror (n : Node ℚ) :
    n.mirror.incomingDuals = n.incomingDuals.map fun duals => duals.mapValues fun _ d => -d := by
  refine Except.bind_image (h := List.map fun e : Name × ℚ => (e.1, -e.2))
    (Except.mapM_image fun e _ => ?_) fun _ _ => rfl
  exact Except.bind_image (Subproblem.fixedDual_mirror e.2.incoming) fun _ _ => rfl

/-- Both nodes read what the solver found up to the sign. -/
theorem twin_conclude (hsolver : solver.Reflects solver' r.term.index) (needsDuals : Bool) :
    Twin mirror Solution.mirror (fun n => n.Reserves met r ∧ n.stage.objectiveInstalled = true)
      (fun _ => True) (conclude solver needsDuals) (conclude solver' needsDuals) := by
  have optimized : Twin mirror id (fun n => n.Reserves met r ∧ n.stage.objectiveInstalled = true)
      (fun _ => True) (onSubproblem (Subproblem.optimize solver))
      (onSubproblem (Subproblem.optimize solver')) := by
    refine .focus (J := fun s => s.Reserves met r ∧ s.objectiveInstalled = true)
      (f := Stage.mirror r.term.index) ?_ (fun n hn => ⟨hn.1.stage, hn.2⟩)
      (fun n s hn hs => ⟨⟨hs.1, hn.1.term_eq⟩, hs.2⟩) (fun n hn => stage_mirror hn.1)
      fun n s hn => ?_
    · refine .focus (Subproblem.twin_optimize hsolver) (fun s hs => ?_) (fun s p hs hp => ?_)
        (fun _ _ => rfl) fun _ _ _ => rfl
      · exact { hs.1.subproblem with mentions := fun _ => hs.1.subproblem.mentions hs.2 }
      · exact ⟨hs.1.withSubproblem { hp with mentions := fun _ => hp.mentions trivial }, hs.2⟩
    · simp only [mirror, hn.1.term_eq]
  refine .bind optimized fun _ _ => .bind .get fun n hn => ?_
  refine .when (h := id) (R := fun _ => True) (b := ()) (fun _ => .throw) (fun _ => trivial)
    fun _ _ => ?_
  refine .bind (h := fun duals : State ℚ => duals.mapValues fun _ d => -d) (R := fun _ => True)
    (.ofExcept ?_ fun _ _ => trivial) fun duals _ => ?_
  · cases needsDuals with
    | true => exact incomingDuals_mirror n
    | false => rfl
  refine .bind (h := id) (R := fun _ => True) (.ofExcept ((outgoing_mirror hn.1).trans
    (congrFun Except.map_id _).symm) fun _ _ => trivial) fun outgoing _ => ?_
  refine .bind (h := fun x : ℚ => -x) (R := fun _ => True) (.ofExcept ?_ fun _ _ => trivial)
    fun stageObjective _ => ?_
  · rw [stage_mirror hn.1]
    exact Stage.objectiveValue_mirror hn.1.stage
  exact .bind (h := fun x : ℚ => -x) (R := fun _ => True) (.ofOption rfl fun _ _ => trivial)
    fun objective _ => .pure (h := Solution.mirror)
      (b := ⟨outgoing, duals, stageObjective, objective⟩) trivial

/-- Solves of a node and of the node of the other sense. -/
theorem twin_solve (hsolver : solver.Reflects solver' r.term.index) (hnoise : met noise)
    (needsDuals : Bool) :
    Twin mirror Solution.mirror (Reserves met r) (fun _ => True)
      (solve solver sense state noise needsDuals)
      (solve solver' sense.flip state noise needsDuals) := by
  rw [solve_eq, solve_eq]
  obtain ⟨htriple, hmirrors⟩ : _ ∧ Mirrors mirror id (Reserves met r) (pose sense state noise)
    (pose sense.flip state noise) := pose_mirror hnoise
  have concluded :
      Twin mirror _ (fun n => n.Reserves met r ∧ n.stage.objectiveInstalled = true) _ _ _ :=
    twin_conclude hsolver needsDuals
  refine ⟨Triple.bind htriple fun _ => ?_, .bind hmirrors htriple fun _ => concluded.mirrors⟩
  exact concluded.keeps.consequence (fun _ => id) (fun _ _ ht => ⟨ht.1.1, trivial⟩) fun _ ht => ht.1

/-! ### New cuts -/

/-- The weighted sum of negative rows is the negative sum. -/
theorem weightedSum_neg (size : ℕ) (q : List ℚ) (rows : List (List ℚ)) :
    weightedSum size q (rows.map (List.map (-·))) = (weightedSum size q rows).map (-·) := by
  unfold weightedSum
  rw [List.map_map]
  refine List.map_congr_left fun k _ => ?_
  have column : (rows.map (List.map (-·))).map (fun row => row[k]?.getD 0) =
      (rows.map fun row => row[k]?.getD 0).map (-·) := by
    rw [List.map_map, List.map_map]
    refine List.map_congr_left fun row _ => ?_
    simp only [Function.comp, List.getElem?_map]
    cases row[k]? with
    | none => exact neg_zero.symm
    | some x => rfl
  rw [column]
  exact Scalar.dot_neg q _

/-- The average cut of negative rows and objectives is the mirrored cut. -/
theorem averageCut_mirror (q : List ℚ) (state : State ℚ) (rows : List (List ℚ))
    (objectives : List ℚ) :
    averageCut q state (rows.map (List.map (-·))) (objectives.map (-·)) =
      (averageCut q state rows objectives).map fun c => (c.1.mirror, -c.2) := by
  unfold averageCut
  rw [List.length_map, List.length_map]
  split
  · rfl
  · simp only [Scalar.dotInLanes_eq_dot, weightedSum_neg, Scalar.dot_neg]
    have coefficients : Dict.ofList (state.keys.zip ((weightedSum state.size q rows).map (-·))) =
        (Dict.ofList (state.keys.zip (weightedSum state.size q rows))).mapValues fun _ a => -a := by
      rw [Dict.mapValues_ofList fun _ _ _ _ => rfl, List.zip_map_right]
      rfl
    rw [Scalar.neg_dot, coefficients]
    refine congrArg (fun c : Cut ℚ => Except.ok (c, -Scalar.dot q objectives)) ?_
    simp only [Cut.mirror, Cut.mk.injEq, and_true]
    ring

/-- The new cut of the other sense is the negative cut. -/
theorem newCut_mirror (measure : Measure ℚ) (state : State ℚ) (duals : List (State ℚ))
    (probabilities objectives : List ℚ) :
    newCut sense.flip measure state (duals.map fun d => d.mapValues fun _ a => -a) probabilities
        (objectives.map (-·)) =
      (newCut sense measure state duals probabilities objectives).map fun c =>
      (c.1.mirror, -c.2) := by
  unfold newCut
  rw [Measure.adjust_flip, readDuals_eq, readDuals_eq]
  refine Except.bind_image (h := id) (congrFun Except.map_id _).symm fun q _ => ?_
  refine Except.bind_image (h := List.map (List.map (-·))) ?_ fun rows _ =>
    averageCut_mirror q state rows objectives
  rw [List.mapM_map]
  refine Except.mapM_image fun d _ => Except.mapM_image fun name _ => ?_
  simp only [Dict.get?_mapValues fun a : ℚ => -a]
  cases d.get? name <;> rfl

/-- A cut is an improvement iff the mirrored one is. -/
theorem isImprovement_mirror (n : Node ℚ) (height : ℚ) :
    n.mirror.isImprovement (-height) = n.isImprovement height := by
  unfold isImprovement
  have optimum : n.mirror.stage.subproblem.optimum? = n.stage.subproblem.optimum?.map (-·) := rfl
  rw [optimum]
  cases n.stage.subproblem.optimum? with
  | none => rfl
  | some value =>
    have gap : Scalar.abs (-value - -height) = Scalar.abs (value - height) := by
      rw [Scalar.abs_rat, Scalar.abs_rat, neg_sub_neg, abs_sub_comm]
    simp only [Option.map_some, gap, Scalar.isNumber_rat]
    rfl

/-! ### Installing cuts -/

/-- The expression of the mirrored cut is the mirrored expression. -/
theorem cutExpression_mirror (hn : n.Reserves met r) (c : Cut ℚ) :
    n.mirror.cutExpression c.mirror = (n.cutExpression c).map (Affine.mirror r.term.index) := by
  unfold cutExpression
  refine Except.bind_image (h := Affine.mirror r.term.index) ?_ fun slope _ => congrArg Except.ok ?_
  · have zero : (Affine.ofScalar 0 : Affine ℚ) = (Affine.ofScalar 0).mirror r.term.index := by
      simp [Affine.ofScalar, Affine.mirror, Dict.mapValues, Dict.empty]
    rw [zero]
    refine Except.foldlM_image (fun e s hs => ?_) _
    simp only [Cut.mirror, Dict.get?_mapValues fun a : ℚ => -a]
    cases c.coefficients.get? s.1 with
    | none => rfl
    | some a =>
      have spared : ∀ v ∈ ((Affine.ofVariable s.2.outgoing).scale a).terms.keys,
          v.index ≠ r.term.index := by
        intro v hv
        rw [Affine.mem_keys_scale] at hv
        rw [List.mem_singleton.1 hv]
        exact ne_of_lt (hn.stage.copies s hs).2.2
      refine congrArg Except.ok ?_
      rw [← Affine.add_mirror, Affine.mirror_eq_neg spared]
      refine congrArg _ ?_
      simp [Affine.scale, Affine.neg, Affine.ofVariable, Dict.mapValues]
  · show (Affine.ofVariable n.cuts.term).sub _ =
        ((Affine.ofVariable n.cuts.term).sub slope).mirror _
    rw [← Affine.sub_mirror, hn.term_eq, Affine.mirror_ofVariable]

/-- The constraint of the mirrored cut, in the other sense, is the mirrored constraint. -/
theorem cutConstraint_mirror (hn : n.Reserves met r) (c : Cut ℚ) :
    n.mirror.cutConstraint sense.flip c.mirror =
      (n.cutConstraint sense c).map (Constraint.mirror r.term.index) := by
  refine Except.bind_image (cutExpression_mirror hn c) fun e he => ?_
  obtain ⟨slope, -, he⟩ := Except.bind_eq_ok.1 he
  cases he
  rw [stage_mirror hn, Sense.cutRelation_flip]
  refine Subproblem.constraintOf_mirror ⟨n.cuts.term, ?_, congrArg Variable.index hn.term_eq⟩ _ _
  exact Affine.mem_keys_add.2 (.inl (List.mem_singleton.2 rfl))

theorem relation_cutConstraint {c : Cut ℚ} {k : Constraint ℚ}
    (hk : n.cutConstraint sense c = .ok k) :
    k.relation ≠ .equal := by
  obtain ⟨e, -, hk⟩ := Except.bind_eq_ok.1 hk
  obtain ⟨coefficients, -, hk⟩ := Except.bind_eq_ok.1 hk
  cases hk
  cases sense <;> exact nofun

theorem twin_install (c : Cut ℚ) :
    Twin mirror Cut.mirror (Reserves met r) (fun _ => True) (install sense c)
      (install sense.flip c.mirror) := by
  refine ⟨.of_forall fun n hn => (triple_install sense c n).consequence (fun _ => id) ?_ ?_, ?_⟩
  · rintro _ _ ⟨k, hk, -, rfl⟩
    have pushed := hn.stage.subproblem.pushConstraint (relation_cutConstraint hk)
    exact ⟨⟨hn.stage.withSubproblem pushed, hn.term_eq⟩, trivial⟩
  · rintro _ ⟨rfl, -⟩
    exact hn
  · intro n hn
    rw [install_eq, install_eq, cutConstraint_mirror hn]
    cases n.cutConstraint sense c with
    | error e => rfl
    | ok k =>
      have count : n.mirror.stage.subproblem.constraints.length =
          n.stage.subproblem.constraints.length := List.length_map ..
      simp only [Except.map, Action.imageOf, count]
      refine congrArg (EStateM.Result.ok _) ?_
      simp only [withSubproblem, mirror, hn.term_eq, Stage.mirror, Subproblem.pushConstraint_mirror]

theorem twin_reinstall (place : ℕ) :
    Twin mirror id (Reserves met r) (fun _ => True) (reinstall sense place)
      (reinstall sense.flip place) := by
  refine .bind .get fun n hn => ?_
  have cuts : n.mirror.cuts.pool.cuts[place]? = (n.cuts.pool.cuts[place]?).map Cut.mirror :=
    List.getElem?_map ..
  simp only [cuts]
  cases n.cuts.pool.cuts[place]? with
  | none => exact .pure (h := id) trivial
  | some c =>
    refine .ite (fun _ => .bind (twin_install c) fun c _ => twin_onPool (.modify fun pool _ => ?_))
      fun _ => .pure (h := id) trivial
    simp only [CutPool.mirror, List.map_set]
    rfl

/-- The mirrored cut is recorded, and installed iff the cut is. -/
theorem twin_addCut (state given : State ℚ) (c : Cut ℚ) (height : ℚ) :
    Twin mirror id (Reserves met r) (fun _ => True) (addCut sense state given c height)
      (addCut sense.flip state given c.mirror (-height)) := by
  have added : ∀ c : Cut ℚ, Twin mirror id (Reserves met r) (fun _ => True)
      (do onPool (CutPool.add sense c state given)
          (List.range (← get).cuts.pool.cuts.length).forM (reinstall sense))
      (do onPool (CutPool.add sense.flip c.mirror state given)
          (List.range (← get).cuts.pool.cuts.length).forM (reinstall sense.flip)) := by
    refine fun c => .bind (twin_onPool (CutPool.mirrors_add c state given)) fun _ _ =>
      .bind .get fun n _ => ?_
    have count : n.mirror.cuts.pool.cuts.length = n.cuts.pool.cuts.length := List.length_map ..
    rw [count]
    exact .forM fun place _ => twin_reinstall place
  refine .bind .get fun n _ => ?_
  rw [isImprovement_mirror]
  exact .when (fun _ => twin_install c) (fun _ => trivial) fun c _ => added c

/-- Refining a node and the node of the other sense with the solutions of the children. -/
theorem twin_refine (measure : Measure ℚ) (duals : List (State ℚ))
    (probabilities objectives : List ℚ) :
    Twin mirror id (Reserves met r) (fun _ => True)
      (refine sense measure state duals probabilities objectives)
      (refine sense.flip measure state (duals.map fun d => d.mapValues fun _ a => -a) probabilities
        (objectives.map (-·))) := by
  rw [refine_eq, refine_eq]
  exact .bind (R := fun _ => True)
    (.ofExcept (newCut_mirror measure state duals probabilities objectives)
    fun _ _ => trivial) fun c _ => twin_addCut state state c.1 c.2

/-! ### Pruning -/

theorem twin_pruneCut (place : ℕ) :
    Twin mirror id (Reserves met r) (fun _ => True) (pruneCut place) (pruneCut place) := by
  refine .bind .get fun n hn => ?_
  have cuts : n.mirror.cuts.pool.cuts[place]? = (n.cuts.pool.cuts[place]?).map Cut.mirror :=
    List.getElem?_map ..
  simp only [cuts]
  cases n.cuts.pool.cuts[place]? with
  | none => exact .pure (h := id) trivial
  | some c =>
    simp only [Option.map_some, Cut.mirror]
    cases c.constraint? with
    | none => exact .pure (h := id) trivial
    | some i =>
      refine .ite (fun _ => ?_) fun _ => .pure (h := id) trivial
      refine .bind (twin_onSubproblem fun _ => Subproblem.twin_deactivate i) fun _ _ => ?_
      refine .bind (twin_onPool (.modify fun pool _ => ?_)) fun _ _ => .pure (h := id) trivial
      simp only [CutPool.mirror, List.map_set]
      rfl

/-- Pruning a node and the node of the other sense takes out the same cuts. -/
theorem twin_prune : Twin mirror id (Reserves met r) (fun _ => True) prune prune := by
  refine .bind .get fun n _ => ?_
  have count : n.mirror.cuts.pool.cuts.length = n.cuts.pool.cuts.length := List.length_map ..
  rw [count]
  refine .bind (.mapM fun place _ => twin_pruneCut place) fun pruned _ => ?_
  rw [List.map_id]
  exact .pure (h := id) trivial

end Node

end Multistage
