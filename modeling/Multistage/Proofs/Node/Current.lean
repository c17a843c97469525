import Multistage.Proofs.Linear.Certified
import Multistage.Proofs.Model.Throughout
import Multistage.Proofs.Stage.Declaring

/-!
# The objective that is installed

A stage notes whether its objective was installed. It is noted before the installation, which fails
if the objective is not affine, so that such an objective passes for installed from then on. In
every other case the note is right: what is installed is the objective of the stage plus the value
term, and what a solve finds is optimal for that.

## Main definitions

- `Node.Operation`, `Node.afterOperations`: operations on a node, and where they lead, whether they
  fail or not.
- `Node.Current`: the subproblem has the objective of the stage plus the value term.

## Main statements

- `Node.used_afterOperations`: what operations leave of a node that was built.
- `Session.objective_current`: the objective that is installed, and what solves find.
-/

namespace Multistage

namespace Stage

/-- While a stage is declared nothing is installed, also if the declaration fails. -/
theorem notInstalled_declare (plan : StagePlan ℚ) :
    Action.Ensures (fun s => s.objectiveInstalled = false) (declare plan) fun _ => True :=
  ensures_declare (fun _ _ => id) (fun _ _ _ => id) (fun _ _ _ => rfl)
    (ensures_parameterize fun _ _ _ => id) plan

end Stage

namespace Node

/-- An operation on a node. -/
inductive Operation where
  | refine (measure : Measure ℚ) (state : State ℚ) (duals : List (State ℚ))
    (probabilities objectives : List ℚ)
  | prune
  | applyNoise (noise : Datum ℚ)
  | solve (state : State ℚ) (noise : Datum ℚ) (needsDuals : Bool)

/-- The node after an operation, whether it fails or not. -/
def afterOperation (solver : Solver ℚ) (sense : Sense) (n : Node ℚ) : Operation → Node ℚ
  | .refine measure state duals probabilities objectives =>
    (refine sense measure state duals probabilities objectives).final n
  | .prune => prune.final n
  | .applyNoise noise => (onStage (Stage.applyNoise noise)).final n
  | .solve state noise needsDuals => (solve solver sense state noise needsDuals).final n

/-- The node after operations. -/
def afterOperations (solver : Solver ℚ) (sense : Sense) (n : Node ℚ)
    (operations : List Operation) : Node ℚ :=
  operations.foldl (afterOperation solver sense) n

/-- The subproblem of the node has the sense and the objective of the stage plus the value term, if
that is affine. -/
def Current (sense : Sense) (n : Node ℚ) : Prop :=
  ∀ describe e, n.stage.objective.toAffine describe = .ok e → n.stage.subproblem.sense = sense ∧
    n.stage.subproblem.objective = e.add (Affine.ofVariable n.cuts.term)

variable {solver : Solver ℚ} {sense : Sense} {start n n' m : Node ℚ} {x : State ℚ} {noise : Datum ℚ}
  {needsDuals : Bool} {answer : Solution ℚ}

theorem used_applyNoise (hb : start.Blank) :
    Action.Ensures (Used sense start []) (onStage (Stage.applyNoise noise)) fun _ => True := by
  refine .of_forall fun n hn => (Action.Triple.focus (Stage.triple_applyNoise hn.distinct
    (hn.rowsExist hb))).consequence (fun _ => id) ?_ ?_
  · rintro _ _ ⟨s, rfl, hframe, -, as, has, hs⟩
    refine ⟨(hn.withStage hb hframe fun f hf => ?_).1, trivial⟩
    rw [hs, overwrite_of_notMem (mt (Stage.mem_fields_iff has).1 hf)]
  · rintro _ ⟨s, rfl, hframe, hs⟩
    exact (hn.withStage hb hframe hs).1

/-- An operation leaves of a node that was built what use leaves of it. -/
theorem used_afterOperation (hb : start.Blank) (h : Used sense start [] n) (operation : Operation) :
    Used sense start [] (n.afterOperation solver sense operation) := by
  cases operation with
  | refine measure state duals probabilities objectives => exact (used_refine _ _ _ _ _).final h
  | prune => exact used_prune.final h
  | applyNoise noise => exact (used_applyNoise hb).final h
  | solve state noise needsDuals =>
    have solved : Action.Ensures (Used sense start []) (solve solver sense state noise needsDuals)
        fun _ => True :=
          .of_forall fun n hn => (triple_solve hb hn needsDuals).consequence (fun _ => id)
      (fun _ _ h => ⟨h.1.1, trivial⟩) fun _ h => h.1
    exact solved.final h

theorem used_afterOperations (hb : start.Blank) (operations : List Operation)
    (h : Used sense start [] n) :
    Used sense start [] (n.afterOperations solver sense operations) := by
  induction operations generalizing n with
  | nil => exact h
  | cons operation rest ih => exact ih (used_afterOperation hb h operation)

/-- What passes for installed is the objective of the stage plus the value term. -/
theorem Used.current (h : Used sense start [] n) (hinstalled : n.stage.objectiveInstalled = true) :
    n.Current sense := fun describe e he => h.term_eq ▸ h.objective hinstalled describe e he

/-- A solve that answers solved the program with the objective of the stage plus the value term, if
that is affine, and its optimal value is the sum of both at the point that it found. -/
theorem Used.current_solve (hb : start.Blank) (h : Used sense start [] n)
    (hrun : solve solver sense x noise needsDuals n = .ok answer n') :
    n'.Current sense ∧ (solver.Sound → ∀ describe e, n'.stage.objective.toAffine describe = .ok e →
      ∃ theta : ℚ, n'.stage.subproblem.valueOf (Affine.ofVariable n'.cuts.term) = .ok theta ∧
        answer.objective = answer.stageObjective + theta ∧
        ∀ z, n'.stage.subproblem.Admits (fun _ => False) z →
          (∀ f ∈ n'.stage.subproblem.fixed.entries, z f.1 = f.2) →
            sense.AtMost (answer.objective : ℝ) (e.value z + z n'.cuts.term.index)) := by
  obtain ⟨-, m, ready, -, solved⟩ := (triple_solve hb h needsDuals).ok rfl hrun
  obtain ⟨program, -, hoptimize⟩ := Subproblem.optimize_eq_ok solved.optimize
  have left : n' = m.withSubproblem (m.stage.subproblem.withOutcome (solver program)) :=
    solved.node_eq.trans (congrArg m.withSubproblem hoptimize)
  have stage_eq : n'.stage.objective = m.stage.objective := by rw [left]; rfl
  have term_eq : n'.cuts.term = start.cuts.term := by rw [left]; exact ready.term_eq
  have posed :
      ∀ o : Outcome ℚ, (m.stage.subproblem.withOutcome o).sense = m.stage.subproblem.sense ∧
      (m.stage.subproblem.withOutcome o).objective = m.stage.subproblem.objective := fun o => by
    cases o <;> exact ⟨rfl, rfl⟩
  have current : n'.Current sense := by
    intro describe e he
    obtain ⟨hsense, hobjective⟩ := ready.posed_of_toAffine (stage_eq ▸ he)
    rw [hoptimize, (posed _).1, (posed _).2, term_eq]
    exact ⟨hsense, hobjective⟩
  refine ⟨current, fun hsolver describe e he => ?_⟩
  have he' : m.stage.objective.toAffine describe = .ok e := stage_eq ▸ he
  obtain ⟨hsense, hobjective⟩ := ready.posed_of_toAffine he'
  obtain ⟨point, hpoint, hlength, -, -, hvalue, hbest⟩ := ready.exists_point hsolver hb solved
  obtain ⟨theta, htheta⟩ : ∃ theta, n'.stage.subproblem.valueOf (Affine.ofVariable n'.cuts.term) =
      .ok theta := by
    refine Subproblem.exists_valueOf hpoint fun v hv => ?_
    rw [List.mem_singleton.1 hv, term_eq, hlength, ready.names_eq, left]
    refine ⟨hb.term_owner.trans ?_, hb.term_lt⟩
    rw [← ready.owner_eq]
    cases solver program <;> rfl
  have at_point := Subproblem.cast_valueOf hpoint htheta
  rw [Affine.value_ofVariable, term_eq] at at_point
  have split :
      ∀ z, m.stage.subproblem.objective.value z = e.value z + z start.cuts.term.index := fun z => by
    rw [hobjective, Affine.value_add, Affine.value_ofVariable]
  refine ⟨theta, htheta, Rat.cast_injective (α := ℝ) ?_, fun z hz hfixed => ?_⟩
  · rw [Rat.cast_add, hvalue, split, stageObjective_eq he' solved hpoint, at_point]
  · rw [term_eq, ← split, ← hsense]
    rw [hoptimize] at hz hfixed
    refine hbest z ?_ ?_
    · cases ho : solver program <;> rw [ho] at hz <;> exact ⟨hz.holds, hz.lower_le, hz.le_upper⟩
    · cases ho : solver program <;> rw [ho] at hfixed <;> exact hfixed

end Node

namespace Session

/-- In every state that a node comes to, while its stage is declared, by calls of a session and by
operations on the node, failing ones included: if the objective passes for installed, the subproblem
has the objective of the stage plus the value term, or the objective of the stage is not affine. A
solve that answers has optimised that sum, if the objective is affine, and with a sound solver the
optimal value is the sum of the objective of the stage and of the value term at the point that was
found. Only an installation that fails makes an objective pass for installed that is not. -/
theorem objective_current {graph : Graph ℚ} {settings : CutSettings ℚ} {sense : Datum ℚ}
    {plans : StagePlans ℚ} {m : Model ℚ} (hm : Model.build graph settings sense plans = .ok m)
    {solver : Solver ℚ} {draws : Draws ℚ} {clock stopwatch : Clock (Datum ℚ)}
    (calls : List (Call ℚ)) {index : Datum ℚ} {k n : Node ℚ}
    (hk : (afterAll solver ⟨m, draws, clock, stopwatch⟩ calls).model.nodes.get? index = some k)
    (operations : List Node.Operation) (hn : n = k.afterOperations solver m.sense operations) :
    (∀ plan owner,
      ((Stage.declare plan).final (Stage.empty index owner)).objectiveInstalled = false) ∧
    (n.stage.objectiveInstalled = true → n.Current m.sense) ∧
    (∀ x noise needsDuals answer n',
      Node.solve solver m.sense (x : State ℚ) noise needsDuals n = .ok answer n' →
        n'.Current m.sense ∧
        (solver.Sound → ∀ describe e, n'.stage.objective.toAffine describe = .ok e →
          ∃ theta : ℚ, n'.stage.subproblem.valueOf (Affine.ofVariable n'.cuts.term) = .ok theta ∧
            answer.objective = answer.stageObjective + theta ∧
            ∀ z, n'.stage.subproblem.Admits (fun _ => False) z →
              (∀ f ∈ n'.stage.subproblem.fixed.entries, z f.1 = f.2) →
                m.sense.AtMost (answer.objective : ℝ) (e.value z + z n'.cuts.term.index))) ∧
    ∀ cause n', Node.installObjective m.sense n = .error cause n' →
      (∀ describe e, n.stage.objective.toAffine describe ≠ .ok e) ∧
        n' = { n with stage := { n.stage with objectiveInstalled := true } } := by
  have operating : m.Throughout (fun _ start n => Node.Operating solver m.sense start n)
      (afterAll solver ⟨m, draws, clock, stopwatch⟩ calls).model :=
    operating_afterAll ⟨m, draws, clock, stopwatch⟩ calls
  obtain ⟨start, hstart, -⟩ := Model.get?_of_declaration_eq operating.declaration.symm hk
  have hb := (Model.blank_of_build hm hstart).1
  have used : Node.Used m.sense start [] n := by
    subst hn
    exact Node.used_afterOperations hb operations
      ((operating.node index start k hstart hk).used_backed hb).1
  refine ⟨fun plan owner => (Stage.notInstalled_declare plan).final rfl, used.current,
    fun x noise needsDuals answer n' hrun => used.current_solve hb hrun, fun cause n' hrun => ?_⟩
  exact (Node.triple_installObjective n).error rfl hrun

/-- Two stages that cost ten and eleven. After training the first one is solved for the sum of
both. -/
theorem objective_current_of_two_stages :
    ∃ (graph : Graph ℚ) (m : Model ℚ) (s : Session ℚ) (k n n' : Node ℚ) (answer : Solution ℚ),
      Graph.ofEdges (.int 0) [.int 1, .int 2]
        [(.int 0, .int 1, .real 1), (.int 1, .int 2, .real 1)] [] = .ok graph ∧
      Model.build graph ⟨.finite 0, .posInf, 0⟩ (.text "min")
        ⟨[([.int 2], carrying 11)], carrying 10⟩ =
        .ok m ∧ carryingSolver.Sound ∧ s.model.nodes.get? (.int 1) = some k ∧
      n = k.afterOperations carryingSolver m.sense [.applyNoise .null] ∧
      Node.solve carryingSolver m.sense m.initial .null true n = .ok answer n' ∧
      n'.Current m.sense ∧ answer.stageObjective = 10 ∧ answer.objective = 21 ∧
      n'.stage.subproblem.valueOf (Affine.ofVariable n'.cuts.term) = .ok 11 := by
  let clock : Clock (Datum ℚ) := .ofReadings fun _ => .int 0
  let request : TrainingRequest ℚ :=
    { options := { TrainingOptions.standard with iterationLimit := .int 2 } }
  have check : (do
      let graph ← Graph.ofEdges (.int 0) [.int 1, .int 2]
        [(.int 0, .int 1, .real 1), (.int 1, .int 2, .real 1)] []
      let m ← Model.build graph ⟨.finite 0, .posInf, 0⟩ (.text "min")
        ⟨[([.int 2], carrying 11)], carrying 10⟩
      let k ← ((afterAll carryingSolver ⟨m, List.replicate 8 0, clock, clock⟩
        [.train 2 request]).model.nodes.get? (.int 1)).elim (.error .missingKey) .ok
      let solved ← (Node.solve carryingSolver m.sense m.initial .null true).answer
        (k.afterOperations carryingSolver m.sense [.applyNoise .null])
      let e ← solved.2.stage.objective.toAffine fun _ => .datum .null
      if solved.1.stageObjective = 10 ∧
          solved.1.objective = 21 then return () else .error .missingKey :
        Except (Failure ℚ) Unit).toBool = true := by
    decide +kernel
  simp only [Except.toBool_bind, Except.toBool_ite, Except.elim_eq_ok, Action.answer_eq_ok] at check
  obtain ⟨graph, hgraph, m, hm, k, found, solved, run, e, he, hstage, hobjective⟩ := check
  have sound : carryingSolver.Sound := Solver.sound_certified _
  obtain ⟨-, -, solves, -⟩ := objective_current hm [.train 2 request] found [.applyNoise .null] rfl
  obtain ⟨current, optimal⟩ := solves _ _ _ _ _ run
  obtain ⟨theta, htheta, hsum, -⟩ := optimal sound _ e he
  rw [hstage, hobjective] at hsum
  obtain rfl : theta = 11 := by linarith
  exact ⟨graph, m, _, k, _, _, solved.1, hgraph, hm, sound, found, rfl, run, current, hstage,
    hobjective, htheta⟩

end Session

end Multistage
