import Multistage.Proofs.Linear.Certified
import Multistage.Proofs.Node.Operating
import Multistage.Training

/-!
# Cuts that are recorded without being installed

With a tolerance a cut is installed only if its height differs enough from the optimal value that
the subproblem last reported. This value has the objective of the stage in it, and it is that of the
last solve, whatever was solved.

## Main definitions

- `Sense.eased`: a value that is moved by a tolerance.

## Main statements

- `Node.estimate_of_skipped`: what the value was, and how good the estimate therefore is.
-/

namespace Multistage

/-- A value that is moved by a tolerance: lower when minimising, higher when maximising. -/
def Sense.eased (sense : Sense) (a tolerance : ℚ) : ℚ := a - sense.sign * tolerance

/-- Values within a tolerance. -/
theorem Sense.eased_atMost (sense : Sense) {a b tolerance : ℚ} (h : |b - a| ≤ tolerance) :
    sense.AtMost ((sense.eased a tolerance : ℚ) : ℝ) (b : ℝ) := by
  obtain ⟨hlow, hhigh⟩ := abs_le.1 h
  cases sense with
  | min =>
    show ((a - 1 * tolerance : ℚ) : ℝ) ≤ b
    exact Rat.cast_le.2 (by linarith)
  | max =>
    show (b : ℝ) ≤ ((a - -1 * tolerance : ℚ) : ℝ)
    exact Rat.cast_le.2 (by linarith)

namespace Node

variable {solver : Solver ℚ} {sense : Sense} {start n n' : Node ℚ} {measure : Measure ℚ}
  {x : State ℚ} {duals : List (State ℚ)} {probabilities objectives : List ℚ} {c d : Cut ℚ}
  {height : ℚ}

/-- A cut that is an improvement is installed when it is recorded. -/
theorem isImprovement_of_skipped
    (hcut : newCut sense measure x duals probabilities objectives = .ok (c, height))
    (hrun : refine sense measure x duals probabilities objectives n = .ok () n')
    (hlast : n'.cuts.pool.cuts.getLast? = some d) (hskip : d.constraint? = none) :
    n.isImprovement height = false := by
  by_contra himprove
  -- the last cut is installed from when it is recorded
  let I : Node ℚ → Prop :=
    fun m => ∃ d, m.cuts.pool.cuts.getLast? = some d ∧ d.constraint?.isSome = true
  have added : Action.Triple (· = n) (addCut sense x x c height) (fun _ => I) fun _ => True := by
    refine triple_addCut (fun _ _ => trivial) (fun _ => trivial) (fun k pool _ _ hpool => ?_)
      (fun pool hfalse _ => absurd hfalse himprove) fun m place e k hm hplace _ _ => ?_
    · have last := congrArg List.getLast? hpool
      rw [List.getLast?_map, List.getLast?_concat] at last
      obtain ⟨e, he, heq⟩ := Option.map_eq_some_iff.1 last
      refine ⟨e, he, ?_⟩
      rw [show e.constraint? = (n.next c).constraint? from congrArg (·.constraint?) heq]
      rfl
    · obtain ⟨f, hf, hi⟩ := hm
      rw [List.getLast?_eq_getElem?] at hf
      have same : (m.cuts.pool.cuts.set place { m.next e with removed := false }).getLast? =
          (m.cuts.pool.cuts.set place
            { m.next e with removed := false })[m.cuts.pool.cuts.length - 1]? := by
        rw [List.getLast?_eq_getElem?, List.length_set]
      have hlt := (List.getElem?_eq_some_iff.1 hf).1
      by_cases hp : place = m.cuts.pool.cuts.length - 1
      · subst hp
        exact ⟨_, same.trans (List.getElem?_set_self hlt), rfl⟩
      · exact ⟨f, same.trans ((List.getElem?_set_ne hp).trans hf), hi⟩
  rw [refine_eq, hcut] at hrun
  obtain ⟨d', hd', hi⟩ := added.ok rfl hrun
  cases hlast.symm.trans hd'
  rw [hskip] at hi
  cases hi

/-- A height is no improvement if it is close to the last optimal value. -/
theorem exists_optimum_of_isImprovement (h : n.isImprovement height = false) :
    0 < n.cuts.settings.improvement ∧ ∃ value, n.stage.subproblem.optimum? = some value ∧
      |value - height| ≤ n.cuts.settings.improvement := by
  unfold isImprovement at h
  split at h
  next value hvalue =>
    split at h
    next hif =>
      obtain ⟨hpos, -⟩ := Bool.and_eq_true_iff.1 hif
      refine ⟨of_decide_eq_true hpos, value, hvalue, ?_⟩
      have hle := not_lt.1 (of_decide_eq_false h)
      have same : Scalar.abs (value - height) = |value - height| := by
        unfold Scalar.abs
        split
        next hneg => exact (abs_of_neg hneg).symm
        next hneg => exact (abs_of_nonneg (not_lt.1 hneg)).symm
      rwa [same] at hle
    next => cases h
  next => cases h

/-- When a refinement records a cut without installing it, the optimal value that the subproblem
last reported is within the tolerance of the height of the cut. The cut is therefore redundant
within the tolerance where the estimate is as good as that value. If the last solve left the node in
the state of the refinement, the estimate there is as good as the value without the objective of the
stage. -/
theorem estimate_of_skipped {graph : Graph ℚ} {settings : CutSettings ℚ} {plans : StagePlans ℚ}
    {index : Datum ℚ} (hbuilt : Model.BuiltNode graph settings plans index start)
    (hchildren : start.children.isEmpty = false) (hsolver : solver.Sound)
    (h : Operating solver sense start n)
    (hcut : newCut sense measure x duals probabilities objectives = .ok (c, height))
    (hrun : refine sense measure x duals probabilities objectives n = .ok () n')
    (hlast : n'.cuts.pool.cuts.getLast? = some d) (hskip : d.constraint? = none) :
    0 < settings.improvement ∧ ∃ value, n.stage.subproblem.optimum? = some value ∧
      |value - height| ≤ settings.improvement ∧
      (sense.AtMost ((value : ℝ) : EReal) (n.cuts.estimate sense x.profile) →
        sense.AtMost ((sense.eased height settings.improvement : ℝ) : EReal)
          (n.cuts.estimate sense x.profile)) ∧
      ∀ (n₀ n₁ : Node ℚ) (state : State ℚ) (noise : Datum ℚ) (needsDuals : Bool)
        (answer : Solution ℚ),
        Operating solver sense start n₀ →
        solve solver sense state noise needsDuals n₀ = .ok answer n₁ → Refined sense n₁ n →
        value = answer.objective ∧
          ((∃ describe e, n₁.stage.objective.toAffine describe = .ok e) →
            (∀ s ∈ start.stage.states.entries,
              ¬start.stage.Assignable (.fixed s.2.outgoing.index)) →
            answer.outgoing.profile = x.profile →
              sense.AtMost ((sense.eased height settings.improvement : ℝ) : EReal)
                (((answer.stageObjective : ℝ) : EReal) + n.cuts.estimate sense x.profile)) := by
  obtain ⟨hb, hsettings⟩ := Model.blank_of_built hbuilt
  have hsettings : n.cuts.settings = settings :=
    ((h.used_backed hb).1.settings_eq).trans hsettings
  obtain ⟨hpos, value, hvalue, hclose⟩ :=
    exists_optimum_of_isImprovement (isImprovement_of_skipped hcut hrun hlast hskip)
  rw [hsettings] at hpos hclose
  have eased : sense.AtMost ((sense.eased height settings.improvement : ℝ) : EReal)
      ((value : ℝ) : EReal) := by
    have := sense.eased_atMost hclose
    cases sense <;> exact EReal.coe_le_coe_iff.2 this
  refine ⟨hpos, value, hvalue, hclose, eased.trans, ?_⟩
  intro n₀ n₁ state noise needsDuals answer hn₀ hsolve hrefined
  obtain ⟨used, backed⟩ := hn₀.used_backed hb
  obtain ⟨⟨used₁, same₁⟩, m, ready, same, solved⟩ := (triple_solve hb used needsDuals).ok rfl hsolve
  have grows := hrefined.grows
  have reported : value = answer.objective := by
    have := hvalue.symm.trans (grows.optimum.trans solved.objective)
    exact Option.some.inj this
  refine ⟨reported, ?_⟩
  rintro ⟨describe, e, he⟩ hfree hleft
  have objective : n₁.stage.objective = m.stage.objective := by
    rw [solved.node_eq]
    rfl
  have cuts : n₁.cuts = m.cuts := by
    rw [solved.node_eq]
    rfl
  rw [objective] at he
  obtain ⟨point, hpoint, -, hadmits, -⟩ := ready.exists_point hsolver hb solved
  have bound := ready.objective_atMost_estimate hsolver hb hchildren
    (backed.of_sameCuts used ready.toUsed same) he solved hpoint
  rw [← ready.profile_outgoing hb solved hpoint hadmits hfree, hleft, ← cuts, ← reported] at bound
  have grown := grows.estimate sense x.profile
  refine (eased.trans bound).trans ?_
  cases sense with
  | min => exact add_le_add_right grown _
  | max => exact add_le_add_right grown _

/-- A node that costs ten is solved and then refined by a child that costs eleven. With a tolerance
of one the cut is not installed; the estimate is zero, but it is not more than one below eleven
together with the cost of the node. -/
theorem estimate_of_skipped_by_one :
    ∃ (graph : Graph ℚ) (start n₁ n₂ : Node ℚ) (answer : Solution ℚ) (c d : Cut ℚ) (height : ℚ),
      Model.BuiltNode graph ⟨.finite 0, .posInf, 1⟩ ⟨[], carrying 10⟩ (.int 1) start ∧
      start.children.isEmpty = false ∧
      solve carryingSolver .min (⟨[(.text "x", 1)]⟩ : State ℚ) .null false start = .ok answer n₁ ∧
      newCut .min .expectation ⟨[(.text "x", 1)]⟩ [⟨[(.text "x", 0)]⟩] [1] [11] = .ok (c, height) ∧
      refine .min .expectation (⟨[(.text "x", 1)]⟩ : State ℚ)
        [(⟨[(.text "x", 0)]⟩ : State ℚ)] [1] [11]
        n₁ = .ok () n₂ ∧
      n₂.cuts.pool.cuts.getLast? = some d ∧ d.constraint? = none ∧ answer.objective = 10 ∧
      height = 11 ∧
      Sense.min.AtMost (((Sense.min.eased height 1 : ℚ) : ℝ) : EReal)
        (((answer.stageObjective : ℝ) : EReal) +
          n₁.cuts.estimate .min (State.profile ⟨[(.text "x", 1)]⟩)) := by
  have check : (do
      let graph ← Graph.ofEdges (.int 0) [.int 1, .int 2]
        [(.int 0, .int 1, .real 1), (.int 1, .int 2, .real 1)] []
      let stage ← Stage.build (.int 1) 0 (StagePlans.of ⟨[], carrying 10⟩ (.int 1))
      let k ← ofStage ⟨.finite 0, .posInf, 1⟩ (Edge.ofPairs (graph.nodes.getD (.int 1) [])) stage
      let start ← k.observed graph.partition ⟨[]⟩ (.int 1)
      let solved ← (solve carryingSolver .min
        (⟨[(.text "x", 1)]⟩ : State ℚ) .null false).answer start
      let cut ← newCut .min .expectation ⟨[(.text "x", 1)]⟩ [⟨[(.text "x", 0)]⟩] [1] [11]
      let refined ← (refine .min .expectation (⟨[(.text "x", 1)]⟩ : State ℚ)
        [(⟨[(.text "x", 0)]⟩ : State ℚ)] [1] [11]).answer solved.2
      let last ← refined.2.cuts.pool.cuts.getLast?.elim (.error .missingKey) .ok
      let e ← solved.2.stage.objective.toAffine solved.2.stage.subproblem.describe
      if start.children.isEmpty = false ∧ last.constraint? = none ∧ solved.1.objective = 10 ∧
          cut.2 = 11 ∧ start.stage.edits.isEmpty = true ∧
          solved.1.outgoing.keys.map Datum.identity = ["x"].map .text ∧
          solved.1.outgoing.values = [1] then
        return () else .error .missingKey : Except (Failure ℚ) Unit).toBool = true := by
    decide +kernel
  simp only [Except.toBool_bind, Except.toBool_ite, Except.elim_eq_ok, Action.answer_eq_ok,
    Prod.exists] at check
  obtain ⟨graph, -, stage, hstage, k, hk, start, hstart, answer, n₁, run, c, height, hcut, _, n₂,
    refined, d, hlast, e, he, hchildren, hskip, hobjective, hheight, hedits, hkeys, hvalues⟩ :=
      check
  have outgoing : answer.outgoing = ⟨[(.text "x", 1)]⟩ :=
    congrArg Dict.mk (List.zip_of_prod (Datum.eq_texts_of_identities_eq hkeys) hvalues)
  have hbuilt : Model.BuiltNode graph ⟨.finite 0, .posInf, 1⟩ ⟨[], carrying 10⟩ (.int 1) start :=
    ⟨0, stage, k, ⟨[]⟩, hstage, hk, hstart⟩
  have unassigned : ∀ f, ¬start.stage.Assignable f := by
    rintro f ⟨edit, hedit, -⟩
    rw [List.isEmpty_iff.1 hedits] at hedit
    cases hedit
  have reached : Operating carryingSolver .min start n₁ := by
    have solved : Operating carryingSolver .min start _ :=
      .solved .start ⟨[(.text "x", 1)]⟩ .null false
    rwa [Action.final_of_ok run] at solved
  obtain ⟨-, value, -, -, -, hsince⟩ := estimate_of_skipped hbuilt hchildren
    (Solver.sound_certified _) reached hcut refined hlast hskip
  obtain ⟨-, hestimate⟩ := hsince start n₁ _ _ _ answer .start run .start
  exact ⟨graph, start, n₁, n₂, answer, c, d, height, hbuilt, hchildren, run, hcut, refined,
    hlast, hskip, hobjective, hheight,
    hheight ▸ hestimate ⟨_, e, he⟩ (fun s _ => unassigned _) (by rw [outgoing])⟩

/-- One iteration of training with a tolerance of one, on two such stages that cost ten and eleven.
The cut of the first node, of height eleven, is close to the ten that the node costs and is not
installed; nothing else is, so that what follows is estimated as zero. -/
theorem train_skips_cut :
    ∃ (graph : Graph ℚ) (m : Model ℚ) (n : Node ℚ) (c : Cut ℚ),
      Graph.ofEdges (.int 0) [.int 1, .int 2]
        [(.int 0, .int 1, .real 1), (.int 1, .int 2, .real 1)] [] = .ok graph ∧
      Model.build graph ⟨.finite 0, .posInf, 1⟩ (.text "min")
        ⟨[([.int 2], carrying 11)], carrying 10⟩ = .ok m ∧ carryingSolver.Sound ∧
      (let report := train carryingSolver 1
        { options := { TrainingOptions.standard with iterationLimit := .int 1 } }
        ⟨m, [0, 0, 0, 0], .ofReadings fun _ => .int 0, .ofReadings fun _ => .int 0⟩
      report.outcome = .ok "iteration_limit" ∧ report.session.model.node (.int 1) = .ok n) ∧
      n.cuts.pool.cuts = [c] ∧ c.constraint? = none ∧ c.removed = false ∧
      (∀ y, c.value y = 11) ∧ (∀ y, n.cuts.estimate .min y = 0) ∧
      ∀ y, ¬Sense.min.AtMost ((c.value y - n.cuts.settings.improvement : ℝ) : EReal)
        (n.cuts.estimate .min y) := by
  let clock : Clock (Datum ℚ) := .ofReadings fun _ => .int 0
  let request : TrainingRequest ℚ :=
    { options := { TrainingOptions.standard with iterationLimit := .int 1 } }
  have check : (do
      let graph ← Graph.ofEdges (.int 0) [.int 1, .int 2]
        [(.int 0, .int 1, .real 1), (.int 1, .int 2, .real 1)] []
      let m ← Model.build graph ⟨.finite 0, .posInf, 1⟩ (.text "min")
        ⟨[([.int 2], carrying 11)], carrying 10⟩
      let status ← (train carryingSolver 1 request ⟨m, [0, 0, 0, 0], clock, clock⟩).outcome
      let n ← (train carryingSolver 1 request ⟨m, [0, 0, 0, 0], clock, clock⟩).session.model.node
        (.int 1)
      let c ← n.cuts.pool.cuts.head?.elim (.error .missingKey) .ok
      if status = "iteration_limit" ∧ n.cuts.pool.cuts.length = 1 ∧ c.intercept = 11 ∧
          (∀ e ∈ c.coefficients.entries, e.2 = 0) ∧ c.constraint? = none ∧ c.removed = false ∧
          n.cuts.settings.lower = .finite 0 ∧
          n.cuts.settings.improvement = 1 then
        return () else .error .missingKey : Except (Failure ℚ) Unit).toBool = true := by
    decide +kernel
  simp only [Except.toBool_bind, Except.toBool_ite, Except.elim_eq_ok] at check
  obtain ⟨graph, hgraph, m, hm, status, hstatus, n, hn, c, hc, rfl, hlength, hintercept, hflat,
    hskip, hremoved, hlower, himprovement⟩ := check
  have cuts : n.cuts.pool.cuts = [c] := by
    obtain ⟨d, hd⟩ := List.length_eq_one_iff.1 hlength
    rw [hd] at hc ⊢
    rw [Option.some.inj hc]
  have value : ∀ y, c.value y = 11 := by
    intro y
    rw [Cut.value_of_flat hflat, hintercept]
    norm_num
  have estimate : ∀ y, n.cuts.estimate .min y = 0 := by
    intro y
    rw [CutModel.estimate_eq_bound, CutSettings.estimate, hlower]
    · simp [Extended.toEReal]
    · rw [cuts]
      simp [hskip]
  refine ⟨graph, m, n, c, hgraph, hm, Solver.sound_certified _, ⟨hstatus, hn⟩, cuts,
    hskip, hremoved,
    value, estimate, fun y => ?_⟩
  rw [estimate, value, himprovement]
  refine not_le.2 (EReal.coe_pos.2 ?_)
  norm_num

end Node

end Multistage
