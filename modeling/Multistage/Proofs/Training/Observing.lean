import Multistage.Proofs.Linear.Rearranged
import Multistage.Proofs.Model.Throughout
import Multistage.Proofs.Session.Observing
import Multistage.Proofs.Training.Lockstep

/-!
# Training after observing

Training does the same whether bounds and simulations were asked for before or not, as long as no
refinement compares its cut with an optimal value that they have left. A pass solves a node before
it refines it, but for the nodes that are similar to one that it visits.

## Main definitions

- `Model.similarNodes`: the nodes that a pass may refine without having solved them.
- `Model.SameOptimum`: a node was left with the same optimal value in two models.

## Main statements

- `train_observed`: bounds and simulations have no effect on a training run.
- `train_notices_bound`: a bound has one where similar nodes are refined with a tolerance.
-/

namespace Multistage

variable {solver : Solver ℚ} {m : Model ℚ}

/-- The nodes that are similar to another node. -/
def Model.similarNodes (m : Model ℚ) : Set (Datum ℚ) :=
  {other | ∃ index others, m.similar.get? index = some others ∧ other ∈ others}

/-- The node was last solved with the same optimal value in both models. -/
def Model.SameOptimum (m m' : Model ℚ) (index : Datum ℚ) : Prop :=
  ∀ n n', m.nodes.get? index = some n → m'.nodes.get? index = some n' →
    n'.stage.subproblem.optimum? = n.stage.subproblem.optimum?

/-- A failure that is alike to the wish to stop is the wish to stop. -/
theorem Failure.Alike.interrupted_iff {e e' : Failure ℚ} (h : e.Alike e') :
    e = .interrupted ↔ e' = .interrupted := by
  obtain rfl | ⟨misfit, misfit', rfl, rfl⟩ := h
  · rfl
  · exact ⟨nofun, nofun⟩

/-- Nodes of models that are abreast have the same cuts. -/
theorem Model.Abreast.cuts_eq {m₀ m m' : Model ℚ} {S : Set (Datum ℚ)} (h : m₀.Abreast S m m')
    (index : Datum ℚ) :
    (m'.node index).map (·.cuts) = (m.node index).map (·.cuts) := by
  have same : m'.declaration = m.declaration := h.right.trans h.left.symm
  cases hn : m.node index with
  | error e => rw [node_eq_error_of_declaration_eq same hn]
  | ok n =>
    obtain ⟨n', hn', -⟩ := node_of_declaration_eq same hn
    obtain ⟨start, hstart, -⟩ := get?_of_declaration_eq h.left.symm (node_eq_ok.1 hn).2
    rw [hn']
    exact congrArg Except.ok
      (h.node index start n n' hstart (node_eq_ok.1 hn).2 (node_eq_ok.1 hn').2).same.cuts

/-- Let a model be used, and then asked for bounds and simulated with success. Training that is
given the same draws and clocks ends with the same status, or fails alike, logs the same and leaves
the same cuts at every node, whether the model was asked or not, if there is no tolerance, if
similar nodes are not refined, or if the nodes that are similar to another one were left with the
optimal values that they had. -/
theorem train_observed {graph : Graph ℚ} {settings : CutSettings ℚ} {sense : Datum ℚ}
    {plans : StagePlans ℚ}
    (hm : Model.build graph settings sense plans = .ok m) (hsolver : solver.IgnoresOrder)
    (draws : Draws ℚ)
    (clock stopwatch : Clock (Datum ℚ)) (calls : List (Call ℚ)) {observed : Session ℚ} (budget : ℕ)
    (request : TrainingRequest ℚ) :
    let s := Session.afterAll solver ⟨m, draws, clock, stopwatch⟩ calls
    Session.Observes solver s observed →
    (settings.improvement = 0 ∨ request.options.refinesSimilar.truth = false ∨
      ∀ index ∈ m.similarNodes, s.model.SameOptimum observed.model index) →
    let report := train solver budget request s
    let report' := train solver budget request { s with model := observed.model }
    Except.Alike report.outcome report'.outcome ∧ report'.log = report.log ∧
      ∀ index, (report'.session.model.node index).map (·.cuts) =
        (report.session.model.node index).map (·.cuts) := by
  intro s hobserves hjudged report report'
  have hblank : ∀ index start, m.nodes.get? index = some start → start.Blank :=
    fun _ _ hstart => (Model.blank_of_build hm hstart).1
  have operating : m.Throughout (fun _ start n => Node.Operating solver m.sense start n) s.model :=
    Session.operating_afterAll ⟨m, draws, clock, stopwatch⟩ calls
  have used : m.Throughout (fun _ start n =>
      Node.Used m.sense start [] n ∧ Node.Backed m.sense start.rowCount n) s.model :=
    ⟨operating.declaration, fun index start n hstart hn =>
      (operating.node index start n hstart hn).used_backed (hblank index start hstart)⟩
  -- the nodes that a run may refine without having solved them before
  let S : Set (Datum ℚ) :=
    {index | request.options.refinesSimilar.truth = true ∧ index ∈ m.similarNodes}
  let other : Session ℚ := { s with model := observed.model }
  have abreast : m.Abreast S s.model other.model := by
    refine hobserves.abreast hblank used fun index hindex n n' hn hn' => ?_
    rcases hjudged with hzero | hoff | hsame
    · obtain ⟨start, hstart, -⟩ := Model.get?_of_declaration_eq operating.declaration.symm hn
      have settings_eq := (used.node index start n hstart hn).1.settings_eq
      rw [settings_eq, (Model.blank_of_build hm hstart).2]
      exact .inl hzero.le
    · exact absurd hindex.1 (hoff ▸ Bool.false_ne_true)
    · exact .inr (hsame index hindex.2 n n' hn hn')
  have similar : s.model.similar = m.similar := by
    rw [← Model.similar_declaration, operating.declaration, Model.similar_declaration]
  have agree : report.Agree m.Abreast Failure.Alike report' :=
    train_agree (Model.lockstep_abreast hblank hsolver)
      (fun _ _ => Failure.Alike.interrupted_iff) abreast rfl rfl rfl
      (fun hon index others hothers other hother =>
        ⟨hon, index, others, similar ▸ hothers, hother⟩) budget
  refine ⟨?_, agree.log, agree.model.cuts_eq⟩
  rcases agree.outcome with ⟨status, hstatus, hstatus'⟩ | ⟨e, e', he, he', halike⟩
  · rw [hstatus, hstatus']
    rfl
  · rw [he, he']
    exact halike

/-- Similar nodes that cost nothing and ten, before a node that costs eleven, without a tolerance: a
bound and a simulation have no effect on an iteration of training. -/
theorem observed_of_similar_nodes :
    ∃ (graph : Graph ℚ) (m : Model ℚ) (observed : Session ℚ),
      Graph.ofEdges (.int 0) [.int 1, .int 2, .int 3]
        [(.int 0, .int 1, .real (1 / 2)), (.int 0, .int 2, .real (1 / 2)),
          (.int 1, .int 3, .real 1),
          (.int 2, .int 3, .real 1)] [] = .ok graph ∧
      Model.build graph ⟨.finite 0, .posInf, 0⟩ (.text "min")
        ⟨[([.int 2], carrying 10), ([.int 3], carrying 11)], carrying 0⟩ = .ok m ∧
      steadySolver.IgnoresOrder ∧
      (let s : Session ℚ := ⟨m, [0, 0, 0, 0], .ofReadings fun _ => .int 0,
        .ofReadings fun _ => .int 0⟩
      let request : TrainingRequest ℚ :=
        { options := { TrainingOptions.standard with iterationLimit := .int 1 } }
      let report := train steadySolver 1 request s
      let report' := train steadySolver 1 request { s with model := observed.model }
      Session.Observes steadySolver s observed ∧
        Except.Alike report.outcome report'.outcome ∧ report'.log = report.log ∧
        ∀ index, (report'.session.model.node index).map (·.cuts) =
          (report.session.model.node index).map (·.cuts)) := by
  let start (m : Model ℚ) : Session ℚ :=
    ⟨m, [0, 0, 0, 0], .ofReadings fun _ => .int 0, .ofReadings fun _ => .int 0⟩
  have check : (do
      let graph ← Graph.ofEdges (.int 0) [.int 1, .int 2, .int 3]
        [(.int 0, .int 1, .real (1 / 2)), (.int 0, .int 2, .real (1 / 2)),
          (.int 1, .int 3, .real 1),
          (.int 2, .int 3, .real 1)] []
      let m ← Model.build graph ⟨.finite 0, .posInf, 0⟩ (.text "min")
        ⟨[([.int 2], carrying 10), ([.int 3], carrying 11)], carrying 0⟩
      let (_, bounded) ← (Session.bound steadySolver m.initial .expectation).answer (start m)
      let _ ← (Session.simulate steadySolver [.text "y"] [] 1 .unlimited).answer bounded
      return () : Except (Failure ℚ) Unit).toBool = true := by
    decide +kernel
  simp only [Except.toBool_bind, Action.answer_eq_ok] at check
  obtain ⟨graph, hgraph, m, hm, ⟨_, bounded⟩, hbounded, ⟨_, observed⟩, hobserved, -⟩ := check
  have observes : Session.Observes steadySolver (start m) observed :=
    .simulate (.bound .start hbounded) hobserved
  exact ⟨graph, m, observed, hgraph, hm, Solver.ignoresOrder_steady, observes,
    train_observed hm Solver.ignoresOrder_steady _ _ _ [] 1 _ observes (.inl rfl)⟩

/-- The status of a run, the bounds that it logs, and which cuts of a node it leaves installed. -/
def TrainingReport.summaryAt (report : TrainingReport ℚ) (index : Datum ℚ) :
    Except (Failure ℚ) (String × List ℚ × List Bool) := do
  let status ← report.outcome
  let bounds ← report.log.mapM (·.bound.asNumber)
  let n ← report.session.model.node index
  return (status, bounds, n.cuts.pool.cuts.map (·.constraint?.isSome))

/-- One iteration of training with a tolerance of one, on similar nodes that cost nothing and ten,
before a node that costs eleven. The pass goes through the first of them, and its cut of height
eleven is copied to the second one. It is installed there, unless a bound has solved that node
before: eleven is close to the ten of the last solve. The run after the bound logs another value,
and does not install the cut. -/
theorem train_notices_bound :
    ∃ (graph : Graph ℚ) (m : Model ℚ) (observed : Session ℚ),
      Graph.ofEdges (.int 0) [.int 1, .int 2, .int 3]
        [(.int 0, .int 1, .real (1 / 2)), (.int 0, .int 2, .real (1 / 2)),
          (.int 1, .int 3, .real 1),
          (.int 2, .int 3, .real 1)] [] = .ok graph ∧
      Model.build graph ⟨.finite 0, .posInf, 1⟩ (.text "min")
        ⟨[([.int 2], carrying 10), ([.int 3], carrying 11)], carrying 0⟩ = .ok m ∧
      steadySolver.IgnoresOrder ∧
      (let s : Session ℚ := ⟨m, [0, 0, 0, 0], .ofReadings fun _ => .int 0,
        .ofReadings fun _ => .int 0⟩
      let request : TrainingRequest ℚ :=
        { options := { TrainingOptions.standard with iterationLimit := .int 1 } }
      Session.Observes steadySolver s observed ∧
        (train steadySolver 1 request s).summaryAt (.int 2) =
        .ok ("iteration_limit", [16], [true]) ∧
        (train steadySolver 1 request { s with model := observed.model }).summaryAt (.int 2) =
          .ok ("iteration_limit", [21 / 2], [false])) := by
  let start (m : Model ℚ) : Session ℚ :=
    ⟨m, [0, 0, 0, 0], .ofReadings fun _ => .int 0, .ofReadings fun _ => .int 0⟩
  let request : TrainingRequest ℚ :=
    { options := { TrainingOptions.standard with iterationLimit := .int 1 } }
  have check : (do
      let graph ← Graph.ofEdges (.int 0) [.int 1, .int 2, .int 3]
        [(.int 0, .int 1, .real (1 / 2)), (.int 0, .int 2, .real (1 / 2)),
          (.int 1, .int 3, .real 1),
          (.int 2, .int 3, .real 1)] []
      let m ← Model.build graph ⟨.finite 0, .posInf, 1⟩ (.text "min")
        ⟨[([.int 2], carrying 10), ([.int 3], carrying 11)], carrying 0⟩
      let (_, observed) ← (Session.bound steadySolver m.initial .expectation).answer (start m)
      let seen ← (train steadySolver 1 request (start m)).summaryAt (.int 2)
      let seen' ← (train steadySolver 1 request { start m with model := observed.model }).summaryAt
        (.int 2)
      if seen = ("iteration_limit", [16], [true]) ∧
          seen' = ("iteration_limit", [21 / 2], [false]) then return ()
      else .error .missingKey : Except (Failure ℚ) Unit).toBool = true := by
    decide +kernel
  simp only [Except.toBool_bind, Except.toBool_ite, Action.answer_eq_ok] at check
  obtain ⟨graph, hgraph, m, hm, ⟨_, observed⟩, hobserved, seen, hseen, seen', hseen', rfl, rfl⟩ :=
    check
  exact ⟨graph, m, observed, hgraph, hm, Solver.ignoresOrder_steady,
    .bound .start hobserved, hseen, hseen'⟩

end Multistage
