import Multistage.Proofs.Linear.Certified
import Multistage.Proofs.Session.CostToGo

/-!
# Cuts and bounds are valid

Values on which no step improves bound what a session ever finds: every cut that is recorded is at
most the value of its node, and every bound is at most the value at the root, whatever is called
before and however it ends.

## Main definitions

- `Model.rootValue`: what a measure makes of the steps at the root.
- `TrainingRequest.Uses`: training with given risk measures.

## Main statements

- `Session.valid_of_dominates`: the cuts and the bounds of a session.
-/

namespace Multistage

/-- What a measure makes of the steps at the root, for values of what follows. -/
noncomputable def Model.rootValue (m : Model ℚ) (W : Datum ℚ → (Name → ℝ) → EReal)
    (measure : Measure ℚ) (y : Name → ℝ) : EReal :=
  measure.riskOf m.sense (m.weighing W (·.probability) m.rootChildren y)

/-- Training refines every node of the model with its own measure. -/
def TrainingRequest.Uses (request : TrainingRequest ℚ) (m : Model ℚ)
    (F : Datum ℚ → Measure ℚ) : Prop :=
  ∀ measures, request.options.measure.resolve m.nodes.keys = .ok measures →
    ∀ index n measure, m.nodes.get? index = some n → measures.get? index = some measure →
      measure = F index

namespace Session

variable {m₀ : Model ℚ} {W : Datum ℚ → (Name → ℝ) → EReal} {F : Datum ℚ → Measure ℚ}
  {solver : Solver ℚ}

section Below

variable (hm : m₀.Regular) (hsolver : solver.Sound) (hdominates : m₀.Dominates F W)

include hm hsolver hdominates

theorem bound_atMost_rootValue {measure : Measure ℚ} (hmeasure : measure.Coherent) {x : State ℚ}
    {s s' : Session ℚ} {b : ℚ} (hs : m₀.Below W s.model) (h : bound solver x measure s = .ok b s') :
    m₀.sense.AtMost ((b : ℝ) : EReal) (m₀.rootValue W measure x.profile) := by
  obtain ⟨-, results, q, hall, hq, rfl⟩ := ((ensures_bound_of_declaration
    (Model.keeps_below hm hsolver hdominates) (fun _ => Model.Throughout.declaration) x
    measure).ok hs h).2
  have nonneg := Model.weighing_nonneg (W := W) (y := x.profile) hm.root_nonneg hm.noise_nonneg
  rw [← probabilities_of_solves hall, Model.probabilities_of_steps hall,
    ← Model.probabilities_weighing (W := W) (y := x.profile)] at hq
  rw [Node.cast_dot, List.map_map]
  refine hmeasure.sum_atMost nonneg nonneg (fun _ => rfl) (fun o ho => ⟨o, ho, rfl⟩) ?_ hq ?_
    (Sense.AtMost.refl _ _)
  · rw [← List.length_map (f := fun o : ℚ × EReal => o.1), Model.probabilities_weighing,
      ← Model.probabilities_of_steps hall, List.length_map, List.length_map]
  · rw [List.forall₂_map_left_iff]
    exact Model.forall₂_weighing (P := fun (r : ChildSolution ℚ) v =>
      m₀.sense.AtMost (((r.solution.objective : ℚ) : ℝ) : EReal) v)
      (hall.flip.imp fun r step hr => hr.solution.objective)

variable (hmeasures : ∀ index n, m₀.nodes.get? index = some n → (F index).Coherent)

include hmeasures

/-- What training with the measures refines keeps cuts at most values. -/
theorem trainingKeeps_below {request : TrainingRequest ℚ} (hrequest : request.Uses m₀ F) :
    TrainingKeeps solver (m₀.Below W) (fun x => x.Distinct) request := by
  intro session options run hs hcheck hstart index x hx
  obtain ⟨-, htransitions, hsimilar, hresolve⟩ := Run.start_eq_ok hstart
  rw [TrainingOptions.measure_of_check hcheck,
    Model.keys_of_declaration_eq hs.declaration] at hresolve
  -- what the passes look up was computed from a model with the same declaration
  refine Model.below_refineAt hm hsolver hdominates hmeasures (hrequest _ hresolve) ?_ ?_ index hx
  · rw [htransitions, ← Model.transitionMap_declaration, hs.declaration,
      Model.transitionMap_declaration]
  · rw [hsimilar, ← Model.similar_declaration, hs.declaration, Model.similar_declaration]

/-- The bounds that training logs are at most the value at the root. -/
theorem train_below {s : Session ℚ} (hs : m₀.Below W s.model) (budget : ℕ)
    {request : TrainingRequest ℚ} (hrequest : request.Uses m₀ F)
    (hroot : request.options.rootMeasure.Coherent) :
    ∃ bounds : List ℚ, (train solver budget request s).log.map (·.bound) = bounds.map .real ∧
      ∀ b ∈ bounds, m₀.sense.AtMost ((b : ℝ) : EReal)
        (m₀.rootValue W request.options.rootMeasure m₀.initial.profile) := by
  refine (train_keeps_and_logs hs (Model.keeps_below hm hsolver hdominates)
    (fun _ _ _ _ h => h.outgoing)
    (trainingKeeps_below hm hsolver hdominates hmeasures hrequest s · · hs)
    fun t t' b ht hbound => ?_).2
  rw [show t.model.initial = m₀.initial from congrArg (·.initial) ht.declaration] at hbound
  exact bound_atMost_rootValue hm hsolver hdominates hroot ht hbound

theorem below_afterAll {s : Session ℚ} (hs : m₀.Below W s.model) {calls : List (Call ℚ)}
    (hcalls : ∀ budget request, .train budget request ∈ calls → request.Uses m₀ F) :
    m₀.Below W (afterAll solver s calls).model :=
  afterAll_keeps (Model.keeps_below hm hsolver hdominates) (fun _ _ _ _ h => h.outgoing)
    (fun index _ => Model.throughout_prune (fun _ _ _ => Node.below_prune) index)
    (fun budget request hmem => trainingKeeps_below hm hsolver hdominates hmeasures
      (hcalls budget request hmem)) hs

end Below

/-- **Cuts and bounds are valid.** Take a model that was built from a graph that was built, without
parallel edges, negative probabilities or noise that fixes incoming copies, and values of the states
in which its nodes are left on which no step improves if the nodes weigh the steps with given
measures. After any calls, of which those that train use these measures, and however they end: every
cut that was recorded is at most the value of its node everywhere, and every bound, be it asked for
or logged in training, is at most what its measure makes of the steps at the root. -/
theorem valid_of_dominates {graph : Graph ℚ} {cuts : CutSettings ℚ} {sense : Datum ℚ}
    {plans : StagePlans ℚ} {m : Model ℚ} (hgraph : graph.Grown)
    (hbuild : Model.build graph cuts sense plans = .ok m)
    (hsingle : ∀ index n, m.nodes.get? index = some n → ∀ c, Edge.countTo n.children c ≤ 1)
    (hnoise : ∀ e ∈ m.nodes.entries, ∀ t ∈ e.2.stage.noise, 0 ≤ t.probability)
    (hfree : ∀ index n, m.nodes.get? index = some n → ∀ e ∈ n.stage.states.entries,
      ¬n.stage.Assignable (.fixed e.2.incoming.index))
    (hsolver : solver.Sound) (hmeasures : ∀ index n, m.nodes.get? index = some n → (F index).Built)
    (hdominates : m.Dominates F W)
    {draws : Draws ℚ} {clock stopwatch : Clock (Datum ℚ)} {calls : List (Call ℚ)}
    (hcalls : ∀ budget request, .train budget request ∈ calls → request.Uses m F)
    {s : Session ℚ} (hs : s = afterAll solver ⟨m, draws, clock, stopwatch⟩ calls) :
    (∀ index n, s.model.nodes.get? index = some n → ∀ c ∈ n.cuts.pool.cuts, ∀ y, Consistent y →
      m.sense.AtMost ((c.value y : ℝ) : EReal) (W index y)) ∧
    (∀ measure x b s', measure.Built → bound solver x measure s = .ok b s' →
      m.sense.AtMost ((b : ℝ) : EReal) (m.rootValue W measure x.profile)) ∧
    ∀ budget request, request.Uses m F → request.options.rootMeasure.Built →
      ∃ bounds : List ℚ, (train solver budget request s).log.map (·.bound) = bounds.map .real ∧
        ∀ b ∈ bounds, m.sense.AtMost ((b : ℝ) : EReal)
          (m.rootValue W request.options.rootMeasure m.initial.profile) := by
  have regular := Model.regular_of_build hgraph hbuild hsingle hnoise hfree
  have coherent : ∀ index n, m.nodes.get? index = some n → (F index).Coherent :=
    fun index n hn => (hmeasures index n hn).coherent
  have below : m.Below W s.model := hs ▸ below_afterAll regular hsolver hdominates coherent
    (Model.below_self regular) hcalls
  refine ⟨fun index n hn => ?_, fun measure x b s' hmeasure hb => ?_,
    fun budget request hrequest hmeasure => ?_⟩
  · obtain ⟨start, hstart, -⟩ := Model.get?_of_declaration_eq below.declaration.symm hn
    exact (below.node index start n hstart hn).cuts
  · exact bound_atMost_rootValue regular hsolver hdominates hmeasure.coherent below hb
  · exact train_below regular hsolver hdominates coherent below budget hrequest hmeasure.coherent

/-- One iteration of training on two stages that cost ten and eleven, with the value of the second
stage for what follows the first. -/
theorem valid_of_two_stages :
    ∃ (graph : Graph ℚ) (m : Model ℚ) (W : Datum ℚ → (Name → ℝ) → EReal)
      (request : TrainingRequest ℚ) (s t : Session ℚ) (n : Node ℚ) (c : Cut ℚ),
      Graph.ofEdges (.int 0) [.int 1, .int 2]
        [(.int 0, .int 1, .real 1), (.int 1, .int 2, .real 1)] [] = .ok graph ∧
      Model.build graph ⟨.finite 0, .posInf, 0⟩ (.text "min")
        ⟨[([.int 2], carrying 11)], carrying 10⟩ =
        .ok m ∧ carryingSolver.Sound ∧ m.Dominates (fun _ => .expectation) W ∧
      s = afterAll carryingSolver ⟨m, List.replicate 8 0, .ofReadings fun _ => .int 0,
        .ofReadings fun _ => .int 0⟩ [.train 1 request] ∧
      s.model.nodes.get? (.int 1) = some n ∧ n.cuts.pool.cuts = [c] ∧
      (∀ y, Consistent y → m.sense.AtMost ((c.value y : ℝ) : EReal) (W (.int 1) y)) ∧
      bound carryingSolver m.initial .expectation s = .ok 21 t ∧
      m.sense.AtMost (((21 : ℚ) : ℝ) : EReal) (m.rootValue W .expectation m.initial.profile) := by
  let clock : Clock (Datum ℚ) := .ofReadings fun _ => .int 0
  let request : TrainingRequest ℚ :=
    { options := { TrainingOptions.standard with iterationLimit := .int 1 } }
  let calls : List (Call ℚ) := [.train 1 request]
  have check : (do
      let graph ← Graph.ofEdges (.int 0) [.int 1, .int 2]
        [(.int 0, .int 1, .real 1), (.int 1, .int 2, .real 1)] []
      let m ← Model.build graph ⟨.finite 0, .posInf, 0⟩ (.text "min")
        ⟨[([.int 2], carrying 11)], carrying 10⟩
      let n ← ((afterAll carryingSolver ⟨m, List.replicate 8 0, clock, clock⟩
        calls).model.nodes.get? (.int 1)).elim (.error .missingKey) .ok
      let c ← n.cuts.pool.cuts.head?.elim (.error .missingKey) .ok
      let last ← (bound carryingSolver m.initial .expectation).answer
        (afterAll carryingSolver ⟨m, List.replicate 8 0, clock, clock⟩ calls)
      if m.sense = .min ∧ last.1 = 21 ∧ n.cuts.pool.cuts.length = 1 ∧
          (∀ e ∈ m.nodes.entries, ∀ t ∈ e.2.stage.noise, 0 ≤ t.probability) ∧
          (∀ e ∈ m.nodes.entries, e.2.costsSomething = true ∧ e.2.children.length ≤ 1) ∧
          (∀ e ∈ m.nodes.entries, ∀ f ∈ e.2.children, ∀ g ∈ m.nodes.entries,
            (g.1 == f.child) = true → g.2.children.isEmpty = true)
        then return () else .error .missingKey : Except (Failure ℚ) Unit).toBool = true := by
    decide +kernel
  simp only [Except.toBool_bind, Except.toBool_ite, Except.elim_eq_ok, Action.answer_eq_ok] at check
  obtain ⟨graph, hgraph, m, hm, n, hn, c, hc, last, asked, hsense, hvalue, hlength, hnoise,
    hnodes, hends⟩ := check
  have costs : ∀ index k, m.nodes.get? index = some k →
      k.costsSomething = true ∧ k.children.length ≤ 1 := by
    intro index k hk
    obtain ⟨e, he, -, rfl⟩ := Dict.exists_mem_of_get? hk
    exact hnodes e he
  have single : ∀ index k, m.nodes.get? index = some k → ∀ d, Edge.countTo k.children d ≤ 1 :=
    fun index k hk d => (List.length_filter_le _ _).trans (costs index k hk).2
  have free : ∀ index k, m.nodes.get? index = some k → ∀ e ∈ k.stage.states.entries,
      ¬k.stage.Assignable (.fixed e.2.incoming.index) := by
    rintro index k hk - - ⟨edit, hedit, -⟩
    rw [List.isEmpty_iff.1 (Bool.and_eq_true_iff.1 (costs index k hk).1).1] at hedit
    cases hedit
  have regular := Model.regular_of_build (.ofEdges hgraph) hm single hnoise free
  -- only leaves follow the first node
  have ends : ∀ index, m.EndsWithin 1 index := by
    intro index k hk f hf k' hk'
    obtain ⟨e, he, -, rfl⟩ := Dict.exists_mem_of_get? hk
    obtain ⟨g, hg, heq, rfl⟩ := Dict.exists_mem_of_get? hk'
    exact hends e he f hf g hg heq
  have dominates : m.Dominates (fun _ => .expectation) (m.costToGo (fun _ => .expectation) 1) := by
    refine Model.dominates_costToGo (fun _ _ _ => rfl) ends fun index k hk => ?_
    obtain ⟨-, settings⟩ := Model.blank_of_build hm hk
    rw [hsense]
    exact Node.values_of_nonneg (by rw [settings]) (by rw [settings])
      (Model.nonneg_costToGo regular hsense (fun i j hj => (costs i j hj).1)
        (fun _ _ _ => Measure.coherent_expectation) index)
      (Model.costToGo_of_isEmpty hk)
  have uses : ∀ budget r, .train budget r ∈ calls → TrainingRequest.Uses r m fun _ =>
      .expectation := by
    intro budget r hr measures hmeasures index k measure _ hget
    cases List.mem_singleton.1 hr
    cases hmeasures
    obtain ⟨e, he, -, rfl⟩ := Dict.exists_mem_of_get? hget
    obtain ⟨_, -, rfl⟩ := List.mem_map.1 he
    rfl
  have cuts : n.cuts.pool.cuts = [c] := by
    obtain ⟨d, hd⟩ := List.length_eq_one_iff.1 hlength
    rw [hd] at hc ⊢
    rw [Option.some.inj hc]
  have sound : carryingSolver.Sound := Solver.sound_certified _
  rw [hvalue] at asked
  obtain ⟨valid, bounded, -⟩ := valid_of_dominates (.ofEdges hgraph) hm single hnoise free sound
    (fun _ _ _ => .expectation) dominates uses rfl
  exact ⟨graph, m, _, request, _, last.2, n, c, hgraph, hm, sound, dominates, rfl,
    hn, cuts, valid _ n hn c (by rw [cuts]; simp), asked,
    bounded _ _ 21 last.2 .expectation asked⟩

end Session

end Multistage
