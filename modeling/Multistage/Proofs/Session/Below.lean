import Mathlib.Algebra.Order.Ring.Rat
import Multistage.Proofs.Model.Throughout
import Multistage.Proofs.Node.Below
import Multistage.Proofs.Session.Steps

/-!
# Values that no step improves on

Functions of the states in which nodes are left are values that no step improves on if, at every
node, the risk measure of the node weighs the steps that can follow at most as the function says.
Cuts that are at most such values at the children make cuts that are at most such values.

## Main definitions

- `Model.stepValue`, `Model.weighing`: the value of a step to a child, and those of all steps along
  edges.
- `Model.Dominates`: values that no step improves on.
- `Model.Below`: a model whose cuts are at most such values.

## Main statements

- `Model.keeps_below`: what the solutions of such a model are.
- `Model.newCut_atMost`: the cuts of a visited node and of a node that is similar to it.
- `Model.below_refineAt`: refinements keep the cuts at most the values.
-/

namespace Multistage

namespace Model

/-- The value of a step to a child, for values of what follows. -/
noncomputable def stepValue (m : Model ℚ) (W : Datum ℚ → (Name → ℝ) → EReal) (child noise : Datum ℚ)
    (y : Name → ℝ) : EReal :=
  match m.nodes.get? child with
  | some n => n.stepValue m.sense (W child) y noise
  | none => 0

/-- The values of the steps along edges with weights, for every noise term of the child. -/
noncomputable def weighing (m : Model ℚ) (W : Datum ℚ → (Name → ℝ) → EReal) (weight : Edge ℚ → ℚ)
    (edges : List (Edge ℚ)) (y : Name → ℝ) : List (ℚ × EReal) :=
  edges.flatMap fun e => (m.noiseOf e.child).map fun t =>
    (weight e * t.probability, m.stepValue W e.child t.term y)

/-- A model as it was built, in which no probabilities are negative, no two edges are parallel, and
the noise does not fix incoming copies. -/
structure Regular (m : Model ℚ) : Prop where
  distinct : m.nodes.Distinct
  blank : ∀ index n, m.nodes.get? index = some n → n.Blank
  edges_nonneg : ∀ index n, m.nodes.get? index = some n → ∀ e ∈ n.children, 0 ≤ e.probability
  root_nonneg : ∀ e ∈ m.rootChildren, 0 ≤ e.probability
  noise_nonneg : ∀ e ∈ m.nodes.entries, ∀ t ∈ e.2.stage.noise, 0 ≤ t.probability
  single : ∀ index n, m.nodes.get? index = some n → ∀ c, Edge.countTo n.children c ≤ 1
  free : ∀ index n, m.nodes.get? index = some n → ∀ e ∈ n.stage.states.entries,
    ¬n.stage.Assignable (.fixed e.2.incoming.index)

/-- Values of the states in which nodes are left, one function for each node, on which no step
improves if the risk measures of the nodes weigh the steps. -/
structure Dominates (m : Model ℚ) (F : Datum ℚ → Measure ℚ) (W : Datum ℚ → (Name → ℝ) → EReal) :
    Prop where
  congr : ∀ i j, (i == j) = true → W i = W j
  values : ∀ index n, m.nodes.get? index = some n → n.Values m.sense (W index)
  step : ∀ index n, m.nodes.get? index = some n → n.children.isEmpty = false → ∀ y, Consistent y →
    m.sense.AtMost ((F index).riskOf m.sense (m.weighing W (·.probability) n.children y))
      (W index y)

/-- The model is in use, and the cuts of its nodes are at most the values. -/
def Below (m₀ : Model ℚ) (W : Datum ℚ → (Name → ℝ) → EReal) : Model ℚ → Prop :=
  m₀.Throughout fun index start n => Node.Below m₀.sense start (W index) n

/-- The solution is at most the value of the step. -/
def Underestimates (m₀ : Model ℚ) (W : Datum ℚ → (Name → ℝ) → EReal) (needsDuals : Bool)
    (index noise : Datum ℚ) (x : State ℚ) (s : Solution ℚ) : Prop :=
  Node.Underestimates m₀.sense (m₀.stepValue W index noise) needsDuals x s

variable {m₀ m : Model ℚ} {W : Datum ℚ → (Name → ℝ) → EReal} {F : Datum ℚ → Measure ℚ}
  {solver : Solver ℚ} {weight : Edge ℚ → ℚ} {edges own : List (Edge ℚ)} {y : Name → ℝ}

theorem regular_of_build {graph : Graph ℚ} {cuts : CutSettings ℚ} {sense : Datum ℚ}
    {plans : StagePlans ℚ} (hgraph : graph.Grown) (h : build graph cuts sense plans = .ok m)
    (hsingle : ∀ index n, m.nodes.get? index = some n → ∀ c, Edge.countTo n.children c ≤ 1)
    (hnoise : ∀ e ∈ m.nodes.entries, ∀ t ∈ e.2.stage.noise, 0 ≤ t.probability)
    (hfree : ∀ index n, m.nodes.get? index = some n → ∀ e ∈ n.stage.states.entries,
      ¬n.stage.Assignable (.fixed e.2.incoming.index)) : m.Regular where
  distinct := distinct_of_build hgraph h
  blank _ _ hn := (blank_of_build h hn).1
  edges_nonneg index n hn := by
    obtain ⟨e, he, -, rfl⟩ := Dict.exists_mem_of_get? hn
    exact (edges_nonneg h).1 e he
  root_nonneg := (edges_nonneg h).2
  noise_nonneg := hnoise
  single := hsingle
  free := hfree

theorem stepValue_congr (hW : ∀ i j, (i == j) = true → W i = W j) {i j : Datum ℚ}
    (hij : (i == j) = true) (noise : Datum ℚ) :
    m₀.stepValue W i noise = m₀.stepValue W j noise := by
  funext y
  rw [stepValue, stepValue, Dict.get?_congr hij, hW i j hij]

/-! ### Weighing steps -/

theorem probabilities_weighing : (m.weighing W weight edges y).map (·.1) =
    edges.flatMap fun e => (m.noiseOf e.child).map fun t => weight e * t.probability := by
  rw [weighing, List.map_flatMap]
  simp only [List.map_map, Function.comp_def]

/-- What is related to the values of steps is related to them with weights. -/
theorem forall₂_weighing {β : Type} {P : β → EReal → Prop} {xs : List β}
    (h : List.Forall₂ (fun b step => P b (m.stepValue W step.1 step.2.1.term y)) xs
      (m.steps edges)) :
    List.Forall₂ (fun b o => P b o.2) xs (m.weighing W weight edges y) := by
  have values : (m.weighing W weight edges y).map (·.2) =
      (m.steps edges).map fun step => m.stepValue W step.1 step.2.1.term y := by
    rw [weighing, steps, List.map_flatMap, List.map_flatMap]
    simp only [List.map_map, Function.comp_def]
  rw [← List.forall₂_map_right_iff (f := fun o : ℚ × EReal => o.2), values]
  exact List.forall₂_map_right_iff.2 h

theorem probabilities_of_steps {S : Datum ℚ → Datum ℚ → Solution ℚ → Prop}
    {results : List (ChildSolution ℚ)}
    (hall : List.Forall₂ (Session.Solves S) (m.steps edges) results) :
    results.map (·.probability) =
      edges.flatMap fun e => (m.noiseOf e.child).map fun t => e.probability * t.probability := by
  rw [Session.probabilities_of_solves hall, steps, List.map_flatMap]
  simp only [List.map_map, Function.comp_def]

theorem sum_weighing (g : EReal → ℚ) :
    ((m.weighing W weight edges y).map fun o => o.1 * g o.2).sum = (edges.map fun e => weight e *
      ((m.noiseOf e.child).map fun t =>
        t.probability * g (m.stepValue W e.child t.term y)).sum).sum := by
  induction edges with
  | nil => rfl
  | cons e rest ih =>
    rw [weighing] at ih ⊢
    rw [List.flatMap_cons, List.map_append, List.sum_append, ih, List.map_cons, List.sum_cons,
      List.map_map, ← List.sum_map_mul_left]
    simp only [Function.comp_def, mul_assoc]

theorem weighing_nonneg (hweight : ∀ e ∈ edges, 0 ≤ weight e)
    (hnoise : ∀ e ∈ m.nodes.entries, ∀ t ∈ e.2.stage.noise, 0 ≤ t.probability) :
    ∀ o ∈ m.weighing W weight edges y, 0 ≤ o.1 := by
  intro o ho
  obtain ⟨e, he, ho⟩ := List.mem_flatMap.1 ho
  obtain ⟨t, ht, rfl⟩ := List.mem_map.1 ho
  obtain ⟨n, hn, hmem⟩ := exists_of_mem_noiseOf ht
  exact mul_nonneg (hweight e he) (hnoise n hn t hmem)

/-- Steps along other edges to the same children have the same values. -/
theorem exists_mem_weighing (hW : ∀ i j, (i == j) = true → W i = W j) {weight' : Edge ℚ → ℚ}
    (hsub : ∀ e ∈ own, ∃ f ∈ edges, (f.child == e.child) = true) :
    ∀ o ∈ m.weighing W weight own y, ∃ o' ∈ m.weighing W weight' edges y, o'.2 = o.2 := by
  intro o ho
  obtain ⟨e, he, ho⟩ := List.mem_flatMap.1 ho
  obtain ⟨t, ht, rfl⟩ := List.mem_map.1 ho
  obtain ⟨f, hf, hfe⟩ := hsub e he
  refine ⟨_, List.mem_flatMap.2 ⟨f, hf, List.mem_map.2 ⟨t, ?_, rfl⟩⟩, ?_⟩
  · rw [m.noiseOf_congr hfe]
    exact ht
  · exact congrFun (stepValue_congr hW hfe t.term) y

/-- Without parallel edges the steps along the edges of a node, weighed by the edges of a node whose
children are among its own, have the law of the steps of that node. -/
theorem sameMeans_weighing (hW : ∀ i j, (i == j) = true → W i = W j)
    (hedges : ∀ c, Edge.countTo edges c ≤ 1) (hown : ∀ c, Edge.countTo own c ≤ 1)
    (hsub : ∀ e ∈ own, ∃ f ∈ edges, (f.child == e.child) = true) :
    SameMeans (m.weighing W (fun e => Edge.lastTo own e.child) edges y)
      (m.weighing W (·.probability) own y) := by
  intro g
  rw [sum_weighing, sum_weighing]
  refine sum_lastTo (g := fun c =>
    ((m.noiseOf c).map fun t => t.probability * g (m.stepValue W c t.term y)).sum)
    (fun c d hcd => ?_) hsub fun e he => ?_
  · simp only [m.noiseOf_congr hcd, stepValue_congr hW hcd]
  · obtain ⟨f, hf, hfe⟩ := hsub e he
    -- no two edges lead to the child
    have one : Edge.countTo edges e.child = 1 :=
      le_antisymm (hedges e.child) (Edge.countTo_pos hf hfe)
    rw [one, Nat.cast_one, one_mul, Edge.totalTo_eq_lastTo (hown e.child)]

/-! ### The cuts of a refinement -/

/-- A cut of solutions that are at most the values of steps is at most what the measure makes of
steps of the same law. -/
theorem value_newCut_atMost {sense : Sense} {measure : Measure ℚ} (hmeasure : measure.Coherent)
    {x : State ℚ} (hx : x.Distinct) {results : List (ChildSolution ℚ)}
    {outcomes ownOutcomes : List (ℚ × EReal)} (houtcomes : ∀ o ∈ outcomes, 0 ≤ o.1)
    (hown : ∀ o ∈ ownOutcomes, 0 ≤ o.1) (hmeans : SameMeans outcomes ownOutcomes)
    (hmem : ∀ o ∈ ownOutcomes, ∃ o' ∈ outcomes, o'.2 = o.2)
    (hresults : List.Forall₂ (fun r o => sense.AtMost
      (((r.solution.objective : ℝ) + x.moved r.solution.duals y : ℝ) : EReal) o.2) results outcomes)
    {c : Cut ℚ} {height : ℚ} (h : Node.newCut sense measure x (results.map (·.solution.duals))
      (outcomes.map (·.1)) (results.map (·.solution.objective)) = .ok (c, height))
    {t : EReal} (ht : sense.AtMost (measure.riskOf sense ownOutcomes) t) :
    sense.AtMost ((c.value y : ℝ) : EReal) t := by
  obtain ⟨q, hq, -, -, -, hvalue⟩ := Node.value_newCut hx h
  rw [hvalue, List.map_map, List.map_map, List.zipWith_map, List.zipWith_self]
  refine hmeasure.sum_atMost houtcomes hown hmeans hmem ?_ hq ?_ ht
  · rw [List.length_map, hresults.length_eq]
  · rw [List.forall₂_map_left_iff]
    exact hresults

/-! ### Models whose cuts are at most values -/

section Below

variable (hm : m₀.Regular) (hsolver : solver.Sound) (hdominates : m₀.Dominates F W)

include hm

theorem below_self : m₀.Below W m₀ :=
  throughout_self fun index start hs => Node.below_of_blank (hm.blank index start hs)

include hsolver hdominates

/-- Solutions are at most the values of steps. -/
theorem keeps_below : Keeps solver (m₀.Below W) (m₀.Underestimates W) := by
  refine throughout_solve (fun index start hs noise x needsDuals => ?_) fun hij h => ?_
  · refine (Node.below_solve hsolver (hm.blank index start hs) (hm.free index start hs)
      (hdominates.values index start hs) x noise needsDuals).weaken fun s h => ?_
    -- the value of a step of the model is that of its node as it was built
    have same : m₀.stepValue W index noise =
        fun y => start.stepValue m₀.sense (W index) y noise := by
      funext y
      rw [stepValue, hs]
    rw [Underestimates, same]
    exact h
  · rw [Underestimates, stepValue_congr hdominates.congr hij]
    exact h

variable (hmeasures : ∀ index n, m₀.nodes.get? index = some n → (F index).Coherent)

include hmeasures

omit hsolver in
/-- The cut of a node from solutions along edges to its children. -/
theorem newCut_atMost {index : Datum ℚ} {start : Node ℚ} (hs : m₀.nodes.get? index = some start)
    (hchildren : start.children.isEmpty = false) (hweight : ∀ e ∈ edges, 0 ≤ weight e)
    (hmeans : ∀ y, SameMeans (m₀.weighing W weight edges y)
      (m₀.weighing W (·.probability) start.children y))
    (hsub : ∀ e ∈ start.children, ∃ f ∈ edges, (f.child == e.child) = true)
    {x : State ℚ} (hx : x.Distinct) {results : List (ChildSolution ℚ)}
    (hall : List.Forall₂ (Session.Solves fun child noise => m₀.Underestimates W true child noise x)
      (m₀.steps edges) results) {probabilities : List ℚ}
    (hprobabilities : probabilities = edges.flatMap fun e =>
      (m₀.noiseOf e.child).map fun t => weight e * t.probability)
    {c : Cut ℚ} {height : ℚ} (h : Node.newCut m₀.sense (F index) x (results.map (·.solution.duals))
      probabilities (results.map (·.solution.objective)) = .ok (c, height)) :
    ∀ y, Consistent y → m₀.sense.AtMost ((c.value y : ℝ) : EReal) (W index y) := by
  intro y hy
  -- the cut weighs its solutions as the steps are weighed
  rw [hprobabilities, ← probabilities_weighing (m := m₀) (W := W) (y := y)] at h
  refine value_newCut_atMost (hmeasures index start hs) hx (weighing_nonneg hweight hm.noise_nonneg)
    (weighing_nonneg (hm.edges_nonneg index start hs) hm.noise_nonneg) (hmeans y)
    (exists_mem_weighing hdominates.congr hsub) ?_ h (hdominates.step index start hs hchildren y hy)
  exact forall₂_weighing (P := fun (r : ChildSolution ℚ) v => m₀.sense.AtMost
    (((r.solution.objective : ℝ) + x.moved r.solution.duals y : ℝ) : EReal) v)
    (hall.flip.imp fun r step hr => hr.solution.moved rfl hx y hy)

/-- Refinements of visited nodes and of the nodes that are similar to them keep cuts at most
values. -/
theorem below_refineAt {settings : PassSettings ℚ}
    (hF : ∀ index n measure, m₀.nodes.get? index = some n →
      settings.measures.get? index = some measure → measure = F index)
    (htransitions : settings.transitions = transitionMap m₀.nodes)
    (hsimilar : settings.similar = m₀.similar) (index : Datum ℚ) {x : State ℚ} (hx : x.Distinct) :
    Action.Ensures (Run.Keeping (m₀.Below W) settings) (Run.refineAt solver index x)
      fun _ => True := by
  refine Run.ensures_refineAt (keeps_below hm hsolver hdominates)
    fun m₁ m₂ n steps results h₁ hn hchildren h₂ hsteps hall => ?_
  obtain ⟨rfl, -⟩ := Session.steps_of_outcomes h₂.declaration hsteps
  -- the node as it was built
  obtain ⟨start, hstart, hdecl⟩ := get?_of_declaration_eq h₁.declaration.symm (node_eq_ok.1 hn).2
  have children : n.children = start.children := (congrArg (·.children) hdecl).symm
  rw [children] at hall hchildren
  refine ⟨Run.throughout_refine fun j start' measure hj hs hmeasure => ?_,
    fun others hothers other hother => Run.throughout_refine fun j k measure hj hk hmeasure => ?_⟩
  · rw [Dict.get?_congr hj] at hmeasure hstart
    cases hstart.symm.trans hs
    rw [hF j start measure hs hmeasure]
    exact Node.below_refine fun c height hcut => newCut_atMost hm hdominates hmeasures hs hchildren
      (hm.edges_nonneg j start hs) (fun y g => rfl) (fun e he => ⟨e, he, BEq.rfl⟩) hx hall
      (probabilities_of_steps hall) hcut
  · rw [hsimilar] at hothers
    obtain ⟨n₀, k', hn₀, hk', hsub⟩ := children_of_mem_similar hm.distinct hothers hother
    have hnonempty := isEmpty_of_mem_similar hm.distinct hothers hother hk'
    cases hstart.symm.trans hn₀
    have weights := Run.probabilitiesAt_eq_weightsOf hm.distinct hk' rfl hall htransitions
    rw [Dict.get?_congr hj] at hmeasure hk'
    cases hk'.symm.trans hk
    rw [hF j k measure hk hmeasure]
    exact Node.below_refine fun c height hcut => newCut_atMost hm hdominates hmeasures hk hnonempty
      (fun e _ => Edge.lastTo_nonneg (hm.edges_nonneg j k hk))
      (fun y => sameMeans_weighing hdominates.congr (hm.single _ _ hstart) (hm.single _ _ hk) hsub)
      hsub hx hall weights hcut

end Below

end Model

end Multistage
