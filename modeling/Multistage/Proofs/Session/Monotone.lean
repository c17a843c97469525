import Multistage.Proofs.Model.Throughout
import Multistage.Proofs.Node.Monotone
import Multistage.Proofs.Risk.Coherent
import Multistage.Proofs.Session.Steps

/-!
# Bounds of a growing model

As long as no cut is taken out, nodes only get further constraints. A bound that is computed later,
at the same state and with the same measure at the root, is therefore no worse.

## Main definitions

- `Model.HasRows`: the nodes have the constraints that they had in an earlier model.

## Main statements

- `Model.keeps_hasRows`: what the solutions of such nodes are.
- `Session.bound_atMost`: the bounds of two models of which the later one has the constraints of the
  earlier one.
-/

namespace Multistage

variable {solver : Solver ℚ} {m₀ m₁ m : Model ℚ} {exact : Prop}

namespace Model

/-- Every node has the constraints that it has in the model `m₁`, and no others if `exact`. -/
def HasRows (m₀ m₁ : Model ℚ) (exact : Prop) : Model ℚ → Prop :=
  m₀.Throughout fun index start n => ∀ n₁, m₁.nodes.get? index = some n₁ →
    Node.Used m₀.sense start (start.later n₁) n ∧ (exact → start.later n = start.later n₁)

/-- The solution is that of a node with the constraints that it has in the model `m₁`, and no others
if `exact`. -/
def RowsSolved (solver : Solver ℚ) (m₀ m₁ : Model ℚ) (exact : Prop) (needsDuals : Bool)
    (index noise : Datum ℚ) (state : State ℚ) (s : Solution ℚ) : Prop :=
  ∀ start n₁, m₀.nodes.get? index = some start → m₁.nodes.get? index = some n₁ →
    ∃ m n', Node.Ready m₀.sense start (start.later n₁) state noise m ∧
      (exact → start.later m = start.later n₁) ∧ Node.Solved solver needsDuals m s n'

/-- Nodes that were built have no such constraints. -/
theorem hasRows_of_used (h : m₀.Throughout (fun _ start n => Node.Used m₀.sense start [] n) m) :
    HasRows m₀ m₀ False m := by
  refine ⟨h.declaration, fun index start n hs hn start' hs' => ⟨?_, False.elim⟩⟩
  cases hs.symm.trans hs'
  rw [Node.later, Node.rowCount, List.drop_length]
  exact h.node index start n hs hn

/-- A model in use has its own constraints. -/
theorem hasRows_self (h : HasRows m₀ m₀ False m) : HasRows m₀ m exact m := by
  refine ⟨h.declaration, fun index start n hs hn n₁ hn₁ => ?_⟩
  cases hn.symm.trans hn₁
  exact ⟨(h.node index start n hs hn start hs).1.now, fun _ => rfl⟩

variable (hblank : ∀ index start, m₀.nodes.get? index = some start → start.Blank)

include hblank

/-- Solves keep the constraints. -/
theorem keeps_hasRows : Keeps solver (HasRows m₀ m₁ exact) (RowsSolved solver m₀ m₁ exact) := by
  refine throughout_solve (fun index start hs noise state needsDuals => ?_) ?_
  · refine .of_forall fun n hn => ?_
    by_cases hn₁ : ∃ n₁, m₁.nodes.get? index = some n₁
    · obtain ⟨n₁, hn₁⟩ := hn₁
      obtain ⟨used, rows⟩ := hn n₁ hn₁
      have kept : ∀ n', Node.Used m₀.sense start (start.later n₁) n' → Node.SameCuts start n n' →
          ∀ k, m₁.nodes.get? index = some k →
            Node.Used m₀.sense start (start.later k) n' ∧
            (exact → start.later n' = start.later k) := by
        intro n' hn' same k hk
        cases hn₁.symm.trans hk
        exact ⟨hn', fun h => same.rows.trans (rows h)⟩
      refine (Node.triple_solve (hblank index start hs) used needsDuals).consequence
        (fun _ => id) ?_ ?_
      · rintro s n' ⟨⟨hn', same⟩, m, ready, same', solved⟩
        refine ⟨kept n' hn' same, fun start' k hs' hk => ?_⟩
        cases hs.symm.trans hs'
        cases hn₁.symm.trans hk
        exact ⟨m, n', ready, fun h => same'.rows.trans (rows h), solved⟩
      · rintro n' ⟨hn', same⟩
        exact kept n' hn' same
    · exact .of_cases (fun _ _ _ _ _ => ⟨fun n₁ h => absurd ⟨n₁, h⟩ hn₁,
        fun _ n₁ _ h => absurd ⟨n₁, h⟩ hn₁⟩) fun _ _ _ _ _ n₁ h => absurd ⟨n₁, h⟩ hn₁
  · intro needsDuals i j noise state s hij h start n₁ hs hn₁
    rw [Dict.get?_congr hij] at hs hn₁
    exact h start n₁ hs hn₁

omit hblank in
/-- Refinements add constraints. -/
theorem hasRows_refineAt (hblank : ∀ index start, m₀.nodes.get? index = some start → start.Blank)
    {settings : PassSettings ℚ} (index : Datum ℚ) (state : State ℚ) :
    Action.Ensures (Run.Keeping (HasRows m₀ m₁ False) settings) (Run.refineAt solver index state)
      fun _ => True := by
  have refined : ∀ other results probabilities,
      Action.Ensures (Run.Keeping (HasRows m₀ m₁ False) settings)
        (Run.refine other state results probabilities) fun _ => True := by
    refine fun other results probabilities => Run.throughout_refine fun j start measure _ hs _ => ?_
    refine .all fun n₁ => .all fun hn₁ => ?_
    exact Action.Triple.consequence (Node.used_refine measure state _ probabilities _)
      (fun _ => And.left) (fun _ _ h => ⟨⟨h.1, False.elim⟩, trivial⟩) fun _ h => ⟨h, False.elim⟩
  exact Run.ensures_refineAt (keeps_hasRows hblank) fun _ _ _ _ _ _ _ _ _ _ _ =>
    ⟨refined _ _ _, fun _ _ _ _ => refined _ _ _⟩

/-- With more constraints solutions are no better. -/
theorem RowsSolved.atMost (hsolver : solver.Sound) {index noise : Datum ℚ} {state : State ℚ}
    {needsDuals needsDuals' : Bool} {s s' : Solution ℚ} {start n₁ : Node ℚ}
    (hs : m₀.nodes.get? index = some start) (hn₁ : m₁.nodes.get? index = some n₁)
    (h : RowsSolved solver m₀ m₁ True needsDuals index noise state s)
    (h' : RowsSolved solver m₀ m₁ False needsDuals' index noise state s') :
    m₀.sense.AtMost s.objective s'.objective := by
  obtain ⟨m, _, ready, rows, solved⟩ := h start n₁ hs hn₁
  obtain ⟨m', _, ready', -, solved'⟩ := h' start n₁ hs hn₁
  have rows : m.stage.subproblem.constraints.drop start.rowCount = start.later n₁ := rows trivial
  exact ready.objective_atMost hsolver (hblank index start hs) ready' (rows ▸ ready'.rows) solved
    solved'

end Model

/-- Computed from the same state with the same measure, the bound of a model that has the
constraints of an earlier one is no worse. -/
theorem Session.bound_atMost (hsolver : solver.Sound)
    (hblank : ∀ index start, m₀.nodes.get? index = some start → start.Blank)
    (hedges : ∀ e ∈ m₀.rootChildren, 0 ≤ e.probability)
    (hnoise : ∀ e ∈ m₀.nodes.entries, ∀ t ∈ e.2.stage.noise, 0 ≤ t.probability)
    {measure : Measure ℚ} (hmeasure : measure.Coherent) {state : State ℚ} {s s' t t' : Session ℚ}
    {b b' : ℚ} (hs : m₀.HasRows m₀ False s.model)
    (ht : Model.HasRows m₀ s.model False t.model) (h : bound solver state measure s = .ok b s')
    (h' : bound solver state measure t = .ok b' t') : m₀.sense.AtMost b b' := by
  have own : Model.HasRows m₀ s.model True s.model := Model.hasRows_self hs
  obtain ⟨hexist, results, q, hall, hq, rfl⟩ := ((ensures_bound_of_declaration
    (Model.keeps_hasRows hblank) (fun _ => Model.Throughout.declaration) state measure).ok own h).2
  obtain ⟨-, results', q', hall', hq', rfl⟩ := ((ensures_bound_of_declaration
    (Model.keeps_hasRows hblank) (fun _ => Model.Throughout.declaration) state measure).ok ht h').2
  have worse : List.Forall₂ m₀.sense.AtMost (results.map (·.solution.objective))
      (results'.map (·.solution.objective)) := by
    rw [List.forall₂_map_left_iff, List.forall₂_map_right_iff]
    refine forall₂_comp (forall₂_with_mem hall).flip hall' fun c step c' h h' => ?_
    obtain ⟨e, he, t, -, rfl⟩ := Model.mem_steps.1 h.1
    obtain ⟨start, hstart⟩ := hexist e he
    obtain ⟨n₁, hn₁, -⟩ := hs.exists_node hstart
    exact h.2.solution.atMost hblank hsolver hstart hn₁ h'.solution
  refine hmeasure.dot_atMost ?_ ?_ worse hq hq'
  · intro p hp
    obtain ⟨step, hstep, rfl⟩ := List.mem_map.1 hp
    exact Model.steps_nonneg hedges hnoise step hstep
  · rw [List.length_map, List.length_map, hall.length_eq]

end Multistage
