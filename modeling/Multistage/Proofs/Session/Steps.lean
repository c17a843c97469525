import Multistage.Proofs.Risk.Adjustment
import Multistage.Proofs.Training.Similar

/-!
# The outcomes of a step

Which outcomes a step has is declared, so that they are the same whenever a session solves them.

## Main definitions

- `Model.steps`: the outcomes of a step along edges.

## Main statements

- `Session.steps_of_outcomes`: the outcomes that a session solves.
- `Session.ensures_bound_of_declaration`: the bound as a weighted sum over the outcomes at the root.
-/

namespace Multistage

/-- The outcomes of a step along edges: the children, their noise terms and the probabilities. -/
def Model.steps (m : Model ℚ) (edges : List (Edge ℚ)) : List (Datum ℚ × NoiseTerm ℚ × ℚ) :=
  edges.flatMap fun e => (m.noiseOf e.child).map fun t =>
    (e.child, t, e.probability * t.probability)

variable {m₀ m : Model ℚ} {edges : List (Edge ℚ)} {solver : Solver ℚ} {I : Model ℚ → Prop}
  {R : Bool → Datum ℚ → Datum ℚ → State ℚ → Solution ℚ → Prop}

theorem Model.mem_steps {step : Datum ℚ × NoiseTerm ℚ × ℚ} :
    step ∈ m.steps edges ↔ ∃ e ∈ edges, ∃ t ∈ m.noiseOf e.child,
      (e.child, t, e.probability * t.probability) = step := by
  simp only [steps, List.mem_flatMap, List.mem_map]

theorem Model.exists_of_mem_noiseOf {c : Datum ℚ} {t : NoiseTerm ℚ} (ht : t ∈ m.noiseOf c) :
    ∃ e ∈ m.nodes.entries, t ∈ e.2.stage.noise := by
  unfold noiseOf at ht
  cases hn : m.nodes.get? c with
  | none => simp [hn] at ht
  | some n =>
    rw [hn] at ht
    obtain ⟨e, he, -, rfl⟩ := Dict.exists_mem_of_get? hn
    exact ⟨e, he, ht⟩

theorem Model.steps_nonneg (hedges : ∀ e ∈ edges, 0 ≤ e.probability)
    (hnoise : ∀ e ∈ m.nodes.entries, ∀ t ∈ e.2.stage.noise, 0 ≤ t.probability) :
    ∀ step ∈ m.steps edges, 0 ≤ step.2.2 := by
  intro step hstep
  obtain ⟨e, he, t, ht, rfl⟩ := mem_steps.1 hstep
  obtain ⟨n, hn, hmem⟩ := exists_of_mem_noiseOf ht
  exact mul_nonneg (hedges e he) (hnoise n hn t hmem)

namespace Session

/-- The outcomes that a session solves are those that were declared, and the children exist. -/
theorem steps_of_outcomes (hdecl : m.declaration = m₀.declaration)
    {steps : List (Datum ℚ × NoiseTerm ℚ × ℚ)} (h : outcomes m edges = .ok steps) :
    steps = m₀.steps edges ∧ ∀ e ∈ edges, ∃ n, m₀.nodes.get? e.child = some n := by
  obtain ⟨hexist, hflat⟩ := outcomes_eq_ok h
  refine ⟨?_, fun e he => ?_⟩
  · rw [hflat, Model.steps]
    simp only [Model.noiseOf_declaration hdecl]
  · obtain ⟨n, hn⟩ := hexist e he
    obtain ⟨n', hn', -⟩ := Model.node_of_declaration_eq hdecl.symm hn
    exact ⟨n', (Model.node_eq_ok.1 hn').2⟩

/-- The solutions of outcomes have the probabilities of the outcomes. -/
theorem probabilities_of_solves {S : Datum ℚ → Datum ℚ → Solution ℚ → Prop}
    {steps : List (Datum ℚ × NoiseTerm ℚ × ℚ)} {results : List (ChildSolution ℚ)}
    (h : List.Forall₂ (Solves S) steps results) :
    results.map (·.probability) = steps.map (·.2.2) := by
  induction h with
  | nil => rfl
  | cons hc _ ih => rw [List.map_cons, List.map_cons, ih, hc.probability]

/-- The bound weighs the solutions of the outcomes at the root. -/
theorem ensures_bound_of_declaration (h : Model.Keeps solver I R)
    (hdecl : ∀ m, I m → m.declaration = m₀.declaration) (state : State ℚ) (measure : Measure ℚ) :
    Action.Ensures (fun s : Session ℚ => I s.model) (bound solver state measure) fun v =>
      (∀ e ∈ m₀.rootChildren, ∃ n, m₀.nodes.get? e.child = some n) ∧ ∃ results q,
        List.Forall₂ (Solves fun child noise => R true child noise state)
          (m₀.steps m₀.rootChildren) results ∧
        measure.adjust m₀.sense ((m₀.steps m₀.rootChildren).map (·.2.2))
          (results.map (·.solution.objective)) = .ok q ∧
        v = Scalar.dot q (results.map (·.solution.objective)) := by
  refine (ensures_bound h state measure).weaken ?_
  rintro v ⟨m, m', steps, results, q, hm, hm', hsteps, hall, hq, rfl⟩
  obtain ⟨rfl, hexist⟩ := steps_of_outcomes (hdecl m' hm') hsteps
  rw [show m.rootChildren =
    m₀.rootChildren from congrArg (·.rootChildren) (hdecl m hm)] at hexist hall
  rw [probabilities_of_solves hall,
    show m.sense = m₀.sense from congrArg (·.sense) (hdecl m hm)] at hq
  exact ⟨hexist, results, q, hall, hq, by rw [Scalar.dotInLanes_eq_dot, Scalar.dot_comm]⟩

end Session

end Multistage
