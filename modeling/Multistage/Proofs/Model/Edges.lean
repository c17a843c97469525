import Mathlib.Algebra.Order.Ring.Rat
import Multistage.Proofs.Action
import Multistage.Proofs.Model.Build
import Multistage.Proofs.Scalar.Ordered

/-!
# Edges and noise terms of models that were built

A model keeps the edges of its graph, whose probabilities were checked, and a node keeps the noise
terms of its stage.

## Main statements

- `Model.children_of_built`, `Model.noise_of_built`: the edges and the noise terms of a node.
- `Graph.validateEdges_eq_ok`: edges pass their check iff they are a sub-distribution.
- `Model.edges_nonneg`: no edge has a negative probability.
-/

namespace Multistage

namespace Node

variable {α : Type} [Scalar α] {settings : CutSettings α} {children : List (Edge α)}
  {stage : Stage α} {k n : Node α} {partition : List (List (Datum α))} {belief : Belief α}
  {index : Datum α}

theorem children_ofStage (h : ofStage settings children stage = .ok k) : k.children = children := by
  unfold ofStage at h
  simp only at h
  split at h
  · cases h
    rfl
  · cases h

theorem noise_ofStage (h : ofStage settings children stage = .ok k) :
    k.stage.noise = stage.noise := by
  have added : ∀ lower upper : Except (Failure α) (Extended α), Action.Ensures
      (fun s : Stage α => s.noise = stage.noise)
      (Stage.onSubproblem (Subproblem.addVariable .null lower upper)) fun _ => True := by
    intro lower upper
    unfold Stage.onSubproblem
    exact .elsewhere _ fun _ _ h => h
  unfold ofStage at h
  simp only at h
  split at h
  next hrun =>
    cases h
    exact ((added _ _).ok rfl hrun).1
  next => cases h

/-- Multipliers change neither the edges of a node nor its noise terms. -/
theorem kept_observed (h : k.observed partition belief index = .ok n) :
    n.children = k.children ∧ n.stage.noise = k.stage.noise := by
  let I : Node α → Prop := fun n => n.children = k.children ∧ n.stage.noise = k.stage.noise
  have added : ∀ (position : ℕ) (members : List (Datum α)),
      Action.Ensures I (addMultipliers position members belief) fun _ => True := by
    intro position members
    refine .bind (R := fun _ => True) ?_ fun _ _ => .modify fun _ h => h
    refine .weaken (.mapM (S := fun _ _ => True) fun member _ => ?_) fun _ _ => trivial
    refine .bind (R := fun _ => True) ?_ fun _ _ => .pure trivial
    unfold onSubproblem onStage Stage.onSubproblem
    refine .focus (J := fun s => s.noise = k.stage.noise) ?_ (fun _ h => h.2)
      fun _ _ h hs => ⟨h.1, hs⟩
    exact .elsewhere _ fun _ _ h => h
  unfold observed at h
  split at h
  · cases h
    exact ⟨rfl, rfl⟩
  · split at h
    next hrun =>
      cases h
      exact ((added _ _).ok (show I k from ⟨rfl, rfl⟩) hrun).1
    next => cases h

end Node

namespace Graph

variable {α : Type} [Scalar α]

/-- The edges of a graph that passes its checks pass theirs. -/
theorem validateEdges_of_validate {graph : Graph α} (h : graph.validate = .ok ()) (node : Datum α) :
    ∃ index, validateEdges index (graph.nodes.getD node []) = .ok () := by
  obtain ⟨_, hedges, -⟩ := Except.bind_eq_ok.1 h
  unfold Dict.getD
  cases hn : graph.nodes.get? node with
  | none => exact ⟨node, rfl⟩
  | some pairs =>
    obtain ⟨e, he, -, rfl⟩ := Dict.exists_mem_of_get? hn
    exact ⟨e.1, Except.forM_eq_ok.1 hedges e he⟩

section

variable [Scalar.Ordered α]

theorem zero_le_limit : (0 : α) ≤ 1 + probabilityTolerance :=
  Scalar.add_nonneg Scalar.Ordered.zero_le_one
    (Scalar.Ordered.ofRat_nonneg (Rat.mkRat_nonneg (by decide) _))

/-- The edges that leave a node pass their check iff they are a sub-distribution. -/
theorem validateEdges_eq_ok {node : Datum α} {children : List (Datum α × α)} :
    validateEdges node children = .ok () ↔
      (∀ c ∈ children, 0 ≤ c.2) ∧ Scalar.sum (children.map (·.2)) ≤ 1 + probabilityTolerance := by
  unfold validateEdges
  by_cases hempty : children = []
  · subst hempty
    exact ⟨fun _ => ⟨nofun, zero_le_limit⟩, fun _ => rfl⟩
  rw [if_neg (by simpa using hempty)]
  simp only [Bool.not_eq_true', Bool.and_eq_false_iff, decide_eq_false_iff_not]
  constructor
  · intro h
    split at h
    · cases h
    next hsum =>
      split at h
      · cases h
      next hnegative =>
        obtain ⟨hlower, hupper⟩ := not_or.1 hsum
        refine ⟨fun c hc => Scalar.nonneg_iff.2 ⟨?_, fun hlt => ?_⟩, not_not.1 hupper⟩
        · have number := Scalar.isNumber_iff.2 (Scalar.Ordered.refl_of_le (not_not.1 hlower)).2
          exact Scalar.isNumber_of_sum number c.2 (List.mem_map_of_mem hc)
        · exact hnegative (List.any_eq_true.2 ⟨c, hc, decide_eq_true hlt⟩)
  · rintro ⟨hnonneg, hupper⟩
    have hlower := Scalar.sum_nonneg (List.forall_mem_map.2 hnonneg)
    rw [if_neg (not_or.2 ⟨not_not.2 hlower, not_not.2 hupper⟩), if_neg]
    intro hany
    obtain ⟨c, hc, hlt⟩ := List.any_eq_true.1 hany
    exact (Scalar.nonneg_iff.1 (hnonneg c hc)).2 (of_decide_eq_true hlt)

end

end Graph

namespace Model

section

variable {α : Type} [Scalar α] {graph : Graph α} {settings : CutSettings α} {plans : StagePlans α}
  {index : Datum α} {n : Node α}

theorem children_of_built (h : BuiltNode graph settings plans index n) :
    n.children = Edge.ofPairs (graph.nodes.getD index []) := by
  obtain ⟨_, _, _, _, -, hk, hn⟩ := h
  rw [(Node.kept_observed hn).1, Node.children_ofStage hk]

theorem noise_of_built (h : BuiltNode graph settings plans index n) :
    ∃ owner stage, Stage.build index owner (plans.of index) = .ok stage ∧
      n.stage.noise = stage.noise := by
  obtain ⟨owner, stage, _, _, hstage, hk, hn⟩ := h
  exact ⟨owner, stage, hstage, (Node.kept_observed hn).2.trans (Node.noise_ofStage hk)⟩

end

variable {graph : Graph ℚ} {settings : CutSettings ℚ} {sense : Datum ℚ} {plans : StagePlans ℚ}
  {m : Model ℚ}

/-- In a graph that passes its checks no edge has a negative probability. -/
theorem nonneg_of_validate (h : graph.validate = .ok ()) (node : Datum ℚ) :
    ∀ e ∈ Edge.ofPairs (graph.nodes.getD node []), 0 ≤ e.probability := by
  obtain ⟨_, hvalid⟩ := Graph.validateEdges_of_validate h node
  exact List.forall_mem_map.2 (Graph.validateEdges_eq_ok.1 hvalid).1

theorem edges_nonneg (h : build graph settings sense plans = .ok m) :
    (∀ e ∈ m.nodes.entries, ∀ f ∈ e.2.children, 0 ≤ f.probability) ∧
      ∀ f ∈ m.rootChildren, 0 ≤ f.probability := by
  obtain ⟨-, hbuilt, -, hvalid, -, hroot⟩ := nodes_of_build h
  constructor
  · intro e he
    rw [children_of_built (hbuilt e he)]
    exact nonneg_of_validate hvalid e.1
  · rw [hroot]
    exact nonneg_of_validate hvalid graph.root

end Model

end Multistage
