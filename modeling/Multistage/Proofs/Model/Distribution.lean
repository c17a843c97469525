import Mathlib.Algebra.Order.BigOperators.Group.List
import Multistage.Proofs.Model.Edges
import Multistage.Proofs.Stage.Noise

/-!
# The distributions of models that were built

Over the numbers with infinities and not-a-number: the edges of a model that was built are
sub-distributions, whatever the probabilities of its graph are. Noise terms are distributions as
soon as their probabilities are non-negative, which nothing checks: negative ones are accepted, and
so is not-a-number.

## Main definitions

- `IsDistribution`, `IsSubdistribution`: probabilities that sum to one, and to at most one.

## Main statements

- `Stage.Passes.isDistribution`: what passes the check of noise terms is a distribution if it is
  non-negative.
- `Graph.isSubdistribution_of_validateEdges`: what passes the check of edges is a sub-distribution.
- `Model.distributions_of_build`: the noise terms and the edges of a model that was built.
-/

namespace Multistage

open Extended (finite)

/-- Numbers that are probabilities and sum to one, up to the tolerance. -/
def IsDistribution (ps : List (Extended ℚ)) : Prop :=
  ∃ qs : List ℚ, ps = qs.map finite ∧ (∀ q ∈ qs, 0 ≤ q ∧ q ≤ 1 + mkRat 1 1000000000) ∧
    |qs.sum - 1| ≤ mkRat 1 1000000000

/-- Non-negative numbers that sum to at most one, up to the tolerance. -/
def IsSubdistribution (ps : List (Extended ℚ)) : Prop :=
  ∃ qs : List ℚ, ps = qs.map finite ∧ (∀ q ∈ qs, 0 ≤ q) ∧ qs.sum ≤ 1 + mkRat 1 1000000000

/-- What passes the check of noise terms is a distribution if it is non-negative. -/
theorem Stage.Passes.isDistribution {ps : List (Extended ℚ)} (h : Passes ps)
    (hnonneg : ∀ p ∈ ps, 0 ≤ p) : IsDistribution ps := by
  rcases h with hnan | ⟨qs, rfl, hnear⟩
  · cases hnonneg _ hnan
  · have nonneg : ∀ q ∈ qs, 0 ≤ q := fun q hq =>
      Extended.finite_le.1 (hnonneg _ (List.mem_map_of_mem hq))
    refine ⟨qs, rfl, fun q hq => ⟨nonneg q hq, ?_⟩, hnear⟩
    calc q ≤ qs.sum := List.single_le_sum nonneg q hq
      _ ≤ 1 + mkRat 1 1000000000 := by linarith [(abs_le.1 hnear).2]

/-- What passes the check of edges is a sub-distribution. -/
theorem Graph.isSubdistribution_of_validateEdges {node : Datum (Extended ℚ)}
    {children : List (Datum (Extended ℚ) × Extended ℚ)} (h : validateEdges node children = .ok ()) :
    IsSubdistribution (children.map (·.2)) := by
  obtain ⟨hnonneg, hupper⟩ := validateEdges_eq_ok.1 h
  have hlower := Scalar.sum_nonneg (List.forall_mem_map.2 hnonneg)
  have tolerance : (1 + probabilityTolerance : Extended ℚ) = finite (1 + mkRat 1 1000000000) := rfl
  rw [tolerance] at hupper
  obtain ⟨q, hq, -, hle⟩ := Extended.exists_finite_of_le hlower hupper
  obtain ⟨qs, hqs, rfl⟩ := Extended.sum_eq_finite.1 hq
  refine ⟨qs, hqs, fun q hq => ?_, hle⟩
  obtain ⟨pair, hpair, heq⟩ := List.mem_map.1 (hqs ▸ List.mem_map_of_mem hq)
  exact Extended.finite_le.1 (heq ▸ hnonneg pair hpair)

namespace Model

variable {graph : Graph (Extended ℚ)} {settings : CutSettings (Extended ℚ)}
  {sense : Datum (Extended ℚ)} {plans : StagePlans (Extended ℚ)} {m : Model (Extended ℚ)}

theorem isSubdistribution_of_validate (h : graph.validate = .ok ()) (node : Datum (Extended ℚ)) :
    IsSubdistribution ((Edge.ofPairs (graph.nodes.getD node [])).map (·.probability)) := by
  obtain ⟨index, hvalid⟩ := Graph.validateEdges_of_validate h node
  have probabilities : (Edge.ofPairs (graph.nodes.getD node [])).map (·.probability) =
      (graph.nodes.getD node []).map (·.2) := List.map_map ..
  rw [probabilities]
  exact Graph.isSubdistribution_of_validateEdges hvalid

/-- Every node of a model that was built has noise terms. Their probabilities are a distribution
unless one is negative or not a number, and whatever is accepted sums to one or holds something that
is not a number. The edges of the nodes and of the root are sub-distributions. -/
theorem distributions_of_build (h : build graph settings sense plans = .ok m) :
    (∀ e ∈ m.nodes.entries, e.2.stage.noise ≠ [] ∧
      Stage.Passes (e.2.stage.noise.map (·.probability)) ∧
      ((∀ t ∈ e.2.stage.noise, 0 ≤ t.probability) →
        IsDistribution (e.2.stage.noise.map (·.probability))) ∧
      IsSubdistribution (e.2.children.map (·.probability))) ∧
    IsSubdistribution (m.rootChildren.map (·.probability)) := by
  obtain ⟨-, hbuilt, -, hvalid, -, hroot⟩ := nodes_of_build h
  constructor
  · intro e he
    obtain ⟨_, stage, hstage, hnoise⟩ := noise_of_built (hbuilt e he)
    have passes : Stage.Passes (e.2.stage.noise.map (·.probability)) := by
      rw [hnoise]
      exact Stage.noise_of_build hstage
    refine ⟨fun hnone => passes.ne_nil (by rw [hnone]; rfl), passes, fun hnonneg => ?_, ?_⟩
    · exact passes.isDistribution (List.forall_mem_map.2 hnonneg)
    · rw [children_of_built (hbuilt e he)]
      exact isSubdistribution_of_validate hvalid e.1
  · rw [hroot]
    exact isSubdistribution_of_validate hvalid graph.root

/-- Plans of stages that do nothing under noise of some probabilities. -/
def idle (probabilities : List (Extended ℚ)) : StagePlans (Extended ℚ) :=
  { rest := { noise := [(List.replicate probabilities.length .null,
      some (probabilities.map .real))] } }

/-- One stage under two equally likely realizations. -/
theorem distributions_of_one_stage : ∃ graph m, Graph.linear 1 = .ok graph ∧
    build graph .unbounded (.text "min") (idle [finite (1 / 2), finite (1 / 2)]) = .ok m ∧
    m.nodes.entries ≠ [] ∧
    ∀ e ∈ m.nodes.entries, IsDistribution (e.2.stage.noise.map (·.probability)) := by
  have check : (do
      let graph ← Graph.linear 1
      let m ← build graph .unbounded (.text "min") (idle [finite (1 / 2), finite (1 / 2)])
      if m.nodes.entries.isEmpty = false ∧
          (∀ e ∈ m.nodes.entries, ∀ t ∈ e.2.stage.noise, 0 ≤ t.probability) then return ()
        else .error .missingKey : Except (Failure (Extended ℚ)) Unit).toBool = true := by
    decide +kernel
  simp only [Except.toBool_bind, Except.toBool_ite] at check
  obtain ⟨graph, hgraph, m, hm, h⟩ := check
  refine ⟨graph, m, hgraph, hm, fun hnone => ?_, fun e he => ?_⟩
  · rw [hnone] at h
    cases h.1
  · exact ((distributions_of_build hm).1 e he).2.2.1 (h.2 e he)

-- what is negative and what is not a number is accepted
example : ((Graph.linear 1).bind fun graph => build graph .unbounded (.text "min")
    (idle [finite (3 / 2), finite (-1 / 2)])).toBool = true := by decide +kernel

example : ((Graph.linear 1).bind fun graph => build graph .unbounded (.text "min")
    (idle [.nan, .negInf])).toBool = true := by decide +kernel

end Model

end Multistage
