import Multistage.Model
import Multistage.Proofs.Graph.Grown

/-!
# Models that were built

A model has a node for every node of its graph but the root, in the order of the graph, each built
from its plan with the edges of the graph.

## Main definitions

- `Model.BuiltNode`: how a node is built.

## Main statements

- `Model.nodes_of_build`: the nodes of a model that was built.
- `Model.distinct_of_build`: they are distinct.
-/

namespace Multistage

namespace Model

variable {α : Type} [Scalar α] {graph : Graph α} {settings : CutSettings α} {sense : Datum α}
  {plans : StagePlans α} {m : Model α}

/-- The node of an index was built from its plan: the stage, then the value term, then the
multipliers of its block. -/
def BuiltNode (graph : Graph α) (settings : CutSettings α) (plans : StagePlans α) (index : Datum α)
    (n : Node α) : Prop :=
  ∃ (owner : ℕ) (stage : Stage α) (k : Node α) (belief : Belief α),
    Stage.build index owner (plans.of index) = .ok stage ∧
    Node.ofStage settings (Edge.ofPairs (graph.nodes.getD index [])) stage = .ok k ∧
    k.observed graph.partition belief index = .ok n

/-- The nodes of a model that was built, in the order of its graph. -/
theorem nodes_of_build (h : build graph settings sense plans = .ok m) :
    m.nodes.keys = graph.staged ∧
      (∀ e ∈ m.nodes.entries, BuiltNode graph settings plans e.1 e.2) ∧
      senseOf sense = .ok m.sense ∧ graph.validate = .ok () ∧ m.root = graph.root ∧
      m.rootChildren = Edge.ofPairs (graph.nodes.getD graph.root []) := by
  unfold build at h
  obtain ⟨_, hvalid, h⟩ := Except.bind_eq_ok.1 h
  obtain ⟨s, hsense, h⟩ := Except.bind_eq_ok.1 h
  obtain ⟨stages, hstages, h⟩ := Except.bind_eq_ok.1 h
  obtain ⟨nodes, hnodes, h⟩ := Except.bind_eq_ok.1 h
  simp only at h
  split at h
  · cases h
  obtain ⟨observed, hobserved, h⟩ := Except.bind_eq_ok.1 h
  cases h
  -- every pass over the nodes keeps their indices and adds one part of a node
  have staged : ∀ (a : Datum α × ℕ) (b : Datum α × Stage α),
      (do return (a.1, ← Stage.build a.1 a.2 (plans.of a.1)) : Except (Failure α) _) = .ok b →
        b.1 = a.1 ∧ Stage.build b.1 a.2 (plans.of b.1) = .ok b.2 := by
    intro a b hab
    obtain ⟨s, hs, hab⟩ := Except.bind_eq_ok.1 hab
    cases hab
    exact ⟨rfl, hs⟩
  have added : ∀ (a : Datum α × Stage α) (b : Datum α × Node α),
      (do return (a.1, ← Node.ofStage settings (Edge.ofPairs (graph.nodes.getD a.1 [])) a.2) :
        Except (Failure α) _) = .ok b →
        b.1 = a.1 ∧ Node.ofStage settings (Edge.ofPairs (graph.nodes.getD b.1 [])) a.2 =
          .ok b.2 := by
    intro a b hab
    obtain ⟨s, hs, hab⟩ := Except.bind_eq_ok.1 hab
    cases hab
    exact ⟨rfl, hs⟩
  have watched : ∀ (belief : Belief α) (a b : Datum α × Node α),
      (do return (a.1, ← a.2.observed graph.partition belief a.1) : Except (Failure α) _) = .ok b →
        b.1 = a.1 ∧ a.2.observed graph.partition belief b.1 = .ok b.2 := by
    intro belief a b hab
    obtain ⟨s, hs, hab⟩ := Except.bind_eq_ok.1 hab
    cases hab
    exact ⟨rfl, hs⟩
  refine ⟨?_, ?_, hsense, hvalid, rfl, rfl⟩
  · show observed.map (·.1) = _
    rw [Except.map_eq_of_mapM hobserved fun a _ b hab => (watched _ a b hab).1,
      Except.map_eq_of_mapM hnodes fun a _ b hab => (added a b hab).1,
      Except.map_eq_of_mapM hstages fun a _ b hab => (staged a b hab).1]
    exact List.zipIdx_map_fst 0 graph.staged
  · intro e he
    obtain ⟨d, hd, hde⟩ := Except.exists_of_mem_mapM hobserved he
    obtain ⟨c, hc, hcd⟩ := Except.exists_of_mem_mapM hnodes hd
    obtain ⟨b, -, hbc⟩ := Except.exists_of_mem_mapM hstages hc
    obtain ⟨hindex, hwatched⟩ := watched _ d e hde
    obtain ⟨hindex', hadded⟩ := added c d hcd
    obtain ⟨-, hstaged⟩ := staged b c hbc
    rw [← hindex', ← hindex] at hstaged
    rw [← hindex] at hadded
    exact ⟨b.2, c.2, d.2, _, hstaged, hadded, hwatched⟩

theorem distinct_of_build (hg : graph.Grown) (h : build graph settings sense plans = .ok m) :
    m.nodes.Distinct := by
  rw [Dict.distinct_iff_keys, (nodes_of_build h).1]
  exact (Dict.distinct_iff_keys.1 hg.distinct).filter _

end Model

end Multistage
