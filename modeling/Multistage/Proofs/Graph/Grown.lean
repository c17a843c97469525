import Multistage.Graph
import Multistage.Proofs.Dict
import Multistage.Proofs.Except

/-!
# Graphs that can be built

A graph grows from its root by adding nodes, edges and blocks. However it has grown, its nodes are
distinct.

## Main definitions

- `Graph.Grown`: the graphs that can be built.

## Main statements

- `Graph.Grown.distinct`: the nodes of such a graph are distinct.
- `Graph.Grown.ofEdges`: the graph of a list of edges is one.
-/

namespace Multistage

namespace Graph

variable {α : Type} [Scalar α]

/-- The graph was built from its root by adding nodes, edges and blocks. -/
inductive Grown : Graph α → Prop where
  | root {root : Datum α} {g : Graph α} (h : ofRoot root = .ok g) : Grown g
  | node {g g' : Graph α} {node : Datum α} (before : Grown g)
    (h : g.addNode node = .ok g') : Grown g'
  | edge {g g' : Graph α} {parent child probability : Datum α} (before : Grown g)
      (h : g.addEdge parent child probability = .ok g') : Grown g'
  | block {g : Graph α} (block : List (Datum α)) (before : Grown g) : Grown (g.addBlock block)

variable {g g' : Graph α}

omit [Scalar α] in
theorem nodes_ofRoot {root : Datum α} (h : ofRoot root = .ok g) : g.nodes = ⟨[(root, [])]⟩ := by
  obtain ⟨_, -, h⟩ := Except.bind_eq_ok.1 h
  cases h
  rfl

theorem nodes_addNode {node : Datum α} (h : g.addNode node = .ok g') :
    g.nodes.contains node = false ∧ g'.nodes = g.nodes.insert node [] := by
  obtain ⟨_, -, h⟩ := Except.bind_eq_ok.1 h
  split at h
  · cases h
  · next hnew =>
    cases h
    simp only [Bool.or_eq_true, not_or, Bool.not_eq_true] at hnew
    exact ⟨hnew.1, rfl⟩

/-- An edge that is added is one more child of its parent. -/
theorem nodes_addEdge {parent child probability : Datum α}
    (h : g.addEdge parent child probability = .ok g') :
    ∃ p, g'.nodes = g.nodes.modify parent (· ++ [(child, p)]) := by
  obtain ⟨_, -, h⟩ := Except.bind_eq_ok.1 h
  split at h
  · cases h
  split at h
  · cases h
  obtain ⟨_, -, h⟩ := Except.bind_eq_ok.1 h
  split at h
  · cases h
  obtain ⟨p, -, h⟩ := Except.bind_eq_ok.1 h
  cases h
  exact ⟨p, rfl⟩

theorem Grown.distinct (h : g.Grown) : g.nodes.Distinct := by
  induction h with
  | root h =>
    rw [nodes_ofRoot h]
    exact List.pairwise_singleton _ _
  | node before h ih =>
    obtain ⟨hnew, hnodes⟩ := nodes_addNode h
    rw [hnodes]
    exact ih.insert
  | edge before h ih =>
    obtain ⟨p, hnodes⟩ := nodes_addEdge h
    rw [hnodes]
    exact ih.modify
  | block _ _ ih => exact ih

/-- Adding one item after the other stays among the graphs that can be built. -/
theorem Grown.foldlM {γ : Type} {add : Graph α → γ → Except (Failure α) (Graph α)}
    (hadd : ∀ {g g' c}, Grown g → add g c = .ok g' → Grown g') {items : List γ} (hg : g.Grown)
    (h : items.foldlM add g = .ok g') : g'.Grown := by
  induction items generalizing g with
  | nil =>
    cases h
    exact hg
  | cons c rest ih =>
    rw [List.foldlM_cons] at h
    obtain ⟨k, hk, h⟩ := Except.bind_eq_ok.1 h
    exact ih (hadd hg hk) h

/-- The graph of a list of edges can be built. -/
theorem Grown.ofEdges {root : Datum α} {nodes : List (Datum α)}
    {edges : List (Datum α × Datum α × Datum α)} {partition : List (List (Datum α))}
    (h : ofEdges root nodes edges partition = .ok g) : g.Grown := by
  obtain ⟨g₀, h₀, h⟩ := Except.bind_eq_ok.1 h
  obtain ⟨g₁, h₁, h⟩ := Except.bind_eq_ok.1 h
  obtain ⟨g₂, h₂, h⟩ := Except.bind_eq_ok.1 h
  cases h
  have blocks : ∀ (partition : List (List (Datum α))) (g : Graph α), g.Grown →
      (partition.foldl addBlock g).Grown := by
    intro partition
    induction partition with
    | nil => exact fun g hg => hg
    | cons block rest ih => exact fun g hg => ih (g.addBlock block) (.block block hg)
  exact blocks partition g₂ (((Grown.root h₀).foldlM .node h₁).foldlM .edge h₂)

end Graph

end Multistage
