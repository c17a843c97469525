import Mathlib.Logic.Relation
import Multistage.Proofs.Model.Edges
import Multistage.Proofs.Session.Keeping

/-!
# Children of nodes

An edge is only added between nodes that exist, and none enters the root. The children in a model
that was built therefore all have nodes.

## Main definitions

- `Graph.Leads`, `Graph.Acyclic`: edges from node to node, and a graph without cycles.

## Main statements

- `Graph.Grown.child`: the children in a graph that was built are nodes other than the root.
- `Model.child_of_build`: the edges of a node are edges of the graph, and their children have nodes.
-/

namespace Multistage

variable {α : Type} [Scalar α]

namespace Graph

variable {g g' : Graph α}

/-- An edge leads from the first node to the second. -/
def Leads (g : Graph α) (i j : Datum α) : Prop :=
  ∃ pairs, g.nodes.get? i = some pairs ∧ ∃ c ∈ pairs, (c.1 == j) = true

/-- No path of edges leads back to where it began. -/
def Acyclic (g : Graph α) : Prop := ∀ i, ¬Relation.TransGen g.Leads i i

/-- Edges lead between nodes, not between the forms in which they are written. -/
theorem Leads.congr {i i' j j' : Datum α} (hi : (i == i') = true) (hj : (j == j') = true)
    (h : g.Leads i j) : g.Leads i' j' := by
  obtain ⟨pairs, hpairs, c, hc, hcj⟩ := h
  exact ⟨pairs, Dict.get?_congr hi ▸ hpairs, c, hc, BEq.trans hcj hj⟩

/-- A child is a node that can be looked up, and not the root. -/
structure IsChild (g : Graph α) (child : Datum α) : Prop where
  isKey : child.requireKey = .ok ()
  contained : g.nodes.contains child = true
  notRoot : child.equals g.root = false

/-- A child stays one as long as the nodes and the root do. -/
theorem IsChild.of_contains {child : Datum α} (h : g.IsChild child) (hroot : g'.root = g.root)
    (hnodes : ∀ node, g.nodes.contains node = true → g'.nodes.contains node = true) :
    g'.IsChild child :=
  ⟨h.isKey, hnodes child h.contained, hroot ▸ h.notRoot⟩

theorem root_addNode {node : Datum α} (h : g.addNode node = .ok g') : g'.root = g.root := by
  obtain ⟨_, -, h⟩ := Except.bind_eq_ok.1 h
  split at h
  · cases h
  · cases h
    rfl

/-- An edge is added to a child, under its parent. -/
theorem child_addEdge {parent child probability : Datum α}
    (h : g.addEdge parent child probability = .ok g') : g.IsChild child ∧ g'.root = g.root := by
  obtain ⟨_, -, h⟩ := Except.bind_eq_ok.1 h
  split at h
  · cases h
  split at h
  · cases h
  next hroot =>
    obtain ⟨_, hkey, h⟩ := Except.bind_eq_ok.1 h
    split at h
    · cases h
    next hcontains =>
      obtain ⟨p, -, h⟩ := Except.bind_eq_ok.1 h
      cases h
      exact ⟨⟨hkey, by simpa using hcontains, by simpa using hroot⟩, rfl⟩

/-- The children in a graph that was built are nodes other than the root. -/
theorem Grown.child (h : g.Grown) {i : Datum α} {pairs : List (Datum α × α)}
    (hi : g.nodes.get? i = some pairs) : ∀ c ∈ pairs, g.IsChild c.1 := by
  intro c hc
  induction h generalizing i pairs with
  | root h =>
    rw [nodes_ofRoot h] at hi
    obtain ⟨e, he, -, rfl⟩ := Dict.exists_mem_of_get? hi
    cases List.mem_singleton.1 he
    cases hc
  | @node g g' node before h ih =>
    obtain ⟨-, hnodes⟩ := nodes_addNode h
    rw [hnodes, Dict.get?_insert] at hi
    split at hi
    · cases hi
      cases hc
    · refine (ih hi hc).of_contains (root_addNode h) fun k hk => ?_
      rw [Dict.contains_eq_isSome_get?] at hk ⊢
      rw [hnodes, Dict.get?_insert]
      split
      · rfl
      · exact hk
  | @edge g g' parent child probability before h ih =>
    obtain ⟨p, hnodes⟩ := nodes_addEdge h
    obtain ⟨added, hroot⟩ := child_addEdge h
    have still : ∀ k, g.IsChild k → g'.IsChild k := fun k hk =>
      hk.of_contains hroot fun j hj => by rwa [hnodes, Dict.contains_modify]
    rw [hnodes, Dict.get?_modify] at hi
    split at hi
    · obtain ⟨old, hold, rfl⟩ := Option.map_eq_some_iff.1 hi
      rcases List.mem_append.1 hc with hc | hc
      · exact still _ (ih hold hc)
      · cases List.mem_singleton.1 hc
        exact still _ added
    · exact still _ (ih hi hc)
  | block _ _ ih =>
    have found := ih hi hc
    exact ⟨found.isKey, found.contained, found.notRoot⟩

/-- Edges lead to the children that are listed under a node. -/
theorem Grown.leads_child (h : g.Grown) {i : Datum α} :
    ∀ c ∈ g.nodes.getD i [], g.Leads i c.1 ∧ g.IsChild c.1 := by
  intro c hc
  unfold Dict.getD at hc
  cases hi : g.nodes.get? i with
  | none =>
    rw [hi] at hc
    cases hc
  | some pairs =>
    rw [hi] at hc
    exact ⟨⟨pairs, hi, c, hc, BEq.rfl⟩, h.child hi c hc⟩

end Graph

namespace Model

variable {graph : Graph α} {settings : CutSettings α} {sense : Datum α} {plans : StagePlans α}
  {m : Model α}

/-- A child in the graph has a node in its model. -/
theorem exists_node_of_isChild (hm : build graph settings sense plans = .ok m) {child : Datum α}
    (h : graph.IsChild child) : ∃ n, m.node child = .ok n := by
  obtain ⟨e, he, hchild⟩ := List.any_eq_true.1 h.contained
  have staged : e.1 ∈ m.nodes.keys := by
    rw [(nodes_of_build hm).1]
    refine List.mem_filter.2 ⟨List.mem_map_of_mem he, ?_⟩
    have hroot := h.notRoot
    unfold Datum.equals at hroot ⊢
    rw [BEq.congr_left hchild, Datum.beq_iff_identity_eq.1 hchild, hroot]
    rfl
  obtain ⟨n, hn⟩ := Dict.exists_get?_of_mem_keys staged
  exact ⟨n, node_eq_ok.2 ⟨h.isKey, Dict.get?_congr hchild ▸ hn⟩⟩

section

variable (hg : graph.Grown) (hm : build graph settings sense plans = .ok m)

include hg hm

/-- The children of the root have nodes. -/
theorem exists_node_of_rootChild : ∀ e ∈ m.rootChildren, ∃ n, m.node e.child = .ok n := by
  intro e he
  rw [(nodes_of_build hm).2.2.2.2.2] at he
  obtain ⟨c, hc, rfl⟩ := List.mem_map.1 he
  exact exists_node_of_isChild hm (hg.leads_child c hc).2

/-- The edges of a node are edges of the graph, and their children have nodes. -/
theorem child_of_build {i : Datum α} {n : Node α} (hn : m.nodes.get? i = some n) :
    ∀ e ∈ n.children, graph.Leads i e.child ∧ ∃ k, m.node e.child = .ok k := by
  intro e he
  obtain ⟨entry, hentry, hi, rfl⟩ := Dict.exists_mem_of_get? hn
  rw [children_of_built ((nodes_of_build hm).2.1 entry hentry)] at he
  obtain ⟨c, hc, rfl⟩ := List.mem_map.1 he
  obtain ⟨hleads, hchild⟩ := hg.leads_child c hc
  exact ⟨hleads.congr hi BEq.rfl, exists_node_of_isChild hm hchild⟩

end

end Model

end Multistage
