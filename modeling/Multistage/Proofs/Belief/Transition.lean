import Mathlib.Algebra.Order.BigOperators.Group.List
import Mathlib.Tactic.Linarith
import Multistage.Proofs.Graph.Children
import Multistage.Proofs.Training.Similar

/-!
# The transition map and the edges

A graph may have several edges between the same two nodes, and a walk moves along each of them with
its probability. The transition map keeps the probability of the last one only. It is the transition
law of the graph iff all edges before the last one are impossible.

## Main statements

- `Edge.lastTo_eq_totalTo_iff`: when the last edge to a child has all of the probability.
- `Edge.sum_totalTo`: the probabilities to move to the nodes are together those of all edges.
- `Model.transitionMap_of_build`: the transition map of a model that was built.
-/

namespace Multistage

namespace Edge

variable {edges : List (Edge ℚ)} {c : Datum ℚ}

/-- The edges to a child are the last one and those before it. -/
theorem totalTo_eq_add_lastTo (edges : List (Edge ℚ)) (c : Datum ℚ) :
    totalTo edges c = ((leadingTo edges c).dropLast.map (·.probability)).sum + lastTo edges c := by
  unfold totalTo lastTo
  rcases List.eq_nil_or_concat (leadingTo edges c) with h | ⟨before, last, h⟩
  · simp [h]
  · rw [h, List.concat_eq_append, List.dropLast_concat, List.getLast?_concat, List.map_append,
      List.sum_append]
    simp

section

variable (h : ∀ e ∈ edges, 0 ≤ e.probability)

include h

theorem nonneg_of_leadingTo : ∀ x ∈ (leadingTo edges c).dropLast.map (·.probability), 0 ≤ x := by
  intro x hx
  obtain ⟨e, he, rfl⟩ := List.mem_map.1 hx
  exact h e (List.mem_filter.1 (List.dropLast_subset _ he)).1

theorem lastTo_le_totalTo : lastTo edges c ≤ totalTo edges c := by
  rw [totalTo_eq_add_lastTo]
  exact le_add_of_nonneg_left (List.sum_nonneg (nonneg_of_leadingTo h))

/-- The last edge to a child has all of the probability iff the edges before it are impossible. -/
theorem lastTo_eq_totalTo_iff :
    lastTo edges c = totalTo edges c ↔
      ∀ e ∈ (leadingTo edges c).dropLast, e.probability = 0 := by
  rw [totalTo_eq_add_lastTo, right_eq_add]
  constructor
  · intro hsum e he
    exact List.all_zero_of_le_zero_le_of_sum_eq_zero (nonneg_of_leadingTo h) hsum
      (List.mem_map_of_mem he)
  · intro hzero
    rw [List.map_congr_left hzero]
    simp

end

/-- Over distinct nodes that include all children, the probabilities to move to them are together
those of all edges. -/
theorem sum_totalTo {nodes : List (Datum ℚ)} (hd : nodes.Pairwise fun a b => (a == b) = false)
    (h : ∀ e ∈ edges, nodes.contains e.child = true) :
    (nodes.map (totalTo edges)).sum = (edges.map (·.probability)).sum := by
  have parts : ∀ c, totalTo edges c =
      (edges.map fun e => if (e.child == c) = true then e.probability else 0).sum := fun c =>
    (sum_map_ite (fun e : Edge ℚ => e.child == c) (·.probability) edges).symm
  -- an edge counts for exactly one of the nodes
  have once : ∀ e ∈ edges,
      (nodes.map fun c => if (e.child == c) = true then e.probability else 0).sum =
      e.probability := by
    intro e he
    rw [sum_map_eq_of_subset (f := fun c => if (e.child == c) = true then e.probability else 0)
      (fun a b hab => by rw [BEq.congr_right hab]) [e.child] hd (List.pairwise_singleton _ _)]
    · simp
    · intro c hc
      obtain ⟨d, hd, hcd⟩ := List.contains_iff_exists_mem_beq.1 hc
      rw [List.mem_singleton.1 hd] at hcd
      obtain ⟨k, hk, hek⟩ := List.contains_iff_exists_mem_beq.1 (h e he)
      exact List.contains_iff_exists_mem_beq.2 ⟨k, hk, BEq.trans hcd hek⟩
    · intro c _ hc
      refine if_neg fun hec => ?_
      rw [List.contains_cons, BEq.symm hec] at hc
      cases hc
  rw [funext parts, sum_map_sum_comm, List.map_congr_left once]

end Edge

namespace Model

/-- **The transition map and the edges.** In every model that was built from a graph that was built,
the entry of two nodes in the transition map is the probability of the last edge between them. It is
at most the sum over all edges between them, and equal to it iff all edges before the last one are
impossible. The entries of a node sum to at most its outgoing probability, and to all of it iff
every entry is the sum over its edges. -/
theorem transitionMap_of_build {graph : Graph ℚ} {cuts : CutSettings ℚ} {sense : Datum ℚ}
    {plans : StagePlans ℚ} {m : Model ℚ} (hg : graph.Grown)
    (hm : build graph cuts sense plans = .ok m) {i : Datum ℚ} {n : Node ℚ}
    (hn : m.nodes.get? i = some n) :
    n.children = Edge.ofPairs (graph.nodes.getD i []) ∧
    (∀ j, (transitionMap m.nodes).getD (i, j) 0 = Edge.lastTo n.children j ∧
      (transitionMap m.nodes).getD (i, j) 0 ≤ Edge.totalTo n.children j ∧
      ((transitionMap m.nodes).getD (i, j) 0 = Edge.totalTo n.children j ↔
        ∀ e ∈ (Edge.leadingTo n.children j).dropLast, e.probability = 0)) ∧
    (m.nodes.keys.map fun j => (transitionMap m.nodes).getD (i, j) 0).sum ≤
      (n.children.map (·.probability)).sum ∧
    ((m.nodes.keys.map fun j => (transitionMap m.nodes).getD (i, j) 0).sum =
        (n.children.map (·.probability)).sum ↔
      ∀ j ∈ m.nodes.keys, (transitionMap m.nodes).getD (i, j) 0 = Edge.totalTo n.children j) := by
  have hd := distinct_of_build hg hm
  obtain ⟨entry, hentry, hi, hnode⟩ := Dict.exists_mem_of_get? hn
  have nonneg : ∀ e ∈ n.children, 0 ≤ e.probability := hnode ▸ (edges_nonneg hm).1 entry hentry
  have last : ∀ j, (transitionMap m.nodes).getD (i, j) 0 = Edge.lastTo n.children j :=
    transitionMap_getD hd hn
  simp only [last]
  have children : n.children = Edge.ofPairs (graph.nodes.getD i []) := by
    rw [← hnode, children_of_built ((nodes_of_build hm).2.1 entry hentry), Dict.getD,
      Dict.get?_congr hi]
    rfl
  have contained : ∀ e ∈ n.children, m.nodes.keys.contains e.child = true := by
    intro e he
    obtain ⟨k, hk⟩ := (child_of_build hg hm hn e he).2
    obtain ⟨found, hfound, hchild, -⟩ := Dict.exists_mem_of_get? (node_eq_ok.1 hk).2
    exact List.contains_iff_exists_mem_beq.2 ⟨found.1, List.mem_map_of_mem hfound, BEq.symm hchild⟩
  -- what the last edges lack to the outgoing probability is what the nodes lack one by one
  have lacking : (n.children.map (·.probability)).sum -
      (m.nodes.keys.map (Edge.lastTo n.children)).sum =
        (m.nodes.keys.map fun j => Edge.totalTo n.children j - Edge.lastTo n.children j).sum := by
    rw [← Edge.sum_totalTo (Dict.distinct_iff_keys.1 hd) contained, sub_eq_iff_eq_add,
      ← List.sum_map_add]
    simp only [sub_add_cancel]
  have lacks_nonneg : ∀ j, 0 ≤ Edge.totalTo n.children j - Edge.lastTo n.children j :=
    fun j => sub_nonneg.2 (Edge.lastTo_le_totalTo nonneg)
  refine ⟨children, fun j =>
    ⟨trivial, Edge.lastTo_le_totalTo nonneg, Edge.lastTo_eq_totalTo_iff nonneg⟩, ?_, ?_⟩
  · rw [← sub_nonneg, lacking]
    exact sum_map_nonneg fun j _ => lacks_nonneg j
  · rw [eq_comm, ← sub_eq_zero, lacking, sum_map_eq_zero_iff lacks_nonneg]
    refine forall₂_congr fun j _ => ?_
    rw [sub_eq_zero, eq_comm]

/-- Two edges lead from the first node to the second, with a quarter and a half: the entry is a
half, and the outgoing probability is three quarters. -/
theorem transitionMap_of_two_edges :
    ∃ (graph : Graph ℚ) (m : Model ℚ) (n : Node ℚ),
      Graph.ofEdges (.int 0) [.int 1, .int 2]
        [(.int 0, .int 1, .real 1), (.int 1, .int 2, .real (1 / 4)),
          (.int 1, .int 2, .real (1 / 2))] [] = .ok graph ∧
      build graph .unbounded (.text "min") {} = .ok m ∧ m.nodes.get? (.int 1) = some n ∧
      (transitionMap m.nodes).getD (.int 1, .int 2) 0 = 1 / 2 ∧
      Edge.totalTo n.children (.int 2) = 3 / 4 ∧
      (m.nodes.keys.map fun j => (transitionMap m.nodes).getD (.int 1, j) 0).sum <
        (n.children.map (·.probability)).sum := by
  have check : (do
      let graph ← Graph.ofEdges (.int 0) [.int 1, .int 2]
        [(.int 0, .int 1, .real 1), (.int 1, .int 2, .real (1 / 4)),
          (.int 1, .int 2, .real (1 / 2))] []
      let m ← build graph .unbounded (.text "min") {}
      let n ← (m.nodes.get? (.int 1)).elim (.error .missingKey) .ok
      if (m.nodes.keys.any (· == .int 2)) = true ∧ Edge.lastTo n.children (.int 2) = 1 / 2 ∧
        Edge.totalTo n.children (.int 2) = 3 / 4 then return () else .error .missingKey :
        Except (Failure ℚ) Unit).toBool = true := by
    decide +kernel
  simp only [Except.toBool_bind, Except.toBool_ite, Except.elim_eq_ok] at check
  obtain ⟨graph, hgraph, m, hm, n, hn, hmem, hlast, htotal⟩ := check
  obtain ⟨j, hj, hj2⟩ := List.any_eq_true.1 hmem
  obtain ⟨-, hentries, hle, hiff⟩ := transitionMap_of_build (.ofEdges hgraph) hm hn
  refine ⟨graph, m, n, hgraph, hm, hn, (hentries _).1.trans hlast, htotal,
    lt_of_le_of_ne hle fun heq => ?_⟩
  -- the entry of the second node is not the sum over its edges
  have entry := hiff.1 heq j hj
  rw [(hentries j).1, Edge.lastTo_congr hj2, Edge.totalTo_congr hj2, hlast, htotal] at entry
  norm_num at entry

end Model

end Multistage
