import Multistage.Proofs.Graph.Grown
import Multistage.Proofs.Keys

/-!
# Graphs from their edges

A graph of distinct nodes, whose edges join these nodes and do not enter the root, can be built. Its
nodes are the listed ones in their order, and the children of a node are what the edges say, in the
order of the edges.

## Main definitions

- `Graph.Joins`: an edge that can be added.
- `Graph.childrenAmong`: the children that a list of edges gives a node.

## Main statements

- `Graph.addEdge_of_joins`: an edge that can be added is.
- `Graph.ofEdges_of_joins`: the graph of a list of such edges.
-/

namespace Multistage

namespace Graph

variable {α : Type} [Scalar α] {g : Graph α}

/-- The edge joins two nodes of the graph, it is not seen to enter the root, and its probability can
be read. -/
structure Joins (g : Graph α) (e : Datum α × Datum α × Datum α) : Prop where
  parent : g.nodes.contains e.1 = true
  child : g.nodes.contains e.2.1 = true
  notRoot : e.2.1.equals g.root = false
  readable : ∃ p, e.2.2.toScalar = .ok p

/-- The child that an edge gives a node, if it leaves the node. -/
def childOf (node : Datum α) (e : Datum α × Datum α × Datum α) : Option (Datum α × α) :=
  if e.1 == node then e.2.2.toScalar.toOption.map (e.2.1, ·) else none

/-- The children that edges give a node. -/
def childrenAmong (edges : List (Datum α × Datum α × Datum α)) (node : Datum α) :
    List (Datum α × α) :=
  edges.filterMap (childOf node)

theorem childrenAmong_cons {e : Datum α × Datum α × Datum α} {p : α} (hp : e.2.2.toScalar = .ok p)
    (rest : List (Datum α × Datum α × Datum α)) (node : Datum α) :
    childrenAmong (e :: rest) node =
      if e.1 == node then (e.2.1, p) :: childrenAmong rest node else childrenAmong rest node := by
  unfold childrenAmong childOf
  rw [List.filterMap_cons, hp]
  by_cases hnode : (e.1 == node) = true
  · rw [if_pos hnode, if_pos hnode]
    rfl
  · rw [if_neg hnode, if_neg hnode]

theorem isKey_of_contains (hkeys : ∀ node ∈ g.nodes.keys, node.isKey = true) {node : Datum α}
    (h : g.nodes.contains node = true) : node.isKey = true := by
  obtain ⟨e, he, heq⟩ := List.any_eq_true.1 h
  exact (Datum.isKey_congr heq).symm.trans (hkeys e.1 (List.mem_map_of_mem he))

/-! ### One node, one edge -/

theorem addNode_of_new {node : Datum α} (hkey : node.isKey = true)
    (hroot : g.nodes.contains g.root = true)
    (hnew : g.nodes.contains node = false) :
    g.addNode node = .ok { g with nodes := g.nodes.insert node [] } := by
  have different : node.equals g.root = false := by
    rw [Bool.eq_false_iff]
    intro h
    rw [Dict.contains_eq_isSome_get?, ← Dict.get?_congr (Datum.beq_of_equals h),
      ← Dict.contains_eq_isSome_get?, hnew] at hroot
    cases hroot
  unfold addNode
  rw [Datum.requireKey_of_isKey hkey, hnew, different]
  rfl

theorem addEdge_of_joins (hkeys : ∀ node ∈ g.nodes.keys, node.isKey = true)
    {parent child probability : Datum α} (h : g.Joins (parent, child, probability)) {p : α}
    (hp : probability.toScalar = .ok p) :
    g.addEdge parent child probability =
      .ok { g with nodes := g.nodes.modify parent (· ++ [(child, p)]) } := by
  have key := fun node (hnode : g.nodes.contains node = true) =>
    Datum.requireKey_of_isKey (isKey_of_contains hkeys hnode)
  unfold addEdge
  rw [key parent h.parent, h.parent, h.notRoot, key child h.child, h.child, hp]
  rfl

/-! ### Lists of nodes and edges -/

theorem foldlM_addNode {nodes : List (Datum α)} (hkeys : ∀ node ∈ nodes, node.isKey = true)
    (hroot : g.nodes.contains g.root = true)
    (hdistinct : (g.nodes.keys ++ nodes).Pairwise fun a b => (a == b) = false) :
    nodes.foldlM addNode g = .ok { g with nodes := g.nodes.insertAll (nodes.map (·, [])) } := by
  induction nodes generalizing g with
  | nil => rfl
  | cons node rest ih =>
    obtain ⟨hkey, hrest⟩ := List.forall_mem_cons.1 hkeys
    have hnew : g.nodes.contains node = false := by
      rw [Dict.contains, List.any_eq_false]
      intro e he heq
      have differ :=
        (List.pairwise_append.1 hdistinct).2.2 e.1 (List.mem_map_of_mem he) node List.mem_cons_self
      rw [differ] at heq
      cases heq
    rw [List.foldlM_cons, addNode_of_new hkey hroot hnew]
    refine ih hrest ?_ ?_
    · rw [Dict.contains_eq_isSome_get?, Dict.get?_insert]
      split
      · rfl
      · rwa [← Dict.contains_eq_isSome_get?]
    · rwa [Dict.keys_insert, hnew, if_neg Bool.false_ne_true, List.append_assoc]

theorem foldlM_addEdge {edges : List (Datum α × Datum α × Datum α)}
    (hkeys : ∀ node ∈ g.nodes.keys, node.isKey = true) (hedges : ∀ e ∈ edges, g.Joins e) :
    ∃ g', edges.foldlM (fun g e => g.addEdge e.1 e.2.1 e.2.2) g = .ok g' ∧ g'.root = g.root ∧
      g'.partition = g.partition ∧ g'.nodes.keys = g.nodes.keys ∧
      ∀ node, g'.nodes.get? node = (g.nodes.get? node).map (· ++ childrenAmong edges node) := by
  induction edges generalizing g with
  | nil =>
    refine ⟨g, rfl, rfl, rfl, rfl, fun node => ?_⟩
    simp [childrenAmong]
  | cons e rest ih =>
    obtain ⟨he, hrest⟩ := List.forall_mem_cons.1 hedges
    obtain ⟨p, hp⟩ := he.readable
    have still : ∀ e' ∈ rest,
        Joins { g with nodes := g.nodes.modify e.1 (· ++ [(e.2.1, p)]) } e' := fun e' he' => by
      have joins := hrest e' he'
      exact ⟨(Dict.contains_modify _ _).trans joins.parent,
        (Dict.contains_modify _ _).trans joins.child,
        joins.notRoot, joins.readable⟩
    obtain ⟨g', hg', hroot, hpartition, hnodes, hchildren⟩ :=
      ih (by rwa [Dict.keys_modify]) still
    refine ⟨g', ?_, hroot, hpartition, hnodes.trans (Dict.keys_modify ..), fun node => ?_⟩
    · rw [List.foldlM_cons, addEdge_of_joins hkeys he hp]
      exact hg'
    · rw [hchildren, Dict.get?_modify, childrenAmong_cons hp]
      by_cases hnode : (e.1 == node) = true
      · rw [if_pos hnode, if_pos hnode, Option.map_map]
        refine congrArg (Option.map · _) (funext fun pairs => ?_)
        exact List.append_assoc ..
      · rw [if_neg hnode, if_neg hnode]

section

variable {root : Datum α} {nodes : List (Datum α)}
  (hkeys : ∀ node ∈ root :: nodes, node.isKey = true)
  (hdistinct : (root :: nodes).Pairwise fun a b => (a == b) = false)

include hkeys hdistinct

/-- The graph of distinct nodes without edges. -/
theorem foldlM_addNode_ofRoot : (ofRoot root >>= nodes.foldlM addNode) =
    .ok ⟨root, ⟨(root :: nodes).map (·, [])⟩, []⟩ := by
  have entries :
      (⟨[(root, [])]⟩ : Dict (Datum α) (List (Datum α × α))).insertAll (nodes.map (·, [])) =
      ⟨(root :: nodes).map (·, [])⟩ := by
    refine Dict.insertAll_of_distinct (Dict.distinct_iff_keys.2 ?_)
    simpa [Dict.keys, Function.comp_def] using hdistinct
  have hroot : (⟨[(root, [])]⟩ : Dict (Datum α) (List (Datum α × α))).contains root = true := by
    simp [Dict.contains]
  unfold ofRoot
  rw [Datum.requireKey_of_isKey (hkeys root List.mem_cons_self)]
  refine (foldlM_addNode (g := ⟨root, ⟨[(root, [])]⟩, []⟩)
    (fun node hnode => hkeys node (List.mem_cons_of_mem _ hnode))
    hroot hdistinct).trans ?_
  rw [entries]

/-- The graph of distinct nodes and of edges that join them and do not enter the root. -/
theorem ofEdges_of_joins {edges : List (Datum α × Datum α × Datum α)}
    (hedges : ∀ e ∈ edges, (root :: nodes).contains e.1 = true ∧ nodes.contains e.2.1 = true ∧
      ∃ p, e.2.2.toScalar = .ok p) :
    ∃ g, ofEdges root nodes edges [] = .ok g ∧ g.root = root ∧ g.partition = [] ∧
      g.nodes.keys = root :: nodes ∧
      ∀ node, (root :: nodes).contains node = true →
        g.nodes.get? node = some (childrenAmong edges node) := by
  let bare : Graph α := ⟨root, ⟨(root :: nodes).map (·, [])⟩, []⟩
  have keys : bare.nodes.keys = root :: nodes := by simp [bare, Dict.keys, Function.comp_def]
  have contains : ∀ node, (root :: nodes).contains node = true →
      bare.nodes.contains node = true := by
    intro node hnode
    rwa [Dict.contains_eq_contains_keys, keys]
  have joins : ∀ e ∈ edges, bare.Joins e := by
    intro e he
    obtain ⟨hparent, hchild, hp⟩ := hedges e he
    refine ⟨contains _ hparent, contains _ ?_, ?_, hp⟩
    · rw [List.contains_cons, hchild, Bool.or_true]
    · obtain ⟨node, hnode, heq⟩ := List.contains_iff_exists_mem_beq.1 hchild
      have differ := (List.pairwise_cons.1 hdistinct).1 node hnode
      rw [Datum.equals, BEq.congr_left heq, BEq.comm, differ, Bool.false_and]
  obtain ⟨g, hg, hroot, hpartition, hnodes, hchildren⟩ := foldlM_addEdge (keys.symm ▸ hkeys) joins
  refine ⟨g, ?_, hroot, hpartition, hnodes.trans keys, fun node hnode => ?_⟩
  · unfold ofEdges
    rw [← bind_assoc, foldlM_addNode_ofRoot hkeys hdistinct]
    exact Except.bind_eq_ok.2 ⟨bare, rfl, Except.bind_eq_ok.2 ⟨g, hg, rfl⟩⟩
  · obtain ⟨pairs, hpairs⟩ := Option.isSome_iff_exists.1
      ((Dict.contains_eq_isSome_get? _ _).symm.trans (contains node hnode))
    obtain ⟨e, he, -, rfl⟩ := Dict.exists_mem_of_get? hpairs
    obtain ⟨_, -, rfl⟩ := List.mem_map.1 he
    rw [hchildren, hpairs]
    rfl

end

end Graph

end Multistage
