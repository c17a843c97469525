import Multistage.Proofs.Graph.Children
import Multistage.Proofs.Graph.Edges
import Multistage.Proofs.Lists

/-!
# Valid graphs

The checks of a graph pass iff the edges of every node are a sub-distribution and the belief
partition, if there is one, has every node other than the root exactly once. This holds of every
graph that calls lead to, failing ones included.

## Main definitions

- `Graph.IsCover`, `Graph.Valid`: what the checks are about.
- `Graph.Call`, `Graph.Call.run`: the calls that change a graph.
- `Graph.afterAll`: the graph after a sequence of calls.

## Main statements

- `Graph.validatePartition_eq_ok`, `Graph.validate_eq_ok`: when the checks pass.
- `Graph.Call.ends_run`: a call makes its graph or leaves the graph as it is.
- `Graph.validate_afterAll`: when the checks pass after any calls, and what is true of the graph
  then.
-/

namespace Multistage

namespace Graph

variable {α : Type} [Scalar α] {g g' : Graph α}

/-- The blocks have every node other than the root exactly once, and nothing else. -/
structure IsCover (g : Graph α) : Prop where
  once : ∀ node, g.nodes.contains node = true → (node == g.root) = false →
    g.partition.flatten.count node = 1
  only : ∀ d ∈ g.partition.flatten, g.nodes.contains d = true ∧ (d == g.root) = false

/-- The edges of every node have non-negative probabilities that sum to at most one, up to the
tolerance, and the belief partition is empty or a cover. -/
structure Valid (g : Graph α) : Prop where
  edges : ∀ e ∈ g.nodes.entries, (∀ c ∈ e.2, 0 ≤ c.2) ∧
    Scalar.sum (e.2.map (·.2)) ≤ 1 + probabilityTolerance
  partition : g.partition = [] ∨ g.IsCover

/-! ### The checks -/

theorem distinct_eq_true {members : List (Datum α)} :
    distinct members = true ↔ ∀ d, members.count d ≤ 1 := by
  rw [← pairwise_iff_count_le_one]
  induction members with
  | nil => simp [distinct]
  | cons d rest ih =>
    rw [distinct, Bool.and_eq_true, ih, List.pairwise_cons]
    refine and_congr_left fun _ => ?_
    rw [Bool.not_eq_true', Bool.eq_false_iff, Ne, List.contains_iff_exists_mem_beq]
    simp only [not_exists, not_and, Bool.not_eq_true]

theorem contains_inner {d : Datum α} :
    g.inner.contains d = true ↔ g.nodes.contains d = true ∧ (d == g.root) = false := by
  rw [List.contains_iff_exists_mem_beq, inner, Dict.keys]
  simp only [List.mem_filter, List.mem_map, Dict.contains, List.any_eq_true]
  constructor
  · rintro ⟨_, ⟨⟨e, he, rfl⟩, hroot⟩, hd⟩
    refine ⟨⟨e, he, BEq.symm hd⟩, ?_⟩
    rw [BEq.congr_left hd]
    exact Bool.not_eq_true' _ ▸ hroot
  · rintro ⟨⟨e, he, hd⟩, hroot⟩
    refine ⟨e.1, ⟨⟨e, he, rfl⟩, ?_⟩, BEq.symm hd⟩
    rw [bne, BEq.congr_left hd, hroot]
    rfl

/-- The belief partition passes its check iff it is empty or a cover, in a graph whose nodes can be
keys. -/
theorem validatePartition_eq_ok (hkeys : ∀ node ∈ g.nodes.keys, node.isKey = true) :
    g.validatePartition = .ok () ↔ g.partition = [] ∨ g.IsCover := by
  unfold validatePartition
  by_cases hempty : g.partition = []
  · simp [hempty]
  rw [if_neg (by simpa using hempty), or_iff_right hempty]
  have steps : ∀ (a b c d : Prop) [Decidable a] [Decidable b] [Decidable c] [Decidable d]
      (e₁ e₂ e₃ e₄ : Failure α),
      (if a then .error e₁ else if b then .error e₂ else if c then .error e₃
        else if d then .ok () else .error e₄ : Except (Failure α) Unit) = .ok () ↔
          ¬a ∧ ¬b ∧ ¬c ∧ d := by
    intro a b c d _ _ _ _ e₁ e₂ e₃ e₄
    by_cases a <;> by_cases b <;> by_cases c <;> by_cases d <;> simp [*]
  simp only [steps, Bool.not_eq_true', Bool.not_eq_false, Bool.and_eq_true, distinct_eq_true]
  constructor
  · rintro ⟨hroot, -, hdistinct, hwithin, hall⟩
    refine ⟨fun node hnode hne => ?_,
      fun d hd => contains_inner.1 (List.all_eq_true.1 hwithin d hd)⟩
    have held : g.partition.flatten.contains node = true := by
      obtain ⟨k, hk, hnode⟩ := List.contains_iff_exists_mem_beq.1 (contains_inner.2 ⟨hnode, hne⟩)
      rw [contains_congr hnode]
      exact List.all_eq_true.1 hall k hk
    exact le_antisymm (hdistinct node) (count_pos_iff.2 held)
  · intro h
    have root : g.partition.flatten.contains g.root ≠ true := by
      intro hroot
      obtain ⟨d, hd, heq⟩ := List.contains_iff_exists_mem_beq.1 hroot
      exact Bool.false_ne_true ((h.only d hd).2.symm.trans (BEq.symm heq))
    have member : ∀ d ∈ g.partition.flatten, g.inner.contains d = true :=
      fun d hd => contains_inner.2 (h.only d hd)
    refine ⟨root, ?_, fun d => ?_, List.all_eq_true.2 member, List.all_eq_true.2 fun d hd => ?_⟩
    · exact Datum.areKeys_iff.2 fun d hd => isKey_of_contains hkeys (h.only d hd).1
    · by_cases hd : g.partition.flatten.contains d = true
      · obtain ⟨c, hc, hdc⟩ := List.contains_iff_exists_mem_beq.1 hd
        obtain ⟨hnode, hne⟩ := h.only c hc
        exact (count_congr hdc).trans_le (h.once c hnode hne).le
      · exact (Nat.eq_zero_of_not_pos fun hpos => hd (count_pos_iff.1 hpos)).trans_le zero_le_one
    · obtain ⟨hnode, hne⟩ := contains_inner.1 (List.elem_eq_true_of_mem hd)
      exact count_pos_iff.1 (by rw [h.once d hnode hne]; exact one_pos)

/-- A graph whose nodes can be keys passes its checks iff it is valid. -/
theorem validate_eq_ok [Scalar.Ordered α] (hkeys : ∀ node ∈ g.nodes.keys, node.isKey = true) :
    g.validate = .ok () ↔ g.Valid := by
  unfold validate
  rw [Except.bind_eq_ok]
  constructor
  · rintro ⟨_, hedges, hpartition⟩
    exact ⟨fun e he => validateEdges_eq_ok.1 (Except.forM_eq_ok.1 hedges e he),
      (validatePartition_eq_ok hkeys).1 hpartition⟩
  · rintro ⟨hedges, hpartition⟩
    exact ⟨(), Except.forM_eq_ok.2 fun e he => validateEdges_eq_ok.2 (hedges e he),
      (validatePartition_eq_ok hkeys).2 hpartition⟩

/-! ### Graphs that can be built -/

theorem Grown.isKey (h : g.Grown) : ∀ node ∈ g.nodes.keys, node.isKey = true := by
  induction h with
  | @root root g h =>
    obtain ⟨_, hkey, hg⟩ := Except.bind_eq_ok.1 h
    cases hg
    intro node hnode
    cases List.mem_singleton.1 hnode
    exact Datum.requireKey_eq_ok.1 hkey
  | @node g g' node before h ih =>
    obtain ⟨_, hkey, -⟩ := Except.bind_eq_ok.1 h
    rw [(nodes_addNode h).2]
    intro k hk
    rcases Dict.mem_keys_insert hk with rfl | hk
    · exact Datum.requireKey_eq_ok.1 hkey
    · exact ih k hk
  | edge before h ih =>
    obtain ⟨p, hnodes⟩ := nodes_addEdge h
    rwa [hnodes, Dict.keys_modify]
  | block _ _ ih => exact ih

theorem Grown.contains_root (h : g.Grown) : g.nodes.contains g.root = true := by
  induction h with
  | root h =>
    obtain ⟨_, -, hg⟩ := Except.bind_eq_ok.1 h
    cases hg
    simp [Dict.contains]
  | node before h ih =>
    rw [root_addNode h, (nodes_addNode h).2, Dict.contains_eq_isSome_get?, Dict.get?_insert]
    split
    · rfl
    · rwa [← Dict.contains_eq_isSome_get?]
  | edge before h ih =>
    obtain ⟨p, hnodes⟩ := nodes_addEdge h
    rwa [(child_addEdge h).2, hnodes, Dict.contains_modify]
  | block _ _ ih => exact ih

/-- What is equal to the root without comparing as equal to it is not-a-number. -/
theorem IsChild.root_eq_nan {child : Datum α} (h : g.IsChild child)
    (hroot : (child == g.root) = true) :
    g.root.identity = .number .nan := by
  have hne := h.notRoot
  rw [Datum.equals, hroot, Bool.true_and, Datum.beq_iff_identity_eq.1 hroot] at hne
  simpa using hne

/-! ### Calls -/

/-- A call that changes a graph. -/
inductive Call (α : Type) where
  | addNode (node : Datum α)
  | addEdge (parent child probability : Datum α)
  | addPartition (block : Datum α)

namespace Call

/-- The graph that a call makes of a graph. -/
def result (g : Graph α) : Call α → Except (Failure α) (Graph α)
  | addNode node => g.addNode node
  | addEdge parent child probability => g.addEdge parent child probability
  | addPartition block => block.elements.map g.addBlock

/-- The call on a graph that is changed in place, one check after the other. -/
def run : Call α → Action α (Graph α) Unit
  | addNode node => do
    Action.ofExcept node.requireKey
    if (← get).nodes.contains node || node.equals (← get).root then throw (.duplicateNode node)
    modify fun g => { g with nodes := g.nodes.insert node [] }
  | addEdge parent child probability => do
    Action.ofExcept parent.requireKey
    if !(← get).nodes.contains parent then throw (.missingNode parent)
    if child.equals (← get).root then throw .edgeIntoRoot
    Action.ofExcept child.requireKey
    if !(← get).nodes.contains child then throw (.missingNode child)
    let p ← Action.ofExcept probability.toScalar
    modify fun g => { g with nodes := g.nodes.modify parent (· ++ [(child, p)]) }
  | addPartition block => do
    let members ← Action.ofExcept block.elements
    modify fun g => g.addBlock members

/-- A call makes its graph of the graph, or it fails and the graph is as it was. -/
theorem ends_run (c : Call α) (g : Graph α) :
    Action.Ends (fun _ g' => c.result g = .ok g') (fun e g' => c.result g = .error e ∧ g' = g)
      (c.run g) := by
  cases c with
  | addNode node =>
    rw [result, Graph.addNode]
    refine .ofExcept_bind (fun _ hkey => ?_) fun e he => ⟨by rw [he]; rfl, rfl⟩
    rw [hkey]
    exact .refuse (fun hc => ⟨if_pos hc, rfl⟩) fun hc => if_neg hc
  | addEdge parent child probability =>
    rw [result, Graph.addEdge]
    refine .ofExcept_bind (fun _ hparent => ?_) fun e he => ⟨by rw [he]; rfl, rfl⟩
    rw [hparent]
    refine .refuse (fun hc => ⟨if_pos hc, rfl⟩) fun hc => ?_
    rw [if_neg hc]
    refine .refuse (fun hc => ⟨if_pos hc, rfl⟩) fun hc => ?_
    rw [if_neg hc]
    refine .ofExcept_bind (fun _ hchild => ?_) fun e he => ⟨by rw [he]; rfl, rfl⟩
    rw [hchild]
    refine .refuse (fun hc => ⟨if_pos hc, rfl⟩) fun hc => ?_
    rw [if_neg hc]
    refine .ofExcept_bind (fun p hp => ?_) fun e he => ⟨by rw [he]; rfl, rfl⟩
    rw [hp]
    rfl
  | addPartition block =>
    rw [result]
    refine .ofExcept_bind (fun members h => ?_) fun e he => ⟨congrArg (Except.map _) he, rfl⟩
    exact congrArg (Except.map _) h

end Call

/-- The graph after a call, as it was if the call fails. -/
def after (g : Graph α) (c : Call α) : Graph α := c.run.final g

/-- The graph after one call after another. -/
def afterAll (g : Graph α) (calls : List (Call α)) : Graph α := calls.foldl after g

theorem after_cases (g : Graph α) (c : Call α) : c.result g = .ok (g.after c) ∨ g.after c = g := by
  have ends := c.ends_run g
  unfold after Action.final
  cases h : c.run g with
  | ok _ g' =>
    rw [h] at ends
    exact .inl ends
  | error e g' =>
    rw [h] at ends
    exact .inr ends.2

/-- A call that makes a graph keeps the root, and its graph is one that can be built. -/
theorem Grown.result (h : g.Grown) {c : Call α} (hc : c.result g = .ok g') :
    g'.Grown ∧ g'.root = g.root := by
  cases c with
  | addNode node => exact ⟨.node h hc, root_addNode hc⟩
  | addEdge parent child probability => exact ⟨.edge h hc, (child_addEdge hc).2⟩
  | addPartition block =>
    obtain ⟨members, -, rfl⟩ := Except.map_eq_ok.1 hc
    exact ⟨.block members h, rfl⟩

theorem Grown.after (h : g.Grown) (c : Call α) : (g.after c).Grown ∧ (g.after c).root = g.root := by
  rcases g.after_cases c with hc | hc
  · exact h.result hc
  · exact ⟨hc.symm ▸ h, congrArg Graph.root hc⟩

theorem Grown.afterAll (h : g.Grown) (calls : List (Call α)) :
    (g.afterAll calls).Grown ∧ (g.afterAll calls).root = g.root := by
  induction calls generalizing g with
  | nil => exact ⟨h, rfl⟩
  | cons c rest ih =>
    obtain ⟨hafter, hroot⟩ := h.after c
    obtain ⟨hrest, hrestRoot⟩ := ih hafter
    exact ⟨hrest, hrestRoot.trans hroot⟩

/-- An edge to the root is added iff the root is not-a-number, if its parent exists and its
probability can be read. -/
theorem Grown.addEdge_root (h : g.Grown) {parent child probability : Datum α} {p : α}
    (hparent : g.nodes.contains parent = true) (hchild : (child == g.root) = true)
    (hp : probability.toScalar = .ok p) :
    (∃ g', g.addEdge parent child probability = .ok g') ↔ g.root.identity = .number .nan := by
  constructor
  · rintro ⟨g', hg'⟩
    exact (child_addEdge hg').1.root_eq_nan hchild
  · intro hroot
    have hcontains : g.nodes.contains child = true := by
      rw [Dict.contains_eq_isSome_get?, Dict.get?_congr hchild, ← Dict.contains_eq_isSome_get?]
      exact h.contains_root
    have different : child.equals g.root = false := by
      rw [Datum.equals, hchild, Datum.beq_iff_identity_eq.1 hchild, hroot]
      rfl
    exact ⟨_, addEdge_of_joins h.isKey ⟨hparent, hcontains, different, p, hp⟩ hp⟩

/-! ### Every graph that calls lead to -/

/-- Of the graph after any calls, failing ones included: its checks pass iff it is valid; its root
is a node, and so are the ends of its edges; no edge enters the root unless the root is
not-a-number, in which case any edge may; and a call that fails leaves it as it is. -/
theorem validate_afterAll [Scalar.Ordered α] {root : Datum α} {start : Graph α}
    (hstart : ofRoot root = .ok start) (calls : List (Call α)) :
    let g := start.afterAll calls
    (g.validate = .ok () ↔ g.Valid) ∧
      (g.root = root ∧ g.nodes.contains root = true) ∧
      (∀ e ∈ g.nodes.entries, ∀ c ∈ e.2, g.nodes.contains c.1 = true ∧
        ((c.1 == root) = true → root.identity = .number .nan)) ∧
      (∀ parent child probability p, g.nodes.contains parent = true → (child == root) = true →
        probability.toScalar = .ok p →
          ((∃ g', g.addEdge parent child probability = .ok g') ↔ root.identity = .number .nan)) ∧
      ∀ c e g', Call.run c g = .error e g' → g' = g := by
  intro g
  obtain ⟨grown, hroot⟩ := (Grown.root hstart).afterAll calls
  have rooted : g.root = root := by
    obtain ⟨_, -, h⟩ := Except.bind_eq_ok.1 hstart
    cases h
    exact hroot
  refine ⟨validate_eq_ok grown.isKey, ⟨rooted, rooted ▸ grown.contains_root⟩, fun e he c hc => ?_,
    fun parent child probability p hparent hchild hp => ?_, fun c e g' h => ?_⟩
  · have found : g.nodes.get? e.1 = some e.2 :=
      (Dict.get?_eq_some_iff grown.distinct).2 ⟨e, he, BEq.rfl, rfl⟩
    have child := grown.child found c hc
    exact ⟨child.contained, fun h => rooted ▸ child.root_eq_nan (rooted ▸ h)⟩
  · rw [← rooted] at hchild ⊢
    exact grown.addEdge_root hparent hchild hp
  · have ends := c.ends_run g
    rw [h] at ends
    exact ends.2

/-- Calls that build a chain of one stage and its partition; an edge back to the root, and a node
that there is already, are refused. -/
def chainCalls : List (Call (Extended ℚ)) :=
  [.addNode (.int 1), .addEdge (.int 0) (.int 1) (.real (.finite (1 / 2))),
    .addEdge (.int 1) (.int 0) (.int 1), .addNode (.real (.finite 1)),
    .addPartition (.list [.bool true])]

theorem valid_of_chainCalls : ∃ start : Graph (Extended ℚ), ofRoot (.int 0) = .ok start ∧
    (start.afterAll chainCalls).Valid ∧ (start.afterAll chainCalls).edgeCount = 1 ∧
      ¬∃ g, (start.afterAll chainCalls).addEdge (.int 1) (.int 0) (.int 1) = .ok g := by
  let start : Graph (Extended ℚ) := ⟨.int 0, ⟨[(.int 0, [])]⟩, []⟩
  have hstart : ofRoot (.int 0) = .ok start := rfl
  have check : (start.afterAll chainCalls).validate.toBool = true := by decide +kernel
  obtain ⟨_, passes⟩ := Except.exists_of_toBool check
  obtain ⟨valid, -, -, entering, -⟩ := validate_afterAll hstart chainCalls
  refine ⟨start, hstart, valid.1 passes, by decide +kernel, fun h => ?_⟩
  have nan := (entering (.int 1) (.int 0) (.int 1) (.finite 1) (by decide +kernel) rfl rfl).1 h
  cases nan

-- not-a-number is a node like any other, but an edge to it is not seen to enter the root
example : ((ofRoot (.real .nan)).bind fun g : Graph (Extended ℚ) =>
    g.addEdge (.real .nan) (.real .nan) (.int 1)).toBool = true := by decide +kernel

end Graph

end Multistage
