import Multistage.Proofs.Model.Declaration
import Multistage.Proofs.Node.Operating

/-!
# What holds at all nodes

A session acts on one node after the other. What the operations on a node keep of it is kept at all
nodes of the model by all calls.

## Main definitions

- `Model.Throughout`: every node of a model stands in a relation to its node in an earlier model.

## Main statements

- `Model.throughout_onNode`, `Model.completes_onNode`: acting on one node.
- `Model.throughout_solve`, `Model.throughout_prune`, `Run.throughout_refine`: the operations.
- `Run.ensures_refineAt`: the refinement of a visited node and of the nodes that are similar to it.
- `Session.operating_afterAll`: calls lead every node from one operation to another.
-/

namespace Multistage

/-- The model is declared as an earlier one, and every node is related to what it was there. -/
structure Model.Throughout (m₀ : Model ℚ) (J : Datum ℚ → Node ℚ → Node ℚ → Prop) (m : Model ℚ) :
    Prop where
  declaration : m.declaration = m₀.declaration
  node : ∀ index start n, m₀.nodes.get? index = some start → m.nodes.get? index = some n →
    J index start n

variable {solver : Solver ℚ} {m₀ : Model ℚ} {J : Datum ℚ → Node ℚ → Node ℚ → Prop}
  {R : Bool → Datum ℚ → Datum ℚ → State ℚ → Solution ℚ → Prop} {P : State ℚ → Prop}
  {settings : PassSettings ℚ} {index : Datum ℚ}

namespace Model

theorem throughout_self
    (h : ∀ index start, m₀.nodes.get? index = some start → J index start start) :
    m₀.Throughout J m₀ := by
  refine ⟨rfl, fun index start n hs hn => ?_⟩
  cases hs.symm.trans hn
  exact h index start hs

theorem Throughout.exists_node {m : Model ℚ} (h : m₀.Throughout J m) {start : Node ℚ}
    (hs : m₀.nodes.get? index = some start) :
    ∃ n, m.nodes.get? index = some n ∧ n.declaration = start.declaration ∧ J index start n := by
  obtain ⟨n, hn, hdecl⟩ := get?_of_declaration_eq h.declaration hs
  exact ⟨n, hn, hdecl, h.node index start n hs hn⟩

/-- Another node with the same declaration, which may be looked up by equal indices. -/
theorem Throughout.put {m : Model ℚ} (h : m₀.Throughout J m) {n n' : Node ℚ}
    (hn : m.node index = .ok n) (hdecl : n'.declaration = n.declaration)
    (hJ : ∀ j start, (index == j) = true → m₀.nodes.get? j = some start → J j start n') :
    m₀.Throughout J { m with nodes := m.nodes.modify index fun _ => n' } := by
  refine ⟨(declaration_put hn hdecl).trans h.declaration, fun j start k hj hk => ?_⟩
  rw [Dict.get?_modify] at hk
  split at hk
  next hij =>
    obtain ⟨_, -, rfl⟩ := Option.map_eq_some_iff.1 hk
    exact hJ j start hij hj
  next => exact h.node j start k hj hk

/-- Acting on a node, which may be looked up by equal indices. -/
theorem throughout_onNode {τ : Type} {act : Action ℚ (Node ℚ) τ} {S : τ → Prop}
    (hdecl : ∀ e, Action.Ensures (fun n : Node ℚ => n.declaration = e) act fun _ => True)
    (h : ∀ j start, (index == j) = true → m₀.nodes.get? j = some start →
      Action.Ensures (J j start) act S) :
    Action.Ensures (m₀.Throughout J) (onNode index act) S := by
  refine ensures_onNode fun m n hm hn => ?_
  obtain ⟨-, hget⟩ := node_eq_ok.1 hn
  obtain ⟨start, hstart, -⟩ := get?_of_declaration_eq hm.declaration.symm hget
  let Related : Node ℚ → Prop := fun n' => ∀ i : { i : Datum ℚ × Node ℚ //
    (index == i.1) = true ∧ m₀.nodes.get? i.1 = some i.2 }, J i.1.1 i.1.2 n'
  have kept : Action.Ensures Related act fun _ => True := .all fun i =>
    (h i.1.1 i.1.2 i.2.1 i.2.2).weaken fun _ _ => trivial
  have related : Related n := fun i => hm.node _ _ n i.2.2 (Dict.get?_congr i.2.1 ▸ hget)
  have own := h index start BEq.rfl hstart
  exact ⟨fun n' => (n'.declaration = n.declaration ∧ Related n') ∧ J index start n',
    ⟨⟨rfl, related⟩, hm.node _ _ n hstart hget⟩,
    (((hdecl n.declaration).and kept).and own).weaken fun _ => And.right,
    fun n' hn' => hm.put hn hn'.1.1 fun j start' hij hj => hn'.1.2 ⟨(j, start'), hij, hj⟩⟩

/-- Acting on a node, if the action answers. -/
theorem completes_onNode {τ : Type} {act : Action ℚ (Node ℚ) τ} {S : τ → Prop}
    (hdecl : ∀ e, Action.Ensures (fun n : Node ℚ => n.declaration = e) act fun _ => True)
    (h : ∀ j start, (index == j) = true → m₀.nodes.get? j = some start →
      Action.Completes (J j start) act S) :
    Action.Completes (m₀.Throughout J) (onNode index act) S := by
  refine .of_ok fun m b m' hm hrun => ?_
  obtain ⟨n, n', hn, hact, rfl⟩ := onNode_eq_ok.1 hrun
  obtain ⟨-, hget⟩ := node_eq_ok.1 hn
  have before : ∀ j start, (index == j) = true → m₀.nodes.get? j = some start → J j start n :=
    fun j start hij hj => hm.node j start n hj (Dict.get?_congr hij ▸ hget)
  refine ⟨hm.put hn ((hdecl n.declaration).ok rfl hact).1 fun j start hij hj =>
    ((h j start hij hj).ok (before j start hij hj) hact).1, ?_⟩
  obtain ⟨start, hstart, -⟩ := get?_of_declaration_eq hm.declaration.symm hget
  exact ((h index start BEq.rfl hstart).ok (before index start BEq.rfl hstart) hact).2

theorem throughout_solve (h : ∀ index start, m₀.nodes.get? index = some start →
      ∀ noise state needsDuals, Action.Ensures (J index start)
        (Node.solve solver m₀.sense state noise needsDuals) (R needsDuals index noise state))
    (hR : ∀ {needsDuals i j noise state s}, (i == j) = true → R needsDuals j noise state s →
      R needsDuals i noise state s) :
    Keeps solver (m₀.Throughout J) R := by
  refine fun index noise state needsDuals => .bind .get fun m hm => ?_
  rw [show m.sense = m₀.sense from congrArg (·.sense) hm.declaration]
  exact throughout_onNode (fun _ => Node.declaration_solve solver _ state noise _)
    fun j start hj hs => (h j start hs noise state needsDuals).weaken fun _ => hR hj

theorem throughout_prune (h : ∀ index start, m₀.nodes.get? index = some start →
      Action.Ensures (J index start) Node.prune fun _ => True) (index : Datum ℚ) :
    Action.Ensures (m₀.Throughout J) (onNode index Node.prune) fun _ => True :=
  throughout_onNode (fun _ => Node.declaration_prune.weaken fun _ _ => trivial)
    fun j start _ hs => (h j start hs).weaken fun _ _ => trivial

end Model

namespace Run

theorem throughout_refine {state : State ℚ} {results : List (ChildSolution ℚ)}
    {probabilities : List ℚ} (h : ∀ j start measure, (index == j) = true →
      m₀.nodes.get? j = some start → settings.measures.get? index = some measure →
      Action.Ensures (J j start) (Node.refine m₀.sense measure state
        (results.map (·.solution.duals)) probabilities (results.map (·.solution.objective)))
        fun _ => True) :
    Action.Ensures (Keeping (m₀.Throughout J) settings) (refine index state results probabilities)
      fun _ => True := by
  have measured : Action.Ensures (Keeping (m₀.Throughout J) settings) (measureOf index)
      fun measure => settings.measures.get? index = some measure :=
    .bind .get fun r hr => .ofOption fun measure hmeasure => hr.2 ▸ hmeasure
  refine .bind ensures_heed_keeping fun _ _ => .bind measured fun measure hmeasure =>
    .bind .get fun r hr => ?_
  rw [show r.session.model.sense = m₀.sense from congrArg (·.sense) hr.1.declaration]
  refine ensures_onSession (.focus (Model.throughout_onNode ?_ fun j start hj hs =>
    h j start measure hj hs hmeasure) (fun _ => id) fun _ _ _ => id)
  exact fun _ => Node.declaration_refine _ measure state _ probabilities _

/-- The refinement of a visited node: its children are solved, and with their solutions the node
itself and the nodes that are similar to it are refined. -/
theorem ensures_refineAt {I : Model ℚ → Prop} (hsolve : Model.Keeps solver I R) {state : State ℚ}
    (h : ∀ m m' n steps results, I m → m.node index = .ok n → n.children.isEmpty = false → I m' →
      Session.outcomes m' n.children = .ok steps →
      List.Forall₂ (Session.Solves fun child noise => R true child noise state) steps results →
        Action.Ensures (Keeping I settings)
          (refine index state results (results.map (·.probability))) (fun _ => True) ∧
        ∀ others, settings.similar.get? index = some others → ∀ other ∈ others,
          Action.Ensures (Keeping I settings)
            (refine other state results (probabilitiesAt settings other results)) fun _ => True) :
    Action.Ensures (Keeping I settings) (refineAt solver index state) fun _ => True := by
  refine .bind .get fun r hr => .bind (.ofExcept fun n hn => hn) fun n hn => ?_
  refine .ite (fun _ => .pure trivial) fun hchildren => ?_
  have solved := Session.ensures_solveChildren n.children (·.session.model)
    (K := Keeping I settings) (P := fun steps => ∃ m', I m' ∧
      Session.outcomes m' n.children = .ok steps)
    (fun r' steps hr' hsteps => ⟨r'.session.model, hr'.1, hsteps⟩)
    fun child noise => ensures_solve hsolve child state noise true
  refine .bind solved fun results ⟨steps, ⟨m', hm', hsteps⟩, hall⟩ => ?_
  obtain ⟨own, similar⟩ := h r.session.model m' n steps results hr.1 hn (by simpa using hchildren)
    hm' hsteps hall
  refine .bind own fun _ _ => .bind .get fun r' hr' => .ite (fun _ => ?_) fun _ => .pure trivial
  refine .bind (.ofOption fun others hothers => hothers) fun others hothers =>
    .forM fun other hother => ?_
  rw [hr'.2] at hothers ⊢
  exact similar others hothers other hother

end Run

namespace Session

/-- What every operation on a node keeps is kept at all nodes by all calls. -/
theorem throughout_afterAll
    (hsolve : ∀ index start,
      m₀.nodes.get? index = some start → ∀ noise (state : State ℚ) needsDuals,
      Action.Ensures (J index start) (Node.solve solver m₀.sense state noise needsDuals)
        fun _ => True)
    (hrefine : ∀ index start, m₀.nodes.get? index = some start →
      ∀ measure (x : State ℚ) (duals : List (State ℚ)) probabilities objectives,
        Action.Ensures (J index start)
          (Node.refine m₀.sense measure x duals probabilities objectives) fun _ => True)
    {s : Session ℚ} (h : m₀.Throughout J s.model) {calls : List (Call ℚ)}
    (hprune : ∀ i, .prune i ∈ calls → ∀ index start, m₀.nodes.get? index = some start →
      Action.Ensures (J index start) Node.prune fun _ => True) :
    m₀.Throughout J (afterAll solver s calls).model := by
  have solved : Model.Keeps solver (m₀.Throughout J) fun _ _ _ _ _ => True :=
    Model.throughout_solve hsolve fun _ => id
  refine afterAll_keeps (P := fun _ => True) solved (fun _ _ _ _ _ => trivial)
    (fun index hindex => Model.throughout_prune (hprune index hindex) index) ?_ h
  intro budget request _ session options run _ _ _ index state _
  refine Run.ensures_refineAt solved fun m m' n steps results _ _ _ _ _ _ => ?_
  exact ⟨Run.throughout_refine fun j start measure _ hs _ => hrefine j start hs _ _ _ _ _,
    fun others _ other _ => Run.throughout_refine fun j start measure _ hs _ =>
      hrefine j start hs _ _ _ _ _⟩

/-- Calls lead every node from one operation to another. -/
theorem operating_afterAll (s : Session ℚ) (calls : List (Call ℚ)) :
    s.model.Throughout (fun _ start n => Node.Operating solver s.model.sense start n)
      (afterAll solver s calls).model :=
  throughout_afterAll
    (fun _ _ _ noise state needsDuals => .of_final fun _ hn => .solved hn state noise needsDuals)
    (fun _ _ _ measure x duals probabilities objectives => .of_final fun _ hn =>
      .refined hn measure x duals probabilities objectives)
    (Model.throughout_self fun _ _ _ => .start)
    fun _ _ _ _ _ => .of_final fun _ hn => .pruned hn

end Session

end Multistage
