import Multistage.Proofs.Dict
import Multistage.Proofs.Node.Declaration
import Multistage.Proofs.Session.Calls

/-!
# What is declared of a model

The nodes of a model with their children and their noise terms are declared once; no call changes
them.

## Main definitions

- `Model.declaration`: the model with the declarations of its nodes.

## Main statements

- `Model.declaration_solve`, `Run.declaration_refineAt`, `Session.declaration_afterAll`: it stays.
-/

namespace Multistage

variable {α β : Type} [Scalar α] [Quantity β α] {solver : Solver α}

/-- The model without the numbers of its nodes. -/
def Model.declaration (m : Model α) : Model α :=
  { m with nodes := m.nodes.mapValues fun _ n => n.declaration }

namespace Model

variable {d : Model α}

/-- A node that is put back with the same declaration leaves that of the model. -/
theorem declaration_put {m : Model α} {index : Datum α} {n n' : Node α} (hn : m.node index = .ok n)
    (h : n'.declaration = n.declaration) :
    ({ m with nodes := m.nodes.modify index fun _ => n' } : Model α).declaration =
    m.declaration := by
  show ({ m with nodes := (m.nodes.modify index fun _ => n').mapValues fun _ n => n.declaration } :
    Model α) = { m with nodes := m.nodes.mapValues fun _ n => n.declaration }
  rw [Dict.mapValues_modify_of_eq (node_eq_ok.1 hn).2 h]

/-- Acting on a node keeps the declaration of the model if it keeps that of the node. -/
theorem declaration_onNode {τ : Type} {act : Action α (Node α) τ} {R : τ → Prop} (index : Datum α)
    (h : ∀ e, Action.Ensures (fun n => n.declaration = e) act R) :
    Action.Ensures (fun m => m.declaration = d) (onNode index act) R :=
  ensures_onNode fun _ n hm hn =>
    ⟨fun n' => n'.declaration = n.declaration, rfl, h n.declaration, fun _ hn' =>
      (declaration_put hn hn').trans hm⟩

/-- Models with the same declaration have the same nodes but for their numbers. -/
theorem get?_of_declaration_eq {m m' : Model α} (h : m'.declaration = m.declaration)
    {index : Datum α} {n : Node α} (hn : m.nodes.get? index = some n) :
    ∃ n', m'.nodes.get? index = some n' ∧ n'.declaration = n.declaration := by
  have := congrArg (fun m : Model α => m.nodes.get? index) h
  simp only [declaration, Dict.get?_mapValues, hn, Option.map_some, Option.map_eq_some_iff] at this
  exact this

/-- Models with the same declaration have the same nodes, each with its declaration. -/
theorem node_of_declaration_eq {m m' : Model α} (h : m'.declaration = m.declaration)
    {index : Datum α} {n : Node α} (hn : m.node index = .ok n) :
    ∃ n', m'.node index = .ok n' ∧ n'.declaration = n.declaration := by
  obtain ⟨hkey, hget⟩ := node_eq_ok.1 hn
  obtain ⟨n', hget', hdecl⟩ := get?_of_declaration_eq h hget
  exact ⟨n', node_eq_ok.2 ⟨hkey, hget'⟩, hdecl⟩

/-- Models with the same declaration have their nodes in the same order. -/
theorem keys_of_declaration_eq {m m' : Model α} (h : m'.declaration = m.declaration) :
    m'.nodes.keys = m.nodes.keys := by
  have := congrArg (fun m : Model α => m.nodes.keys) h
  simpa only [declaration, Dict.keys_mapValues] using this

/-- Which nodes are similar depends on the declaration. -/
theorem similar_declaration (m : Model α) : m.declaration.similar = m.similar := by
  unfold similar declaration Dict.mapValues
  simp only [List.map_map, List.filter_map, Function.comp_def]
  rfl

/-- The transition map depends on the declaration. -/
theorem transitionMap_declaration (m : Model α) :
    transitionMap m.declaration.nodes = transitionMap m.nodes := by
  unfold transitionMap declaration Dict.mapValues
  rw [List.flatMap_map]
  rfl

theorem declaration_solve (index : Datum α) (state : State β) (noise : Datum α)
    (needsDuals : Bool) :
    Action.Ensures (fun m => m.declaration = d) (solve solver index state noise needsDuals)
      fun _ => True :=
  .bind .get fun _ _ => declaration_onNode index fun _ =>
    Node.declaration_solve solver _ state noise _

/-- Solves leave the declaration as it is. -/
theorem keeps_declaration : Keeps solver (fun m => m.declaration = d) fun _ _ _ _ _ => True :=
  fun index noise state needsDuals => declaration_solve index state noise needsDuals

end Model

namespace Run

variable {d : Model α} {settings : PassSettings α}

theorem declaration_solve (solver : Solver α) (index : Datum α) (state : State β)
    (noise : Datum α) (needsDuals : Bool) :
    Action.Ensures (Keeping (fun m => m.declaration = d) settings)
      (solve solver index state noise needsDuals) fun _ => True :=
  ensures_timed _ (.bind ensures_heed_keeping fun _ _ => ensures_onSession
    (.focus (Model.declaration_solve index state noise needsDuals) (fun _ => id) fun _ _ _ => id))

theorem declaration_refine (index : Datum α) (state : State β) (results : List (ChildSolution α))
    (probabilities : List α) :
    Action.Ensures (Keeping (fun m => m.declaration = d) settings)
      (refine index state results probabilities) fun _ => True := by
  refine .bind ensures_heed_keeping fun _ _ => ?_
  refine .bind (.bind .get fun r _ => .ofOption fun _ _ => trivial) fun measure _ => ?_
  refine .bind .get fun r _ => ensures_onSession (.focus (Model.declaration_onNode index fun _ =>
    Node.declaration_refine _ measure state _ probabilities _) (fun _ => id) fun _ _ _ => id)

theorem declaration_refineAt (index : Datum α) (state : State β) :
    Action.Ensures (Keeping (fun m => m.declaration = d) settings) (refineAt solver index state)
      fun _ => True := by
  refine .bind .get fun r _ => .bind (.ofExcept fun _ _ => trivial) fun n _ => ?_
  refine .ite (fun _ => .pure trivial) fun _ => ?_
  have solved := Session.ensures_solveChildren n.children (·.session.model) (P := fun _ => True)
    (K := Keeping (fun m => m.declaration = d) settings) (fun _ _ _ _ => trivial)
    fun child noise => declaration_solve solver child state noise true
  refine .bind solved fun results _ => .bind (declaration_refine index state results _)
    fun _ _ => ?_
  refine .bind .get fun r _ => .ite (fun _ => ?_) fun _ => .pure trivial
  refine .bind (.ofOption fun _ _ => trivial) fun others _ => .forM fun other _ => ?_
  exact declaration_refine other state results _

end Run

/-- No calls change the declaration. -/
theorem Session.declaration_afterAll (s : Session α) (calls : List (Call α)) :
    (afterAll solver s calls).model.declaration = s.model.declaration :=
  afterAll_keeps (I := fun m => m.declaration = s.model.declaration) (P := fun _ => True)
    Model.keeps_declaration (fun _ _ _ _ _ => trivial)
    (fun index _ => Model.declaration_onNode index fun _ => Node.declaration_prune)
    (fun _ _ _ _ _ _ _ _ _ index state _ => Run.declaration_refineAt index state) rfl

end Multistage
