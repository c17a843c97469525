import Multistage.Proofs.Node.Mirror
import Multistage.Proofs.Session.Keeping

/-!
# Models of the other sense

The model of the other sense has the nodes of the other sense. The walks through both models are the
same, and so is what is done at their nodes, with negated values.

## Main definitions

- `Model.mirror`: the model of the other sense.
- `Opposites`: the solvers that are used for the two models, and the noise terms that may be met.
- `Model.Reserves`: the value terms of all nodes are reserved.

## Main statements

- `Model.twin_onNode`, `Model.twin_solve`: what is done at a node.
- `Scheme.sample_mirror`: the scenarios are the same.
-/

namespace Multistage

open Multistage.Action (Ensures Mirrors Twin)

/-- The model of the other sense. -/
def Model.mirror (m : Model ℚ) : Model ℚ :=
  { m with sense := m.sense.flip, nodes := m.nodes.mapValues fun _ n => n.mirror }

/-- The solvers for a model and for the model of the other sense, and the noise terms that may be
met at the nodes. -/
structure Opposites where
  solver : Solver ℚ
  opposite : Solver ℚ
  met : Datum ℚ → Datum ℚ → Prop
  met_congr : ∀ i j, (i == j) = true → met i = met j

namespace Model

/-- The value term of every node is reserved, and the solvers correspond if it is exchanged for its
negative. -/
def Reserves (o : Opposites) (m : Model ℚ) : Prop :=
  ∀ index n, m.nodes.get? index = some n →
    ∃ r, n.Reserves (o.met index) r ∧ o.solver.Reflects o.opposite r.term.index

variable {o : Opposites} {m : Model ℚ} {index : Datum ℚ} {n : Node ℚ} {β : Type} {h : β → β}
  {R : β → Prop}

theorem node_mirror (m : Model ℚ) (index : Datum ℚ) :
    m.mirror.node index = (m.node index).map Node.mirror := by
  refine Except.bind_image (h := id) (congrFun Except.map_id _).symm fun _ _ => ?_
  rw [show m.mirror.nodes.get? index =
    (m.nodes.get? index).map Node.mirror from Dict.get?_mapValues _]
  cases m.nodes.get? index <;> rfl

theorem Reserves.noise_met (hm : m.Reserves o) (hn : m.node index = .ok n) :
    ∀ t ∈ n.stage.noise, o.met index t.term := by
  obtain ⟨r, hr, -⟩ := hm index n (node_eq_ok.1 hn).2
  exact hr.stage.noise

theorem twin_onNode {act act' : Action ℚ (Node ℚ) β}
    (hact : ∀ r, o.solver.Reflects o.opposite r.term.index →
      Twin Node.mirror h (Node.Reserves (o.met index) r) R act act') :
    Twin mirror h (Reserves o) R (onNode index act) (onNode index act') := by
  constructor
  · refine ensures_onNode fun m n hm hn => ?_
    obtain ⟨r, hr, hreflects⟩ := hm index n (node_eq_ok.1 hn).2
    refine ⟨_, hr, (hact r hreflects).keeps, fun n' hn' j k hk => ?_⟩
    rw [Dict.get?_modify] at hk
    split at hk
    next hj =>
      obtain ⟨_, -, rfl⟩ := Option.map_eq_some_iff.1 hk
      exact ⟨r, o.met_congr index j hj ▸ hn', hreflects⟩
    next => exact hm j k hk
  · intro m hm
    have put : ∀ n' : Node ℚ,
        { m.mirror with nodes := m.mirror.nodes.modify index fun _ => n'.mirror } =
        mirror { m with nodes := m.nodes.modify index fun _ => n' } := fun n' =>
      congrArg (Model.mk _ _ _ _ · _)
        (Dict.mapValues_modify (d := m.nodes) (f := fun _ => Node.mirror) (g := fun _ => n')
          (h := fun _ _ => rfl)).symm
    unfold onNode
    rw [node_mirror]
    cases hn : m.node index with
    | error e => rfl
    | ok n =>
      obtain ⟨r, hr, hreflects⟩ := hm index n (node_eq_ok.1 hn).2
      simp only [Except.map, (hact r hreflects).mirrors n hr]
      cases act n with
      | ok b n' => exact congrArg (EStateM.Result.ok _) (put n')
      | error e n' => exact congrArg (EStateM.Result.error _) (put n')

/-- Solves of a node for a noise term that may be met. -/
theorem twin_solve (state : State ℚ) {noise : Datum ℚ} (hnoise : o.met index noise)
    (needsDuals : Bool) :
    Twin mirror Solution.mirror (Reserves o) (fun _ => True)
      (solve o.solver index state noise needsDuals)
      (solve o.opposite index state noise needsDuals) :=
  .bind .get fun _ _ => twin_onNode fun _ hreflects => Node.twin_solve hreflects hnoise needsDuals

theorem twin_prune (index : Datum ℚ) :
    Twin mirror id (Reserves o) (fun _ => True) (onNode index Node.prune)
      (onNode index Node.prune) :=
  twin_onNode fun _ _ => Node.twin_prune

/-! ### Walks -/

theorem outcomes_mirror (m : Model ℚ) (edges : List (Edge ℚ)) :
    Session.outcomes m.mirror edges = Session.outcomes m edges := by
  refine congrArg (· >>= _) (Except.mapM_congr fun e _ => ?_)
  rw [node_mirror]
  cases m.node e.child <;> rfl

theorem Reserves.outcomes_met (hm : m.Reserves o) {edges : List (Edge ℚ)}
    {steps : List (Datum ℚ × NoiseTerm ℚ × ℚ)} (hsteps : Session.outcomes m edges = .ok steps) :
    ∀ step ∈ steps, o.met step.1 step.2.1.term := by
  obtain ⟨perEdge, hperEdge, h⟩ := Except.bind_eq_ok.1 hsteps
  cases h
  intro step hstep
  obtain ⟨group, hgroup, hmem⟩ := List.mem_flatten.1 hstep
  obtain ⟨e, -, he⟩ := Except.exists_of_mem_mapM hperEdge hgroup
  obtain ⟨n, hn, he⟩ := Except.bind_eq_ok.1 he
  cases he
  obtain ⟨t, ht, rfl⟩ := List.mem_map.1 hmem
  exact hm.noise_met hn t ht

theorem walkFrom_mirror (m : Model ℚ) (depth : ℤ) (stopsOnCycle : Bool) (steps : ℕ)
    (edges : List (Edge ℚ)) (path : List (Visit ℚ)) :
    walkFrom m.mirror depth stopsOnCycle steps edges path =
      walkFrom m depth stopsOnCycle steps edges path := by
  induction steps generalizing edges path with
  | zero => rfl
  | succ steps ih =>
    unfold walkFrom
    simp only [node_mirror, ih]
    refine congrArg (ite _ _) (congrArg (_ >>= ·) (funext fun choice => ?_))
    cases choice with
    | none => rfl
    | some index =>
      refine congrArg (ite _ _) ?_
      cases m.node index <;> rfl

/-- A walk that goes on from a path through noise terms that may be met. -/
theorem Reserves.walkFrom_met (hm : m.Reserves o) (depth : ℤ) (stopsOnCycle : Bool) (steps : ℕ)
    (edges : List (Edge ℚ)) {path : List (Visit ℚ)} (hpath : ∀ v ∈ path, o.met v.node v.noise) :
    Ensures (fun _ => True) (walkFrom m depth stopsOnCycle steps edges path)
      fun s => ∀ v ∈ s.path, o.met v.node v.noise := by
  induction steps generalizing edges path with
  | zero => exact .throw
  | succ steps ih =>
    refine .ite (fun _ => .pure hpath) fun _ => ?_
    refine .bind (R := fun _ => True) (.of_final fun _ _ => trivial) fun choice _ => ?_
    cases choice with
    | none => exact .pure hpath
    | some index =>
      refine .ite (fun _ => .pure hpath) fun _ => .bind (.ofExcept fun n hn => hn) fun n hn => ?_
      have chosen : Ensures (fun _ => True) (chooseNoise n) (o.met index) := by
        refine .bind (R := fun _ => True) (.of_final fun _ _ => trivial) fun i _ =>
          .ofOption fun noise h => ?_
        obtain ⟨t, ht, rfl⟩ := Option.map_eq_some_iff.1 h
        exact hm.noise_met hn t (List.mem_of_getElem? ht)
      refine .bind chosen fun noise hnoise => ?_
      have longer : ∀ v ∈ path ++ [⟨index, noise⟩], o.met v.node v.noise := fun v hv =>
        (List.mem_append.1 hv).elim (hpath v) fun hv => by rwa [List.mem_singleton.1 hv]
      exact .ite (fun _ => .pure longer) fun _ => .ite (fun _ => .pure longer) fun _ =>
        ih n.children longer

end Model

namespace Scheme

variable {o : Opposites} {m : Model ℚ}

/-- The scenarios of the scheme that are given run through noise terms that may be met. -/
def Meets (o : Opposites) : Scheme ℚ → Prop
  | randomWalk _ _ => True
  | given scenarios => ∀ s ∈ scenarios, ∀ v ∈ s.path, o.met v.node v.noise

theorem sample_mirror (m : Model ℚ) (scheme : Scheme ℚ) :
    scheme.sample m.mirror = scheme.sample m := by
  have walks : ∀ depth stopsOnCycle, walk m.mirror depth stopsOnCycle = walk m depth stopsOnCycle :=
    fun depth stopsOnCycle => congrArg (MonadState.get >>= ·)
      (funext fun draws => Model.walkFrom_mirror m depth stopsOnCycle _ _ _)
  cases scheme with
  | randomWalk depth stopsOnCycle => exact congrArg (· >>= _) (walks depth stopsOnCycle.truth)
  | given scenarios => cases scenarios <;> rfl

/-- A scenario runs through noise terms that may be met, and so do those after it. -/
theorem Meets.sample_met {scheme : Scheme ℚ} (h : scheme.Meets o) (hm : m.Reserves o) :
    Ensures (fun _ => True) (scheme.sample m)
      fun found => (∀ v ∈ found.1.path, o.met v.node v.noise) ∧ found.2.Meets o := by
  cases scheme with
  | randomWalk depth stopsOnCycle =>
    have walked : Ensures (fun _ => True) (walk m depth stopsOnCycle.truth)
        fun s => ∀ v ∈ s.path, o.met v.node v.noise :=
      .bind .get fun _ _ => hm.walkFrom_met depth _ _ _ nofun
    exact .bind walked fun s hs => .pure ⟨hs, trivial⟩
  | given scenarios =>
    cases scenarios with
    | nil => exact .throw
    | cons s rest =>
      exact .pure ⟨h s List.mem_cons_self, fun t ht => h t (List.mem_cons_of_mem _ ht)⟩

end Scheme

end Multistage
