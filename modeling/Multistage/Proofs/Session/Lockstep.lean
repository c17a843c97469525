import Multistage.Proofs.Parallel
import Multistage.Proofs.Model.Declaration

/-!
# Sessions in step

Two sessions do the same if they have the same draws and their models agree: solving a node answers
the same in both models and leaves models that agree, and so does the refinement of a node about
which they agree.

## Main definitions

- `Model.Lockstep`: a relation of models that agree on a set of nodes, kept by what is done to them.
- `Session.Agree`: sessions with the same draws and models that agree.

## Main statements

- `Session.inStep_sample`, `Session.inStep_boundBy`: the same scenarios, and the same bound.
- `Model.lockstep_eq`: models that are the same do the same.
-/

namespace Multistage

open Multistage.Action (InStep Parallel)

variable {α : Type} [Scalar α]

/-! ### What walks and outcomes depend on -/

namespace Model

theorem node_declaration (m : Model α) (index : Datum α) :
    m.declaration.node index = (m.node index).map (·.declaration) := by
  refine Except.bind_image (h := id) (congrFun Except.map_id _).symm fun _ _ => ?_
  show (m.declaration.nodes.get? index).elim _ _ = _
  unfold declaration
  rw [Dict.get?_mapValues]
  cases m.nodes.get? index <;> rfl

/-- Models with the same declaration lack the same nodes. -/
theorem node_eq_error_of_declaration_eq {m m' : Model α} (h : m'.declaration = m.declaration)
    {index : Datum α}
    {e : Failure α} (hn : m.node index = .error e) : m'.node index = .error e := by
  have same := m'.node_declaration index
  rw [h, node_declaration, hn] at same
  cases hn' : m'.node index with
  | ok n' => rw [hn'] at same; cases same
  | error e' => rw [hn'] at same; cases same; rfl

theorem sense_of_declaration_eq {m m' : Model α} (h : m'.declaration = m.declaration) :
    m'.sense = m.sense :=
  congrArg (·.sense) h

theorem rootChildren_of_declaration_eq {m m' : Model α} (h : m'.declaration = m.declaration) :
    m'.rootChildren = m.rootChildren :=
  congrArg (·.rootChildren) h

theorem initial_of_declaration_eq {m m' : Model α} (h : m'.declaration = m.declaration) :
    m'.initial = m.initial :=
  congrArg (·.initial) h

theorem outcomes_declaration (m : Model α) (edges : List (Edge α)) :
    Session.outcomes m.declaration edges = Session.outcomes m edges := by
  refine congrArg (· >>= _) (Except.mapM_congr fun e _ => ?_)
  rw [node_declaration]
  cases m.node e.child <;> rfl

theorem walkFrom_declaration (m : Model α) (depth : ℤ) (stopsOnCycle : Bool) (steps : ℕ)
    (edges : List (Edge α)) (path : List (Visit α)) :
    walkFrom m.declaration depth stopsOnCycle steps edges path =
      walkFrom m depth stopsOnCycle steps edges path := by
  induction steps generalizing edges path with
  | zero => rfl
  | succ steps ih =>
    unfold walkFrom
    simp only [node_declaration, ih]
    refine congrArg (ite _ _) (congrArg (_ >>= ·) (funext fun choice => ?_))
    cases choice with
    | none => rfl
    | some index =>
      refine congrArg (ite _ _) ?_
      cases m.node index <;> rfl

end Model

theorem Scheme.sample_declaration (m : Model α) (scheme : Scheme α) :
    scheme.sample m.declaration = scheme.sample m := by
  have walks :
      ∀ depth stopsOnCycle, walk m.declaration depth stopsOnCycle = walk m depth stopsOnCycle :=
    fun depth stopsOnCycle => congrArg (MonadState.get >>= ·)
      (funext fun draws => Model.walkFrom_declaration m depth stopsOnCycle _ _ _)
  cases scheme with
  | randomWalk depth stopsOnCycle => exact congrArg (· >>= _) (walks depth stopsOnCycle.truth)
  | given scenarios => cases scenarios <;> rfl

/-! ### Models that agree -/

/-- Models that agree on a set of nodes declare the same. Solving a node gives the same solution,
and the models agree on the node from then on; nodes on which they agree are refined alike. What
fails, fails in both for causes in a relation. -/
structure Model.Lockstep (solver : Solver α) (K : Set (Datum α) → Model α → Model α → Prop)
    (F : Failure α → Failure α → Prop) : Prop where
  hereditary : Action.Hereditary K
  refl : ∀ e, F e e
  declaration : ∀ {S m m'}, K S m m' → m'.declaration = m.declaration
  solve : ∀ S index (state : State α) noise needsDuals,
    InStep K F S (Model.solve solver index state noise needsDuals) fun _ => insert index S
  refine : ∀ S index, index ∈ S → ∀ sense measure (state : State α) (duals : List (State α))
    probabilities objectives,
    let act := Model.onNode index (Node.refine sense measure state duals probabilities objectives)
    Parallel (fun m m' => K S m m' ∧ m.sense = sense) act act (fun _ _ => K S) fun e e' m m' =>
      F e e' ∧ K ∅ m m'

/-- What is done to the same model is the same. -/
theorem Model.lockstep_eq (solver : Solver α) : Model.Lockstep solver (fun _ => Eq) Eq := by
  have same : ∀ {β : Type} (act : Action α (Model α) β) (S : Set (Datum α))
      (S' : β → Set (Datum α)),
      InStep (fun _ => Eq) Eq S act S' := by
    rintro β act S S' m _ rfl
    cases act m with
    | ok b t => exact ⟨rfl, rfl⟩
    | error e t => exact ⟨rfl, rfl⟩
  refine ⟨fun _ _ _ _ _ => id, fun _ => rfl, fun h => h ▸ rfl, fun _ _ _ _ _ => same _ _ _,
    fun _ _ _ _ _ _ _ _ _ => ?_⟩
  exact (same _ ∅ fun _ => ∅).consequence (fun _ _ => And.left) (fun _ _ _ _ => And.right)
    fun _ _ _ _ => id

namespace Session

variable {solver : Solver α} {K : Set (Datum α) → Model α → Model α → Prop}
  {F : Failure α → Failure α → Prop}
  {S : Set (Datum α)}

/-- Sessions that have the same draws left, with models that agree; how their clocks are related
stays as it is. -/
structure Agree (K : Set (Datum α) → Model α → Model α → Prop) (T : Session α → Session α → Prop)
    (S : Set (Datum α)) (s s' : Session α) : Prop where
  model : K S s.model s'.model
  draws : s'.draws = s.draws
  times : T s s'

/-- The relation speaks of the clocks only. -/
def OfClocks (T : Session α → Session α → Prop) : Prop :=
  ∀ s s' m m' draws draws', T s s' →
    T { s with model := m, draws := draws } { s' with model := m', draws := draws' }

variable {T : Session α → Session α → Prop}

theorem hereditary_agree (h : Model.Lockstep solver K F) : Action.Hereditary (Agree K T) :=
  fun _ _ hS _ _ hs => ⟨h.hereditary hS _ _ hs.model, hs.draws, hs.times⟩

omit [Scalar α] in
theorem inStep_onModel {β : Type} {act : Action α (Model α) β} {S' : β → Set (Datum α)}
    (hT : OfClocks T) (hact : InStep K F S act S') : InStep (Agree K T) F S (onModel act) S' :=
  .focus hact (fun _ _ hs => hs.model) fun _ s s' m m' hs hm =>
    ⟨hm, hs.draws, hT s s' m m' s.draws s'.draws hs.times⟩

theorem inStep_onDraws {β : Type} (h : Model.Lockstep solver K F) (hT : OfClocks T)
    (act : Action α (Draws α) β) : InStep (Agree K T) F S (onDraws act) fun _ => S := by
  refine Action.Parallel.of_cases fun s s' hs => ?_
  have agreed : ∀ {S'} draws, S' ⊆ S →
      Agree K T S' { s with draws := draws } { s' with draws := draws } :=
    fun draws hS =>
      ⟨h.hereditary hS _ _ hs.model, rfl, hT s s' s.model s'.model draws draws hs.times⟩
  cases hr : act s.draws with
  | ok b t =>
    exact .inl ⟨b, b, _, _, Action.focus_eq_ok.2 ⟨t, hr, rfl⟩,
      Action.focus_eq_ok.2 ⟨t, hs.draws ▸ hr, rfl⟩, rfl, agreed t subset_rfl⟩
  | error e t =>
    exact .inr ⟨e, e, _, _, Action.focus_eq_error.2 ⟨t, hr, rfl⟩,
      Action.focus_eq_error.2 ⟨t, hs.draws ▸ hr, rfl⟩, h.refl e, agreed t (Set.empty_subset S)⟩

/-- Both sessions find the same scenario. -/
theorem inStep_sample (h : Model.Lockstep solver K F) (hT : OfClocks T) (scheme : Scheme α) :
    InStep (Agree K T) F S (sample scheme) fun _ => S := by
  refine .get_bind (fun s s' hs => ?_) fun s => inStep_onDraws h hT _
  rw [← Scheme.sample_declaration, ← Scheme.sample_declaration s'.model, h.declaration hs.model]

theorem inStep_solve (h : Model.Lockstep solver K F) (hT : OfClocks T) (index : Datum α)
    (state : State α) (noise : Datum α) (needsDuals : Bool) :
    InStep (Agree K T) F S (solve solver index state noise needsDuals) fun _ => insert index S :=
  inStep_onModel hT (h.solve S index state noise needsDuals)

/-- The same children are solved for the same noise terms. -/
theorem inStep_solveChildren {σ : Type} {R : Set (Datum α) → σ → σ → Prop} {model : σ → Model α}
    {solve : Datum α → Datum α → Action α σ (Solution α)} (hR : Action.Hereditary R)
    (hF : ∀ e, F e e) (edges : List (Edge α))
    (hmodel : ∀ s s', R S s s' → (model s').declaration = (model s).declaration)
    (hsolve : ∀ child noise, InStep R F S (solve child noise) fun _ => S) :
    InStep R F S (solveChildren edges model solve) fun _ => S := by
  refine .get_bind (fun s s' hs => ?_) fun s => .bind (.ofExcept hR hF) fun steps =>
    .mapM fun step _ => ?_
  · rw [← Model.outcomes_declaration, ← Model.outcomes_declaration (model s'), hmodel s s' hs]
  · exact .bind (hsolve step.1 step.2.1.term) fun _ => .pure fun _ => S

/-- Where the same children are solved, the bound is the same. -/
theorem inStep_boundBy {σ : Type} {R : Set (Datum α) → σ → σ → Prop} {model : σ → Model α}
    {solve : Datum α → Datum α → Action α σ (Solution α)} (hR : Action.Hereditary R)
    (hF : ∀ e, F e e) (measure : Measure α)
    (hmodel : ∀ s s', R S s s' → (model s').declaration = (model s).declaration)
    (hsolve : ∀ child noise, InStep R F S (solve child noise) fun _ => S) :
    InStep R F S (boundBy model solve measure) fun _ => S := by
  refine .get_bind (fun s s' hs => ?_) fun s => .bind ?_ fun results =>
    .bind (.ofExcept hR hF) fun q => .pure fun _ => S
  · have hdecl := hmodel s s' hs
    simp only [Model.rootChildren_of_declaration_eq hdecl, Model.sense_of_declaration_eq hdecl]
  · exact inStep_solveChildren hR hF _ hmodel hsolve

end Session

end Multistage
