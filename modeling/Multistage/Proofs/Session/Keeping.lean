import Multistage.Simulation
import Multistage.Proofs.Action
import Multistage.Proofs.Except

/-!
# What sessions keep

All that a session does to its model is to solve nodes, so that whatever solving keeps is kept by
bounds and simulations.

## Main definitions

- `Model.Keeps`: every solve keeps a property of the model and ensures one of its solution.
- `Session.Records`: the records of visits.

## Main statements

- `Model.ensures_onNode`: acting on a node, in terms of the node.
- `Session.ensures_solveChildren`: the solutions of children are those of the outcomes of a step.
- `Session.ensures_bound`, `Session.ensures_simulate`: the two operations.
-/

namespace Multistage

variable {α : Type} [Scalar α]

namespace Model

variable {I : Model α → Prop}

theorem node_eq_ok {m : Model α} {index : Datum α} {n : Node α} :
    m.node index = .ok n ↔ index.requireKey = .ok () ∧ m.nodes.get? index = some n := by
  constructor
  · intro h
    obtain ⟨_, hkey, h⟩ := Except.bind_eq_ok.1 h
    exact ⟨hkey, Except.elim_eq_ok.1 h⟩
  · rintro ⟨hkey, hg⟩
    exact Except.bind_eq_ok.2 ⟨(), hkey, Except.elim_eq_ok.2 hg⟩

/-- Acting on a node answers iff the node exists and the action answers. -/
theorem onNode_eq_ok {index : Datum α} {τ : Type} {act : Action α (Node α) τ} {b : τ}
    {m m' : Model α} :
    onNode index act m = .ok b m' ↔ ∃ n n', m.node index = .ok n ∧ act n = .ok b n' ∧
      m' = { m with nodes := m.nodes.modify index fun _ => n' } := by
  unfold onNode
  cases hn : m.node index with
  | error e =>
    constructor
    · intro h
      cases h
    · rintro ⟨n, n', h, -⟩
      cases h
  | ok n =>
    simp only
    cases hact : act n with
    | error e n' =>
      constructor
      · intro h
        cases h
      · rintro ⟨k, k', h, hk, -⟩
        cases h
        cases hact.symm.trans hk
    | ok b n' =>
      constructor
      · intro h
        cases h
        exact ⟨n, n', rfl, hact, rfl⟩
      · rintro ⟨k, k', h, hk, rfl⟩
        cases h
        cases hact.symm.trans hk
        rfl

/-- Acting on a node fails iff the node does not exist or the action fails. -/
theorem onNode_eq_error {index : Datum α} {τ : Type} {act : Action α (Node α) τ} {e : Failure α}
    {m m' : Model α} :
    onNode index act m = .error e m' ↔ m.node index = .error e ∧ m' = m ∨
      ∃ n n', m.node index = .ok n ∧ act n = .error e n' ∧
        m' = { m with nodes := m.nodes.modify index fun _ => n' } := by
  unfold onNode
  cases hn : m.node index with
  | error c => simp [eq_comm]
  | ok n =>
    cases hact : act n with
    | ok b n' => simp [hact]
    | error c n' => simp [hact, eq_comm]

/-- Acting on a known node. -/
theorem triple_onNode {index : Datum α} {τ : Type} {act : Action α (Node α) τ}
    {Q : τ → Node α → Prop}
    {E : Node α → Prop} {m : Model α} {n : Node α} (hn : m.node index = .ok n)
    (h : Action.Triple (· = n) act Q E) :
    Action.Triple (· = m) (onNode index act)
      (fun b t => ∃ n', t = { m with nodes := m.nodes.modify index fun _ => n' } ∧ Q b n')
      fun t => ∃ n', t = { m with nodes := m.nodes.modify index fun _ => n' } ∧ E n' := by
  refine .of_cases ?_ ?_
  · rintro _ b t rfl hr
    obtain ⟨n₁, n', hn₁, hact, rfl⟩ := onNode_eq_ok.1 hr
    cases hn.symm.trans hn₁
    exact ⟨n', rfl, h.ok rfl hact⟩
  · rintro _ e t rfl hr
    obtain ⟨hnone, -⟩ | ⟨n₁, n', hn₁, hact, rfl⟩ := onNode_eq_error.1 hr
    · cases hn.symm.trans hnone
    · cases hn.symm.trans hn₁
      exact ⟨n', rfl, h.error rfl hact⟩

/-- Acting on a node keeps what holds of the model, if the node may be put back. -/
theorem ensures_onNode {index : Datum α} {τ : Type} {act : Action α (Node α) τ} {R : τ → Prop}
    (h : ∀ m n, I m → m.node index = .ok n → ∃ J : Node α → Prop, J n ∧ Action.Ensures J act R ∧
      ∀ n', J n' → I { m with nodes := m.nodes.modify index fun _ => n' }) :
    Action.Ensures I (onNode index act) R := by
  refine .of_cases (fun m b t hm hr => ?_) fun m e t hm hr => ?_
  · obtain ⟨n, n', hn, hact', rfl⟩ := onNode_eq_ok.1 hr
    obtain ⟨J, hJ, hact, hput⟩ := h m n hm hn
    exact ⟨hput n' (hact.ok hJ hact').1, (hact.ok hJ hact').2⟩
  · obtain ⟨-, rfl⟩ | ⟨n, n', hn, hact', rfl⟩ := onNode_eq_error.1 hr
    · exact hm
    · obtain ⟨J, hJ, hact, hput⟩ := h m n hm hn
      exact hput n' (hact.error hJ hact')

/-- Every solve, with or without duals, keeps `I`, and its solution has `R`. -/
def Keeps (solver : Solver α) (I : Model α → Prop)
    (R : Bool → Datum α → Datum α → State α → Solution α → Prop) : Prop :=
  ∀ index noise state needsDuals, Action.Ensures I (Model.solve solver index state noise needsDuals)
    (R needsDuals index noise state)

end Model

namespace Session

variable {solver : Solver α} {I : Model α → Prop}
  {R : Bool → Datum α → Datum α → State α → Solution α → Prop}

omit [Scalar α] in
theorem ensures_onDraws {τ : Type} (act : Action α (Draws α) τ) :
    Action.Ensures (fun s : Session α => I s.model) (onDraws act) fun _ => True :=
  .elsewhere act fun _ _ => id

omit [Scalar α] in
theorem ensures_readClock :
    Action.Ensures (fun s : Session α => I s.model) readClock fun _ => True :=
  .bind .get fun _ _ => .bind (.modify fun _ => id) fun _ _ => .pure trivial

theorem ensures_sample (scheme : Scheme α) :
    Action.Ensures (fun s : Session α => I s.model) (sample scheme) fun _ => True :=
  .bind .get fun _ _ => ensures_onDraws _

theorem ensures_solve (h : Model.Keeps solver I R) (index : Datum α) (state : State α)
    (noise : Datum α) (needsDuals : Bool) :
    Action.Ensures (fun s : Session α => I s.model) (solve solver index state noise needsDuals)
      (R needsDuals index noise state) :=
  .focus (h index noise state needsDuals) (fun _ => id) fun _ _ _ => id

/-- The solution of a child belongs to an outcome of a step. -/
structure Solves (R : Datum α → Datum α → Solution α → Prop)
    (step : Datum α × NoiseTerm α × α) (c : ChildSolution α) : Prop where
  child : c.child = step.1
  noise : c.noise = step.2.1
  probability : c.probability = step.2.2
  solution : R step.1 step.2.1.term c.solution

/-- The solutions of children are those of the outcomes of the step. -/
theorem ensures_solveChildren {σ : Type} {K : σ → Prop} (edges : List (Edge α))
    (model : σ → Model α) {solve : Datum α → Datum α → Action α σ (Solution α)}
    {S : Datum α → Datum α → Solution α → Prop}
    {P : List (Datum α × NoiseTerm α × α) → Prop}
    (hsteps : ∀ s steps, K s → outcomes (model s) edges = .ok steps → P steps)
    (hsolve : ∀ child noise, Action.Ensures K (solve child noise) (S child noise)) :
    Action.Ensures K (solveChildren edges model solve)
      fun results => ∃ steps, P steps ∧ List.Forall₂ (Solves S) steps results := by
  refine .bind .get fun s hs => .bind (.ofExcept fun steps h => hsteps s steps hs h)
    fun steps hP => ?_
  refine (Action.Ensures.mapM (S := Solves S) fun step _ => ?_).weaken
    fun results hall => ⟨steps, hP, hall⟩
  exact .bind (hsolve step.1 step.2.1.term) fun solution hsolution =>
    .pure ⟨rfl, rfl, rfl, hsolution⟩

/-- The risk-adjusted value of a state is that of solutions of the children of the root. -/
theorem ensures_bound (h : Model.Keeps solver I R) (state : State α) (measure : Measure α) :
    Action.Ensures (fun s : Session α => I s.model) (bound solver state measure) fun v =>
      ∃ m m' steps results q, I m ∧ I m' ∧ outcomes m' m.rootChildren = .ok steps ∧
        List.Forall₂ (Solves fun child noise => R true child noise state) steps results ∧
        measure.adjust m.sense (results.map (·.probability))
          (results.map (·.solution.objective)) = .ok q ∧
        v = Scalar.dotInLanes (results.map (·.solution.objective)) q := by
  refine .bind .get fun s hs => ?_
  have solved := ensures_solveChildren s.model.rootChildren (·.model)
    (K := fun s : Session α => I s.model)
    (P := fun steps => ∃ m', I m' ∧ outcomes m' s.model.rootChildren = .ok steps)
    (fun t steps ht h => ⟨t.model, ht, h⟩)
    fun child noise => ensures_solve h child state noise true
  refine .bind solved fun results hresults => .bind (.ofExcept fun q hq => hq) fun q hq => .pure ?_
  obtain ⟨steps, ⟨m', hm', hsteps⟩, hall⟩ := hresults
  exact ⟨s.model, m', steps, results, q, hs, hm', hsteps, hall, hq, rfl⟩

/-- The record is one of a visit, at which the node was solved without duals. -/
def Records (R : Bool → Datum α → Datum α → State α → Solution α → Prop) (names : List Name)
    (recorders : List (Name × Recorder α)) (record : VisitRecord α) : Prop :=
  ∃ visit state s p, R false visit.node visit.noise state s ∧
    visitRecord visit s p names recorders = .ok record

theorem ensures_followPath (h : Model.Keeps solver I R) (names : List Name)
    (recorders : List (Name × Recorder α)) (path : List (Visit α)) (state : State α) :
    Action.Ensures (fun s : Session α => I s.model) (followPath solver names recorders path state)
      fun records => ∀ record ∈ records, Records R names recorders record := by
  induction path generalizing state with
  | nil => exact .pure nofun
  | cons visit rest ih =>
    refine .bind (ensures_solve h visit.node state visit.noise false) fun s hs =>
      .bind .get fun t _ => ?_
    refine .bind (.ofExcept fun _ _ => trivial) fun n _ => .bind (.ofExcept fun _ => id)
      fun record hrecord => ?_
    refine .bind (ih s.outgoing) fun records hrecords => .pure ?_
    exact List.forall_mem_cons.2 ⟨⟨visit, state, s, _, hs, hrecord⟩, hrecords⟩

theorem ensures_simulate (h : Model.Keeps solver I R) (names : List Name)
    (recorders : List (Name × Recorder α)) (replications : ℕ) (scheme : Scheme α) :
    Action.Ensures (fun s : Session α => I s.model)
      (simulate solver names recorders replications scheme)
      fun scenarios => ∀ records ∈ scenarios, ∀ record ∈ records,
        Records R names recorders record := by
  induction replications generalizing scheme with
  | zero => exact .pure nofun
  | succ replications ih =>
    refine .bind (ensures_sample scheme) fun found _ => .bind .get fun s _ => ?_
    refine .bind (ensures_followPath h names recorders _ _) fun records hrecords =>
      .bind (ih found.2)
      fun scenarios hscenarios => .pure ?_
    exact List.forall_mem_cons.2 ⟨hrecords, hscenarios⟩

end Session

end Multistage
