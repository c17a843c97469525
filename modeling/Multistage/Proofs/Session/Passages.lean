import Multistage.Proofs.Model.Declaration
import Multistage.Simulation

/-!
# The passages of a walk

A forward pass and a simulation are two loops around the same solve. Each of them enters one node
after the other and leaves it in the state in which the next one is entered; what differs is what
they keep of a visit. Both are read off the passages through the nodes: the states in which they
were entered, with the solutions that were found there, up to the first failure.

## Main definitions

- `Passage`, `travel`: the passages of a walk whose step solves one node.
- `Session.baseRecord`, `Passage.record`: the records of a visit and of a passage.
- `Session.step`: the step of a simulation.

## Main statements

- `travel_keeps`: what every step keeps is kept along a path.
- `Session.followPath_eq_travel`, `Session.simulate_of_ok`: a simulation in terms of its passages.
-/

namespace Multistage

variable {α : Type} [Scalar α] {solver : Solver α}

/-- A visit, with the state in which its node was entered and the solution that was found there. -/
structure Passage (α : Type) where
  visit : Visit α
  incoming : State α
  solution : Solution α

/-- The passages along a path from a state, by a step that enters and solves one node, up to the
first failure; and how the walk ends. -/
def travel {σ : Type} (step : Visit α → State α → Action α σ (State α × Solution α)) :
    (path : List (Visit α)) → (state : State α) → (t : σ) →
    List (Passage α) × EStateM.Result (Failure α) σ Unit
  | [], _, t => ([], .ok ⟨⟩ t)
  | visit :: rest, state, t =>
    match step visit state t with
    | .ok (incoming, s) t' =>
      let (passages, result) := travel step rest s.outgoing t'
      (⟨visit, incoming, s⟩ :: passages, result)
    | .error e t' => ([], .error e t')

/-- What is recorded of every visit. -/
def Session.baseRecord (visit : Visit α) (s : Solution α) : VisitRecord α := Dict.ofList [
  (.text "node_index", .datum visit.node),
  (.text "noise_term", .datum visit.noise),
  (.text "stage_objective", .reading (.number s.stageObjective)),
  (.text "bellman_term", .reading (.number (s.objective - s.stageObjective)))]

/-- The record of a passage, if nothing else is asked for. -/
def Passage.record (p : Passage α) : VisitRecord α := Session.baseRecord p.visit p.solution

/-- The recorded objectives are those of the stages. -/
theorem Passage.map_record_stageObjective (passages : List (Passage α)) :
    passages.map (fun p => Dict.get? p.record (.text "stage_objective")) =
      (passages.map (·.solution.stageObjective)).map fun x => some (.reading (.number x)) := by
  rw [List.map_map]
  exact List.map_congr_left fun _ _ => rfl

section

variable {σ : Type} {step : Visit α → State α → Action α σ (State α × Solution α)} {visit : Visit α}
  {rest : List (Visit α)} {state incoming : State α} {s : Solution α} {t t' : σ}

omit [Scalar α]

theorem travel_of_ok (h : step visit state t = .ok (incoming, s) t') :
    travel step (visit :: rest) state t =
      (⟨visit, incoming, s⟩ :: (travel step rest s.outgoing t').1,
        (travel step rest s.outgoing t').2) := by
  rw [travel, h]

theorem travel_of_error {e : Failure α} (h : step visit state t = .error e t') :
    travel step (visit :: rest) state t = ([], .error e t') := by
  rw [travel, h]

/-- The passages are those of the visits, in their order. -/
theorem visit_of_travel {path : List (Visit α)} {k : ℕ} {p : Passage α}
    (h : (travel step path state t).1[k]? = some p) : path[k]? = some p.visit := by
  induction path generalizing state t k with
  | nil => cases h
  | cons visit rest ih =>
    cases hstep : step visit state t with
    | ok found t₁ =>
      rw [travel_of_ok hstep] at h
      cases k with
      | zero =>
        cases h
        rfl
      | succ k => exact ih h
    | error e t₁ =>
      rw [travel_of_error hstep] at h
      cases h

/-- Without a failure there is a passage of every visit. -/
theorem visits_of_travel {path : List (Visit α)} {passages : List (Passage α)}
    (h : travel step path state t = (passages, .ok ⟨⟩ t')) : passages.map (·.visit) = path := by
  induction path generalizing state t passages with
  | nil =>
    cases h
    rfl
  | cons visit rest ih =>
    cases hstep : step visit state t with
    | ok found t₁ =>
      rw [travel_of_ok hstep] at h
      obtain ⟨rfl, ended⟩ := Prod.mk.inj h
      exact congrArg (visit :: ·) (ih (Prod.ext rfl ended))
    | error e t₁ =>
      rw [travel_of_error hstep] at h
      cases h

theorem length_of_travel {path : List (Visit α)} {passages : List (Passage α)}
    (h : travel step path state t = (passages, .ok ⟨⟩ t')) : passages.length = path.length := by
  rw [← visits_of_travel h, List.length_map]

/-- What every step keeps is kept along a path, if the states arrive in which the steps begin. -/
theorem travel_keeps {P : σ → Prop} {E : Failure α → σ → Prop} {Arrives : Visit α → State α → Prop}
    (hstep : ∀ visit state t,
      Arrives visit state → P t → Action.Ends (fun _ => P) E (step visit state t))
    {path : List (Visit α)} {state : State α} {t : σ} (ht : P t)
    (hhead : ∀ visit ∈ path.head?, Arrives visit state)
    (hnext : ∀ k p next, (travel step path state t).1[k]? = some p → path[k + 1]? = some next →
      Arrives next p.solution.outgoing) : Action.Ends (fun _ => P) E
        (travel step path state t).2 := by
  induction path generalizing state t with
  | nil => exact ht
  | cons visit rest ih =>
    have stepped := hstep visit state t (hhead visit rfl) ht
    cases hrun : step visit state t with
    | ok found t₁ =>
      rw [hrun] at stepped
      rw [travel_of_ok hrun] at hnext ⊢
      refine ih stepped (fun next hfirst => ?_) fun k p next => hnext (k + 1) p next
      refine hnext 0 _ next rfl ?_
      rwa [List.getElem?_cons_succ, ← List.head?_eq_getElem?]
    | error e t₁ =>
      rw [hrun] at stepped
      rwa [travel_of_error hrun]

end

/-! ### Simulations -/

namespace Session

/-- The step of a simulation: the node is solved for the state of the walk. -/
def step (solver : Solver α) (visit : Visit α) (state : State α) :
    Action α (Session α) (State α × Solution α) := do
  return (state, ← solve solver visit.node state visit.noise false)

variable {visit : Visit α} {state : State α} {s s' : Session α}

theorem step_eq_ok {found : State α × Solution α} (h : step solver visit state s = .ok found s') :
    found.1 = state ∧ solve solver visit.node state visit.noise false s = .ok found.2 s' := by
  obtain ⟨answer, _, hsolve, hanswer⟩ := Action.bind_eq_ok.1 h
  cases hanswer
  exact ⟨rfl, hsolve⟩

theorem step_eq_error {e : Failure α} (h : step solver visit state s = .error e s') :
    solve solver visit.node state visit.noise false s = .error e s' := by
  rcases Action.bind_eq_error.1 h with hsolve | ⟨_, _, -, hanswer⟩
  · exact hsolve
  · cases hanswer

section

variable {index noise : Datum α} {needsDuals : Bool}

/-- Solving a node changes the model only. -/
theorem solve_eq_ok {answer : Solution α} :
    solve solver index state noise needsDuals s = .ok answer s' ↔
    ∃ m, Model.solve solver index state noise needsDuals s.model = .ok answer m ∧
      s' = { s with model := m } := by
  unfold solve onModel
  exact Action.focus_eq_ok

theorem solve_eq_error {e : Failure α} : solve solver index state noise needsDuals s = .error e s' ↔
    ∃ m, Model.solve solver index state noise needsDuals s.model = .error e m ∧
      s' = { s with model := m } := by
  unfold solve onModel
  exact Action.focus_eq_error

/-- A solved node can be looked up. -/
theorem exists_node_of_solve {answer : Solution α}
    (h : solve solver index state noise needsDuals s = .ok answer s') :
    ∃ n, s'.model.node index = .ok n := by
  obtain ⟨m', hm', rfl⟩ := solve_eq_ok.1 h
  have hsolve := hm'
  rw [Model.solve, Action.get_bind_eq] at hm'
  obtain ⟨n, _, hn, -⟩ := Model.onNode_eq_ok.1 hm'
  have same := ((Model.declaration_solve index state noise needsDuals).ok rfl hsolve).1
  obtain ⟨n', hn', -⟩ := Model.node_of_declaration_eq same hn
  exact ⟨n', hn'⟩

end

/-- After a node was solved its passage is recorded, and the simulation goes on. -/
theorem followPath_of_solve {rest : List (Visit α)} {answer : Solution α}
    (h : solve solver visit.node state visit.noise false s = .ok answer s') :
    followPath solver [] [] (visit :: rest) state s =
      (followPath solver [] [] rest answer.outgoing >>= fun records =>
        pure (Passage.record ⟨visit, state, answer⟩ :: records)) s' := by
  obtain ⟨n, hn⟩ := exists_node_of_solve h
  have looked :
      (Action.ofExcept (s'.model.node visit.node) : Action α (Session α) _) s' = .ok n s' :=
    Action.ofExcept_eq_ok.2 ⟨hn, rfl⟩
  rw [followPath, Action.bind_of_ok h, Action.get_bind_eq, Action.bind_of_ok looked]
  exact Action.bind_of_ok (Action.ofExcept_eq_ok.2 ⟨rfl, rfl⟩)

variable (solver) in
/-- A simulation keeps a record of every passage. -/
theorem followPath_eq_travel (path : List (Visit α)) (state : State α) (s : Session α) :
    followPath solver [] [] path state s =
      match (travel (step solver) path state s).2 with
      | .ok _ s' => .ok ((travel (step solver) path state s).1.map (·.record)) s'
      | .error e s' => .error e s' := by
  induction path generalizing state s with
  | nil => rfl
  | cons visit rest ih =>
    cases hstep : step solver visit state s with
    | ok found s₁ =>
      obtain ⟨incoming, answer⟩ := found
      obtain ⟨rfl, hsolve⟩ := step_eq_ok hstep
      rw [followPath_of_solve hsolve, travel_of_ok hstep]
      have rest_eq := ih answer.outgoing s₁
      cases hrest : (travel (step solver) rest answer.outgoing s₁).2 with
      | ok _ s' =>
        rw [hrest] at rest_eq
        exact Action.bind_of_ok rest_eq
      | error e s' =>
        rw [hrest] at rest_eq
        exact Action.bind_eq_error.2 (.inl rest_eq)
    | error e s₁ =>
      rw [travel_of_error hstep]
      exact Action.bind_eq_error.2 (.inl (step_eq_error hstep))

section

variable {scenario : Scenario α} {scheme scheme' : Scheme α} {passages : List (Passage α)}
  {s₁ : Session α}
  (sampled : sample scheme s = .ok (scenario, scheme') s₁)

include sampled

/-- A simulation of one scenario goes along the scenario that is sampled. -/
theorem simulate_of_sample : simulate solver [] [] 1 scheme s =
    (followPath solver [] [] scenario.path s₁.model.initial >>= fun records =>
      pure [records]) s₁ := by
  rw [simulate]
  exact (Action.bind_of_ok sampled).trans (Action.get_bind_eq _ _)

theorem simulate_of_ok
    (h : travel (step solver) scenario.path s₁.model.initial s₁ = (passages, .ok ⟨⟩ s')) :
    simulate solver [] [] 1 scheme s = .ok [passages.map (·.record)] s' := by
  have followed := followPath_eq_travel solver scenario.path s₁.model.initial s₁
  rw [h] at followed
  rw [simulate_of_sample sampled]
  exact Action.bind_of_ok followed

theorem simulate_of_error {e : Failure α}
    (h : travel (step solver) scenario.path s₁.model.initial s₁ = (passages, .error e s')) :
    simulate solver [] [] 1 scheme s = .error e s' := by
  have followed := followPath_eq_travel solver scenario.path s₁.model.initial s₁
  rw [h] at followed
  rw [simulate_of_sample sampled]
  exact Action.bind_eq_error.2 (.inl followed)

end

end Session

end Multistage
