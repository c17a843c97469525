import Multistage.Proofs.Session.Echoing
import Multistage.Proofs.Training.Starting

/-!
# Forward passes and simulations

Where no starting states interfere, a forward pass and a simulation of the same scenario solve the
same nodes from the same states: both loops pass through the nodes with the same solutions, and fail
at the same visit. The pass is timed and the simulation is not, so that differences of times must be
numbers; neither draws anything once the scenario is found.

## Main definitions

- `Action.Matched`: the ends of two actions on different states.
- `Run.Beside`: a run and a session that are about to do the same.
- `Run.Concurs`: the forward pass of a run and a simulation agree.
- `Run.Unhindered`: no starting states at the nodes of the next pass, and no user who stops it.

## Main statements

- `Run.timed_eq`: what is timed does what it does without.
- `Run.matched_step`, `Run.matched_travel`: one visit, and a whole walk.
- `Run.forward_simulate`: forward passes and simulations agree.
-/

namespace Multistage

variable {α : Type} [Scalar α] {solver : Solver α}

/-- Two actions on different states both answer as `Q` says, or both fail as `E` says. -/
inductive Action.Matched {σ τ β γ : Type} (Q : β → γ → σ → τ → Prop)
    (E : Failure α → Failure α → σ → τ → Prop) :
    EStateM.Result (Failure α) σ β → EStateM.Result (Failure α) τ γ → Prop
  | ok {b : β} {c : γ} {s : σ} {t : τ} (h : Q b c s t) : Matched Q E (.ok b s) (.ok c t)
  | error {e e' : Failure α} {s : σ} {t : τ} (h : E e e' s t) : Matched Q E (.error e s)
    (.error e' t)

section Matching

variable {α σ τ β γ δ ε : Type} {Q : β → γ → σ → τ → Prop}
  {E : Failure α → Failure α → σ → τ → Prop}

/-- One action after another. -/
theorem Action.Matched.bind {R : δ → ε → σ → τ → Prop} {act : Action α σ β} {act' : Action α τ γ}
    {f : β → Action α σ δ} {g : γ → Action α τ ε} {s : σ} {t : τ} (h : Matched Q E (act s) (act' t))
    (hfg : ∀ b c s t, Q b c s t → Matched R E (f b s) (g c t)) :
    Matched R E ((act >>= f) s) ((act' >>= g) t) := by
  generalize hr : act s = ends, hr' : act' t = ends' at h
  cases h with
  | ok h =>
    rw [bind_of_ok hr, bind_of_ok hr']
    exact hfg _ _ _ _ h
  | error h =>
    rw [bind_eq_error.2 (.inl hr), bind_eq_error.2 (.inl hr')]
    exact .error h

theorem Action.Matched.imp {Q' : β → γ → σ → τ → Prop} {E' : Failure α → Failure α → σ → τ → Prop}
    {x : EStateM.Result (Failure α) σ β} {y : EStateM.Result (Failure α) τ γ} (h : Matched Q E x y)
    (hQ : ∀ b c s t, Q b c s t → Q' b c s t)
    (hE : ∀ e e' s t, E e e' s t → E' e e' s t) : Matched Q' E' x y := by
  cases h with
  | ok h => exact .ok (hQ _ _ _ _ h)
  | error h => exact .error (hE _ _ _ _ h)

end Matching

/-- Finding a scenario changes the draws only. -/
theorem Session.sample_eq (scheme : Scheme α) (s : Session α) : Session.sample scheme s =
    match scheme.sample s.model s.draws with
    | .ok found draws => .ok found { s with draws := draws }
    | .error e draws => .error e { s with draws := draws } := by
  rw [Session.sample, Action.get_bind_eq]
  unfold onDraws Action.focus
  cases scheme.sample s.model s.draws <;> rfl

namespace Run

open Multistage.Action (Matched Ensures)

variable {β : Type} {r r' : Run α}

/-! ### Times -/

/-- The end of an action at other times. -/
def retimedEnd (stopwatch : Clock (Datum α)) (timer : Timer α) :
    EStateM.Result (Failure α) (Run α) β → EStateM.Result (Failure α) (Run α) β
  | .ok b r => .ok b (r.retimed stopwatch timer)
  | .error e r => .error e (r.retimed stopwatch timer)

/-- If differences of times are numbers, an action that does not depend on the time does when it is
timed what it does without. -/
theorem timed_eq (part : RunSection) {act : Action α (Run α) β}
    (hwatch : Clock.Measures r.session.stopwatch.reading)
    (hact : ∀ stopwatch timer,
      act (r.retimed stopwatch timer) = retimedEnd stopwatch timer (act r)) :
    ∃ stopwatch timer, stopwatch.reading = r.session.stopwatch.reading ∧
      timed part act r = retimedEnd stopwatch timer (act r) := by
  let watch := r.session.stopwatch
  let opened : Timer α :=
    { r.timer with running := ⟨.text part.name, some watch.read.1⟩ :: r.timer.running }
  have enters : readStopwatch (fun time => Timer.enter (.text part.name) (.ok time)) r =
      .ok () (r.retimed watch.read.2 opened) := rfl
  obtain ⟨d, x, hd, hx⟩ := hwatch watch.read.2.reads watch.reads
  obtain ⟨closed, hclosed, -⟩ := Timer.leave_eq_ok (t := opened) rfl hd hx
  have leaves : ∀ t : Run α,
      readStopwatch (fun time => Timer.leave (.ok time)) (t.retimed watch.read.2 opened) =
      .ok () (t.retimed watch.read.2.read.2 closed) := fun t => by
    rw [readStopwatch_eq]
    exact Action.focus_eq_ok.2 ⟨closed, hclosed, rfl⟩
  refine ⟨watch.read.2.read.2, closed, rfl, (Action.bind_of_ok enters).trans ?_⟩
  rw [Action.tryFinally_eq, hact]
  cases act r with
  | ok b t => simp only [retimedEnd, leaves]
  | error e t => simp only [retimedEnd, leaves]

/-- A node is solved if the user does not stop the run before. -/
theorem attend_of_patience (h : r.patience = none) (index : Datum α) (state : State α)
    (noise : Datum α) (needsDuals : Bool) : attend solver index state noise needsDuals r =
      onSession (Session.solve solver index state noise needsDuals) r :=
  Action.bind_of_ok (heed_of_patience h)

/-- Solving a node does not depend on the time. -/
theorem attend_retimed (h : r.patience = none) (index : Datum α) (state : State α) (noise : Datum α)
    (needsDuals : Bool) (stopwatch : Clock (Datum α)) (timer : Timer α) :
    attend solver index state noise needsDuals (r.retimed stopwatch timer) =
      retimedEnd stopwatch timer (attend solver index state noise needsDuals r) := by
  have same : (r.retimed stopwatch timer).patience = none := h
  rw [attend_of_patience h, attend_of_patience same]
  unfold onSession Session.solve Session.onModel Action.focus
  simp only [retimed]
  cases Model.solve solver index state noise needsDuals r.session.model <;> rfl

/-! ### One visit -/

/-- A run and a session that are about to do the same: they have the same draws and related models.
The starting states and the readings of the stopwatch are given; every node has a list of starting
states, and the user does not stop the run. -/
structure Beside (K : Model α → Model α → Prop) (c : Cache α) (readings : ℕ → Datum α)
    (draws : Draws α) (r : Run α) (s : Session α) : Prop where
  model : K r.session.model s.model
  left : r.session.draws = draws
  right : s.draws = draws
  starting : r.starting = c
  watch : r.session.stopwatch.reading = readings
  patient : r.patience = none
  listed : ∀ index n, r.session.model.node index = .ok n → ∃ states, c.get? index = some states

/-- A node without starting states is entered in the state of the walk. -/
theorem enteringState_of_empty {index : Datum α} (found : r.starting.get? index = some [])
    (state : State α) :
    enteringState index state r = .ok state r := by
  rw [enteringState_eq]
  exact Action.bind_of_ok (startingStates_of_found found)

variable (solver) in
/-- Solving a node is left to the session, and the time passes. -/
theorem solve_eq (hwatch : Clock.Measures r.session.stopwatch.reading)
    (hpatience : r.patience = none)
    (index : Datum α) (state : State α) (noise : Datum α) (needsDuals : Bool) :
    ∃ stopwatch timer, stopwatch.reading = r.session.stopwatch.reading ∧
      solve solver index state noise needsDuals r =
        match Model.solve solver index state noise needsDuals r.session.model with
        | .ok answer m =>
          .ok answer (({ r with session := { r.session with model := m } } : Run α).retimed
            stopwatch timer)
        | .error e m =>
          .error e (({ r with session := { r.session with model := m } } : Run α).retimed stopwatch
            timer) := by
  obtain ⟨stopwatch, timer, hstopwatch, htimed⟩ := timed_eq .solveSubproblem hwatch
    fun stopwatch timer => attend_retimed hpatience index state noise needsDuals stopwatch timer
  refine ⟨stopwatch, timer, hstopwatch, htimed.trans ?_⟩
  rw [attend_of_patience hpatience]
  cases hm : Model.solve solver index state noise needsDuals r.session.model with
  | ok answer m =>
    rw [show onSession (Session.solve solver index state noise needsDuals) r = _ from
      Action.focus_eq_ok.2 ⟨_, Session.solve_eq_ok.2 ⟨m, hm, rfl⟩, rfl⟩]
    rfl
  | error e m =>
    rw [show onSession (Session.solve solver index state noise needsDuals) r = _ from
      Action.focus_eq_error.2 ⟨_, Session.solve_eq_error.2 ⟨m, hm, rfl⟩, rfl⟩]
    rfl

/-- Finding a scenario, without taking the time. -/
def findScenario : Action α (Run α) (Scenario α) := do
  heed
  let (scenario, scheme) ← onSession (Session.sample (← get).scheme)
  modify fun r => { r with scheme := scheme }
  return scenario

theorem findScenario_eq (h : r.patience = none) : findScenario r =
    match r.scheme.sample r.session.model r.session.draws with
    | .ok found draws =>
      .ok found.1 { r with session := { r.session with draws := draws }, scheme := found.2 }
    | .error e draws => .error e { r with session := { r.session with draws := draws } } := by
  rw [findScenario, Action.bind_of_ok (heed_of_patience h), Action.get_bind_eq]
  have sampled : onSession (Session.sample r.scheme) r =
      match r.scheme.sample r.session.model r.session.draws with
      | .ok found draws => .ok found { r with session := { r.session with draws := draws } }
      | .error e draws => .error e { r with session := { r.session with draws := draws } } := by
    rw [onSession, Action.focus, Session.sample_eq]
    cases r.scheme.sample r.session.model r.session.draws <;> rfl
  cases hfound : r.scheme.sample r.session.model r.session.draws with
  | ok found draws =>
    rw [hfound] at sampled
    exact Action.bind_of_ok sampled
  | error e draws =>
    rw [hfound] at sampled
    exact Action.bind_eq_error.2 (.inl sampled)

section

variable {K : Model α → Model α → Prop} {F : Failure α → Failure α → Prop}
  (h : Model.Echo solver K F)
  {c : Cache α} {readings : ℕ → Datum α} (hreadings : Clock.Measures readings) {draws : Draws α}
  {s : Session α}

include h hreadings

/-- The run and the session solve a node with the same solution. -/
theorem matched_solve (hb : Beside K c readings draws r s) (index : Datum α) (state : State α)
    (noise : Datum α) (needsDuals : Bool) :
    Matched (fun a a' r' s' => a = a' ∧ Beside K c readings draws r' s')
      (fun e e' r' s' => F e e' ∧ Beside K c readings draws r' s')
      (solve solver index state noise needsDuals r)
      (Session.solve solver index state noise needsDuals s) := by
  obtain ⟨stopwatch, timer, hstopwatch, hsolve⟩ := solve_eq solver (hb.watch ▸ hreadings) hb.patient
    index state noise needsDuals
  have beside : ∀ {m m'}, K m m' → m.declaration = r.session.model.declaration →
      Beside K c readings draws
        (({ r with session := { r.session with model := m } } : Run α).retimed stopwatch timer)
        { s with model := m' } := fun {m m'} hm hdecl =>
    { hb with
      model := hm
      watch := hstopwatch.trans hb.watch
      listed := fun index n hn => by
        obtain ⟨n', hn', -⟩ := Model.node_of_declaration_eq hdecl.symm hn
        exact hb.listed index n' hn' }
  have kept : Ensures (fun m : Model α => m.declaration = r.session.model.declaration)
      (Model.solve solver index state noise needsDuals) fun _ => True :=
    Model.declaration_solve index state noise needsDuals
  rw [hsolve]
  cases hm : Model.solve solver index state noise needsDuals r.session.model with
  | ok a m =>
    obtain ⟨_, m', hm', rfl, hK⟩ := (h.solve index state noise needsDuals).ok hb.model hm
    rw [Session.solve_eq_ok.2 ⟨m', hm', rfl⟩]
    exact .ok ⟨rfl, beside hK (kept.ok rfl hm).1⟩
  | error e m =>
    obtain ⟨e', m', hm', he, hK⟩ := (h.solve index state noise needsDuals).error hb.model hm
    rw [Session.solve_eq_error.2 ⟨m', hm', rfl⟩]
    exact .error ⟨he, beside hK (kept.error rfl hm)⟩

/-- One step of the pass and one of the simulation, at a node without starting states. -/
theorem matched_step (hb : Beside K c readings draws r s) (visit : Visit α) (state : State α)
    (hfree : ∀ states, c.get? visit.node = some states → states = []) :
    Matched (fun a a' r' s' => a = a' ∧ c.get? visit.node = some [] ∧
      Beside K c readings draws r' s')
      (fun e e' r' s' => F e e' ∧ Beside K c readings draws r' s')
      (step solver visit state r) (Session.step solver visit state s) := by
  rw [step, Action.get_bind_eq]
  cases hn : r.session.model.node visit.node with
  | error e =>
    have hn' := Model.node_eq_error_of_declaration_eq (h.declaration hb.model) hn
    have unsolved :
        Model.solve solver visit.node state visit.noise false s.model = .error e s.model := by
      rw [Model.solve, Action.get_bind_eq]
      exact Model.onNode_eq_error.2 (.inl ⟨hn', rfl⟩)
    have failed : Session.step solver visit state s = .error e s :=
      Action.bind_eq_error.2 (.inl (Session.solve_eq_error.2 ⟨_, unsolved, rfl⟩))
    rw [failed]
    exact .error ⟨h.refl e, hb⟩
  | ok n =>
    obtain ⟨states, found⟩ := hb.listed visit.node n hn
    obtain rfl := hfree states found
    have entered := enteringState_of_empty (hb.starting ▸ found) state
    rw [Action.bind_of_ok (Action.ofExcept_eq_ok.2 ⟨rfl, rfl⟩), Action.bind_of_ok entered]
    exact (matched_solve h hreadings hb visit.node state visit.noise false).bind
      fun a a' r' s' hsolved => .ok ⟨congrArg (state, ·) hsolved.1, found, hsolved.2⟩

/-- The passages of the pass and of the simulation, along a path on which no node has starting
states. -/
theorem matched_travel (path : List (Visit α)) (state : State α)
    (hb : Beside K c readings draws r s)
    (hfree : ∀ visit ∈ path, ∀ states, c.get? visit.node = some states → states = []) :
    (travel (Session.step solver) path state s).1 = (travel (step solver) path state r).1 ∧
    Matched
      (fun _ _ r' s' => (∀ visit ∈ path, c.get? visit.node = some []) ∧
        Beside K c readings draws r' s')
      (fun e e' r' s' => (travel (step solver) path state r).1.length < path.length ∧ F e e' ∧
        Beside K c readings draws r' s')
      (travel (step solver) path state r).2 (travel (Session.step solver) path state s).2 := by
  induction path generalizing state r s with
  | nil => exact ⟨rfl, .ok ⟨fun _ hvisit => (List.not_mem_nil hvisit).elim, hb⟩⟩
  | cons visit rest ih =>
    have stepped := matched_step h hreadings hb visit state (hfree visit List.mem_cons_self)
    generalize hstep : step solver visit state r = ended,
      hstep' : Session.step solver visit state s = ended'
      at stepped
    cases stepped with
    | ok hfound =>
      obtain ⟨rfl, own, hb'⟩ := hfound
      rw [travel_of_ok hstep, travel_of_ok hstep']
      obtain ⟨same, ends⟩ := ih _ hb' fun v hv => hfree v (List.mem_cons_of_mem _ hv)
      refine ⟨congrArg _ same, ends.imp (fun _ _ _ _ ended => ?_) fun _ _ _ _ failed => ?_⟩
      · exact ⟨List.forall_mem_cons.2 ⟨own, ended.1⟩, ended.2⟩
      · exact ⟨Nat.succ_lt_succ failed.1, failed.2⟩
    | error hfailed =>
      rw [travel_of_error hstep, travel_of_error hstep']
      exact ⟨rfl, .error ⟨Nat.succ_pos _, hfailed⟩⟩

/-- A run and a session with the same draws find the same scenario. -/
theorem beside_sample (hb : Beside K c readings draws r s) :
    match r.scheme.sample r.session.model draws with
    | .ok found draws' =>
      ∃ r₁ s₁, sampleScenario r = .ok found.1 r₁ ∧ Session.sample r.scheme s = .ok found s₁ ∧
        r₁.settings = r.settings ∧ s₁.model.initial = r.session.model.initial ∧
        Beside K c readings draws' r₁ s₁
    | .error e _ =>
        ∃ r₁ s₁, sampleScenario r = .error e r₁ ∧ Session.sample r.scheme s = .error e s₁ := by
  have declared := h.declaration hb.model
  have same : r.scheme.sample s.model = r.scheme.sample r.session.model := by
    rw [← Scheme.sample_declaration, declared, Scheme.sample_declaration]
  have timeless : ∀ stopwatch timer,
      findScenario (r.retimed stopwatch timer) = retimedEnd stopwatch timer (findScenario r) := by
    intro stopwatch timer
    have patient : (r.retimed stopwatch timer).patience = none := hb.patient
    rw [findScenario_eq patient, findScenario_eq hb.patient]
    simp only [retimed]
    cases r.scheme.sample r.session.model r.session.draws <;> rfl
  obtain ⟨stopwatch, timer, hstopwatch, hsample⟩ :=
    timed_eq .sampleScenario (hb.watch ▸ hreadings) timeless
  have hsample : sampleScenario r = _ := hsample
  rw [hsample, findScenario_eq hb.patient, Session.sample_eq, same, hb.left, hb.right]
  cases r.scheme.sample r.session.model draws with
  | ok found draws' =>
    refine ⟨_, _, rfl, rfl, rfl, Model.initial_of_declaration_eq declared, ?_⟩
    exact ⟨hb.model, rfl, rfl, hb.starting, hstopwatch.trans hb.watch, hb.patient, hb.listed⟩
  | error e draws' => exact ⟨_, _, rfl, rfl⟩

end

/-! ### The whole pass -/

/-- A state that is offered to a node without starting states becomes one, or not. -/
theorem offerLast_of_empty {cutShort : Bool} {last? : Option (Passage α)}
    (hlast : ∀ p ∈ last?, r.starting.get? p.visit.node = some []) :
    ∃ r', offerLast cutShort last? r = .ok ⟨⟩ r' ∧ r'.session = r.session := by
  unfold offerLast
  split
  next p =>
    have found := startingStates_of_found (hlast p rfl)
    have far : (Action.ofExcept (distanceTo [] p.solution.outgoing) : Action α (Run α)
        (Extended α)) r = .ok .posInf r := rfl
    rw [addStarting, Action.bind_of_ok found, Action.bind_of_ok far, Action.get_bind_eq]
    split
    · exact ⟨_, rfl, rfl⟩
    · exact ⟨r, rfl, rfl⟩
  · exact ⟨r, rfl, rfl⟩

/-- The forward pass of a run and a simulation agree. Both find the same scenario or none, and the
draws are not used any more when it is found. Both pass through the same nodes in the same states
with the same solutions, as far as they come; if both come to the end, the pass keeps the states in
which the nodes were left and the sum of the recorded objectives, and otherwise they fail at the
same visit. -/
inductive Concurs (solver : Solver α) (F : Failure α → Failure α → Prop) (r : Run α)
    (s : Session α) : Prop
  | unsampled {e : Failure α} {r' : Run α} {s' : Session α} (none : r.nextScenario = .error e)
      (forward : Run.forward solver r = .error e r')
      (simulate : Session.simulate solver [] [] 1 r.scheme s = .error e s')
  | through {scenario : Scenario α} {scheme : Scheme α} {passages : List (Passage α)}
    {objectives : List α}
      {r₁ r₂ r' : Run α} {s₁ s' : Session α} (sampled : sampleScenario r = .ok scenario r₁)
      (sampled' : Session.sample r.scheme s = .ok (scenario, scheme) s₁)
      (pass : travel (step solver) scenario.path r₁.settings.initial r₁ = (passages, .ok ⟨⟩ r₂))
      (simulation : travel (Session.step solver) scenario.path s₁.model.initial s₁ =
        (passages, .ok ⟨⟩ s'))
      (visits : passages.map (·.visit) = scenario.path)
      (forward : Run.forward solver r =
        .ok ⟨scenario.path, passages.map (·.solution.outgoing), Scalar.sum objectives⟩ r')
      (simulate : Session.simulate solver [] [] 1 r.scheme s = .ok [passages.map (·.record)] s')
      (recorded : passages.map (fun p => Dict.get? p.record (.text "stage_objective")) =
        objectives.map fun x => some (.reading (.number x)))
      (draws : r'.session.draws = r₁.session.draws) (draws' : s'.draws = r₁.session.draws)
  | stopped {scenario : Scenario α} {scheme : Scheme α} {passages : List (Passage α)}
    {e e' : Failure α}
      {r₁ r' : Run α} {s₁ s' : Session α} (sampled : sampleScenario r = .ok scenario r₁)
      (sampled' : Session.sample r.scheme s = .ok (scenario, scheme) s₁)
      (pass : travel (step solver) scenario.path r₁.settings.initial r₁ = (passages, .error e r'))
      (simulation : travel (Session.step solver) scenario.path s₁.model.initial s₁ =
        (passages, .error e' s'))
      (short : passages.length < scenario.path.length) (alike : F e e')
      (forward : Run.forward solver r = .error e r')
      (simulate : Session.simulate solver [] [] 1 r.scheme s = .error e' s')
      (draws : r'.session.draws = r₁.session.draws) (draws' : s'.draws = r₁.session.draws)

/-- No node that the next pass visits has starting states, and the user does not stop the pass. -/
structure Unhindered (r : Run α) : Prop where
  alone : ∀ scenario, r.nextScenario = .ok scenario → ∀ visit ∈ scenario.path, ∀ states,
    r.starting.get? visit.node = some states → states = []
  patient : r.patience = none

theorem nextScenario_eq (r : Run α) : r.nextScenario =
    match r.scheme.sample r.session.model r.session.draws with
    | .ok found _ => .ok found.1
    | .error e _ => .error e := by
  unfold nextScenario Action.answer
  cases r.scheme.sample r.session.model r.session.draws <;> rfl

section

variable {K : Model α → Model α → Prop} {F : Failure α → Failure α → Prop}
  (h : Model.Echo solver K F)
  {s : Session α}

include h

/-- Once the scenario is found, the pass and the simulation agree. -/
theorem concurs_of_sampled {c : Cache α} {readings : ℕ → Datum α}
    (hreadings : Clock.Measures readings)
    {scenario : Scenario α} {scheme : Scheme α} {r₁ : Run α} {s₁ : Session α} {draws : Draws α}
    (hr : sampleScenario r = .ok scenario r₁)
    (hs : Session.sample r.scheme s = .ok (scenario, scheme) s₁)
    (hb : Beside K c readings draws r₁ s₁) (initial : s₁.model.initial = r₁.settings.initial)
    (hfree : ∀ visit ∈ scenario.path, ∀ states, c.get? visit.node = some states → states = []) :
    r.Concurs solver F s := by
  obtain ⟨same, ends⟩ := matched_travel h hreadings scenario.path r₁.settings.initial hb hfree
  generalize hpass : travel (step solver) scenario.path r₁.settings.initial r₁ = pass at same ends
  rw [← initial] at same ends
  generalize hsimulation : travel (Session.step solver) scenario.path s₁.model.initial s₁ =
    simulation at same ends
  obtain ⟨passages, ended⟩ := pass
  obtain ⟨passages', ended'⟩ := simulation
  cases (same : passages' = passages)
  cases ends with
  | @ok _ _ r₂ s₂ completed =>
    obtain ⟨empty, hb₂⟩ := completed
    have visits := visits_of_travel hpass
    have last : ∀ p ∈ passages.getLast?, r₂.starting.get? p.visit.node = some [] := fun p hp =>
      hb₂.starting ▸ empty p.visit (visits ▸ List.mem_map_of_mem (List.mem_of_getLast? hp))
    obtain ⟨r₃, offered, session⟩ := offerLast_of_empty last
    have forward : Run.forward solver r = .ok ⟨scenario.path, passages.map (·.solution.outgoing),
        Scalar.sum (passages.map (·.solution.stageObjective))⟩ r₃ :=
      (forward_of_travel hr hpass).trans (Action.bind_of_ok offered)
    refine .through hr hs hpass hsimulation visits forward (Session.simulate_of_ok hs hsimulation)
      (Passage.map_record_stageObjective passages) ?_ (hb₂.right.trans hb.left.symm)
    rw [session]
    exact hb₂.left.trans hb.left.symm
  | @error e e' r₂ s₂ failed =>
    obtain ⟨short, alike, hb₂⟩ := failed
    exact .stopped hr hs hpass hsimulation short alike (forward_of_travel_error hr hpass)
      (Session.simulate_of_error hs hsimulation) (hb₂.left.trans hb.left.symm)
      (hb₂.right.trans hb.left.symm)

/-- A run agrees with a session that is about to do the same. -/
theorem concurs_of_beside (hwatch : Clock.Measures r.session.stopwatch.reading)
    (hb : Beside K r.starting r.session.stopwatch.reading r.session.draws r s)
    (hinitial : r.settings.initial = r.session.model.initial) (hfree : r.Unhindered) :
    r.Concurs solver F s := by
  have sampled := beside_sample h hwatch hb
  have next := r.nextScenario_eq
  cases hsample : r.scheme.sample r.session.model r.session.draws with
  | error e draws =>
    rw [hsample] at sampled next
    obtain ⟨r₁, s₁, hr, hs⟩ := sampled
    exact .unsampled next (Action.bind_eq_error.2 (.inl hr)) (Action.bind_eq_error.2 (.inl hs))
  | ok found draws =>
    rw [hsample] at sampled next
    obtain ⟨r₁, s₁, hr, hs, hsettings, hinitial', hb₁⟩ := sampled
    have initial : s₁.model.initial = r₁.settings.initial := by rw [hinitial', hsettings, hinitial]
    exact concurs_of_sampled h hwatch hr hs hb₁ initial (hfree.alone found.1 next)

end

section Courses

variable {session s : Session α} {options : TrainingOptions α} {passes : List (Run α)}

/-- Offering a state gives no node a list and takes none away. -/
theorem Offered.contains_eq {settings : PassSettings α} {index : Datum α} {state : State α}
    {c c' : Cache α}
    (h : Offered settings index state c c') (i : Datum α) : c'.contains i = c.contains i := by
  cases h with
  | near => rfl
  | far => rw [Dict.contains_modify]

/-- The nodes of the model have lists of starting states. -/
theorem Course.contains_starting (h : Course solver session options passes r) (i : Datum α) :
    r.starting.contains i = session.model.nodes.contains i := by
  induction h with
  | start starts => rw [(starting_of_start starts).1, Dict.contains_mapValues]
  | @forward passes r before draws ih =>
    have entering : ∀ {index : Datum α} {state : State α} {c c' : Cache α}, True →
        Entered r.settings index state c c' → c.contains i = session.model.nodes.contains i →
          c'.contains i = session.model.nodes.contains i := by
      intro index state c c' _ entered hc
      cases entered with
      | untouched => exact hc
      | exchanged offered _ _ => rw [Dict.contains_modify, offered.contains_eq, hc]
    obtain ⟨-, c, hc, heq | ⟨_, _, _, -, -, -, offered⟩⟩ := forward_keeps entering ⟨ih, rfl⟩
      (fun _ _ _ _ => trivial) (fun _ _ _ _ _ _ => trivial) draws
    · rw [heq, hc]
    · rw [offered.contains_eq, hc]
  | between _ starting _ _ ih => rw [starting, ih]

/-- A run after some passes is about to do the same as a session with the same draws and a related
model. -/
theorem Course.concurs (h : Course solver session options passes r)
    {K : Model α → Model α → Prop} {F : Failure α → Failure α → Prop}
    (hecho : Model.Echo solver K F)
    (hmodel : K r.session.model s.model) (hdraws : s.draws = r.session.draws)
    (hwatch : Clock.Measures r.session.stopwatch.reading)
    (hfree : r.Unhindered) : r.Concurs solver F s := by
  have declared := h.declaration_eq
  have listed : ∀ index n, r.session.model.node index = .ok n →
      ∃ states, r.starting.get? index = some states := by
    intro index n hn
    obtain ⟨n₀, hn₀, -⟩ := Model.get?_of_declaration_eq declared.symm (Model.node_eq_ok.1 hn).2
    rw [← Option.isSome_iff_exists, ← Dict.contains_eq_isSome_get?, h.contains_starting,
      Dict.contains_eq_isSome_get?, hn₀]
    rfl
  obtain ⟨r₀, hstart⟩ := h.exists_start
  have initial : r.settings.initial = r.session.model.initial := by
    rw [h.settings_eq hstart, (starting_of_start hstart).2.1,
      Model.initial_of_declaration_eq declared]
  exact concurs_of_beside hecho hwatch ⟨hmodel, rfl, hdraws, rfl, rfl, hfree.patient, listed⟩
    initial hfree

end Courses

end Run

/-- Let a run have seen any passes, with no starting states at the nodes that its next pass visits
and no user who stops it. The pass and a simulation with the same draws agree, down to the failure
that ends them early. On the same model they do so exactly, whatever the scalars are; in exact
arithmetic, on models that were built alike and used in any two ways, with the same cuts installed,
up to the text in which a failure shows what is no expression. Where the objective of a stage cannot
be installed, both models must have tried or neither: a failed attempt counts, and the next solve
does not try again. -/
theorem Run.forward_simulate (α : Type) [Scalar α] :
    (∀ {solver : Solver α} {session s : Session α} {options : TrainingOptions α}
        {passes : List (Run α)} {r : Run α}, Course solver session options passes r →
      Clock.Measures r.session.stopwatch.reading → r.Unhindered →
      s.draws = r.session.draws → s.model = r.session.model → r.Concurs solver Eq s) ∧
    ∀ {graph : Graph ℚ} {cuts : CutSettings ℚ} {sense : Datum ℚ} {plans : StagePlans ℚ}
      {m : Model ℚ}
        {solver : Solver ℚ} {session s : Session ℚ} {options : TrainingOptions ℚ}
        {passes : List (Run ℚ)}
        {r : Run ℚ}, Model.build graph cuts sense plans = .ok m → solver.IgnoresOrder →
      Course solver session options passes r → Clock.Measures r.session.stopwatch.reading →
      r.Unhindered →
      s.draws = r.session.draws →
      m.Throughout (fun _ start n => Node.Operating solver m.sense start n) r.session.model →
      m.Throughout (fun _ start n => Node.Operating solver m.sense start n) s.model →
      (∀ index n n',
        r.session.model.nodes.get? index = some n → s.model.nodes.get? index = some n' →
        n'.installed.Perm n.installed) →
      (∀ index start n n',
        m.nodes.get? index = some start → r.session.model.nodes.get? index = some n →
        s.model.nodes.get? index = some n' → ¬start.Poses →
          n'.stage.objectiveInstalled = n.stage.objectiveInstalled) →
      r.Concurs solver Failure.Alike s := by
  refine ⟨fun course hwatch hfree hdraws hmodel => ?_,
    fun hm hsolver course hwatch hfree hdraws hleft hright hcuts
    hobjectives => ?_⟩
  · exact course.concurs (Model.lockstep_eq _).echo hmodel.symm hdraws hwatch hfree
  · have hblank : ∀ index start, Dict.get? _ index = some start →
        Node.Blank start := fun _ _ hstart =>
      (Model.blank_of_build hm hstart).1
    exact course.concurs (Model.echo_paired hblank hsolver)
      (Model.related_paired hblank hleft hright hcuts hobjectives) hdraws hwatch hfree

/-- The first pass on two stages that cost ten and eleven, and a simulation on the same model and on
one on which another simulation was run before: all of them go through both stages. -/
theorem Run.forward_simulate_of_two_stages :
    ∃ (graph : Graph ℚ) (m : Model ℚ) (r r' : Run ℚ) (result : ForwardResult ℚ),
      Graph.ofEdges (.int 0) [.int 1, .int 2]
        [(.int 0, .int 1, .real 1), (.int 1, .int 2, .real 1)] [] = .ok graph ∧
      Model.build graph ⟨.finite 0, .posInf, 0⟩ (.text "min")
        ⟨[([.int 2], carrying 11)], carrying 10⟩ = .ok m ∧
      steadySolver.IgnoresOrder ∧
      (let session : Session ℚ :=
        ⟨m, [0, 0, 0, 0], .ofReadings fun n => .int n, .ofReadings fun n => .int n⟩
      let used := Session.afterAll steadySolver session [.simulate [] [] 1 .unlimited]
      Run.start session .standard = .ok r ∧ Run.forward steadySolver r = .ok result r' ∧
      result.value = 21 ∧
        r.Concurs steadySolver Eq session ∧
        r.Concurs steadySolver Failure.Alike { used with draws := session.draws }) := by
  let session (m : Model ℚ) : Session ℚ :=
    ⟨m, [0, 0, 0, 0], .ofReadings fun n => .int n, .ofReadings fun n => .int n⟩
  let used (m : Model ℚ) : Session ℚ :=
    Session.afterAll steadySolver (session m) [.simulate [] [] 1 .unlimited]
  have check : (do
      let graph ← Graph.ofEdges (.int 0) [.int 1, .int 2]
        [(.int 0, .int 1, .real 1), (.int 1, .int 2, .real 1)] []
      let m ← Model.build graph ⟨.finite 0, .posInf, 0⟩ (.text "min")
        ⟨[([.int 2], carrying 11)], carrying 10⟩
      let r ← Run.start (session m) .standard
      let passed ← (Run.forward steadySolver).answer r
      if passed.1.value = 21 ∧
          (∀ e ∈ m.nodes.entries,
            (e.2.stage.objective.toAffine e.2.stage.subproblem.describe).toBool = true) ∧
          ∀ e ∈ (used m).model.nodes.entries, e.2.cuts.pool.cuts.isEmpty = true then return ()
      else .error .missingKey : Except (Failure ℚ) Unit).toBool = true := by
    decide +kernel
  simp only [Except.toBool_bind, Except.toBool_ite, Action.answer_eq_ok] at check
  obtain ⟨graph, hgraph, m, hm, r, hr, ⟨result, r'⟩, hpassed, value, affine, empty⟩ := check
  have course : Course steadySolver (session m) .standard [] r := .start hr
  have hsession : r.session = session m := (start_eq_ok hr).1
  have hwatch : Clock.Measures r.session.stopwatch.reading := by
    rw [hsession]
    exact fun i j => ⟨.int (i - j), _, rfl, rfl⟩
  have hfree : r.Unhindered := by
    refine ⟨fun scenario _ visit _ states found => ?_, (starting_of_start hr).2.2.2⟩
    rw [(starting_of_start hr).1, Dict.get?_mapValues] at found
    obtain ⟨_, -, rfl⟩ := Option.map_eq_some_iff.1 found
    rfl
  have hleft :
      m.Throughout
        (fun _ start n => Node.Operating steadySolver m.sense start n) r.session.model := by
    rw [hsession]
    exact Model.throughout_self fun _ _ _ => .start
  have hcuts : ∀ index n n', r.session.model.nodes.get? index = some n →
      (used m).model.nodes.get? index = some n' → n'.installed.Perm n.installed := by
    intro index n n' hn hn'
    rw [hsession] at hn
    obtain ⟨e, hmem, -, rfl⟩ := Dict.exists_mem_of_get? hn'
    rw [Node.installed, Node.installed, List.isEmpty_iff.1 (empty _ hmem),
      (Model.blank_of_build hm hn).1.pool_eq]
    exact .refl _
  have hposes : ∀ index start, m.nodes.get? index = some start → start.Poses := by
    intro index start hstart
    obtain ⟨e, hmem, -, rfl⟩ := Dict.exists_mem_of_get? hstart
    exact .inr ⟨_, Except.exists_of_toBool (affine _ hmem)⟩
  exact ⟨graph, m, r, r', result, hgraph, hm, Solver.ignoresOrder_steady, hr, hpassed, value,
    (forward_simulate ℚ).1 course hwatch hfree (hsession ▸ rfl) (hsession ▸ rfl),
    (forward_simulate ℚ).2 hm Solver.ignoresOrder_steady course hwatch hfree (hsession ▸ rfl) hleft
      (Session.operating_afterAll (session m) _) hcuts fun index start _ _ hstart _ _ not =>
        (not (hposes index start hstart)).elim⟩

end Multistage
