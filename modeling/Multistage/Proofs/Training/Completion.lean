import Multistage.Proofs.Training.Keeping

/-!
# What passes keep that answer

Some properties of a model outlast a solve only if it answers. They outlast the passes of a run that
answer.

## Main definitions

- `Model.Completes`: every solve that answers keeps a property of the model and ensures one of its
  solution.

## Main statements

- `Session.completes_bound`, `Session.completes_simulate`: the two operations.
- `Run.refine_eq_ok`: what a refinement does that answers.
- `Run.completes_forward`, `Run.completes_backward`: the two passes.
- `Training.completes_iteration`: an iteration.
-/

namespace Multistage

variable {α : Type} [Scalar α] {solver : Solver α} {I : Model α → Prop}
  {R : Bool → Datum α → Datum α → State α → Solution α → Prop} {P : State α → Prop}
  {settings : PassSettings α}

/-- Every solve that answers, with or without duals, keeps `I`, and its solution has `R`. -/
def Model.Completes (solver : Solver α) (I : Model α → Prop)
    (R : Bool → Datum α → Datum α → State α → Solution α → Prop) : Prop :=
  ∀ index noise state needsDuals,
    Action.Completes I (Model.solve solver index state noise needsDuals)
    (R needsDuals index noise state)

theorem Model.Keeps.completes (h : Model.Keeps solver I R) : Model.Completes solver I R :=
  fun index noise state needsDuals => (h index noise state needsDuals).completes

namespace Session

theorem completes_solve (h : Model.Completes solver I R) (index : Datum α) (state : State α)
    (noise : Datum α) (needsDuals : Bool) :
    Action.Completes (fun s : Session α => I s.model) (solve solver index state noise needsDuals)
      (R needsDuals index noise state) :=
  .focus (h index noise state needsDuals) (fun _ => id) fun _ _ _ => id

/-- The solutions of children are those of the outcomes of the step. -/
theorem completes_solveChildren {σ : Type} {K : σ → Prop} (edges : List (Edge α))
    (model : σ → Model α) {solve : Datum α → Datum α → Action α σ (Solution α)}
    {S : Datum α → Datum α → Solution α → Prop} {P : List (Datum α × NoiseTerm α × α) → Prop}
    (hsteps : ∀ s steps, K s → outcomes (model s) edges = .ok steps → P steps)
    (hsolve : ∀ child noise, Action.Completes K (solve child noise) (S child noise)) :
    Action.Completes K (solveChildren edges model solve)
      fun results => ∃ steps, P steps ∧ List.Forall₂ (Solves S) steps results := by
  refine .bind Action.Ensures.get.completes fun s hs =>
    .bind (Action.Ensures.ofExcept fun steps h => hsteps s steps hs h).completes fun steps hP => ?_
  refine (Action.Completes.mapM (S := Solves S) fun step _ => ?_).weaken
    fun results hall => ⟨steps, hP, hall⟩
  exact .bind (hsolve step.1 step.2.1.term) fun solution hsolution =>
    (Action.Ensures.pure ⟨rfl, rfl, rfl, hsolution⟩).completes

theorem completes_bound (h : Model.Completes solver I R) (state : State α) (measure : Measure α) :
    Action.Completes (fun s : Session α => I s.model) (bound solver state measure)
      fun _ => True := by
  refine .bind Action.Ensures.get.completes fun s _ => ?_
  have solved := completes_solveChildren s.model.rootChildren (·.model)
    (K := fun s : Session α => I s.model) (P := fun _ => True) (fun _ _ _ _ => trivial)
    fun child noise => completes_solve h child state noise true
  exact .bind solved fun _ _ => .bind (Action.Ensures.ofExcept fun _ _ => trivial).completes
    fun _ _ => (Action.Ensures.pure trivial).completes

theorem completes_followPath (h : Model.Completes solver I R) (names : List Name)
    (recorders : List (Name × Recorder α)) (path : List (Visit α)) (state : State α) :
    Action.Completes (fun s : Session α => I s.model) (followPath solver names recorders path state)
      fun _ => True := by
  induction path generalizing state with
  | nil => exact (Action.Ensures.pure trivial).completes
  | cons visit rest ih =>
    refine .bind (completes_solve h visit.node state visit.noise false) fun s _ =>
      .bind Action.Ensures.get.completes fun t _ => ?_
    refine .bind
      (Action.Ensures.ofExcept (R := fun _ => True) fun _ _ => trivial).completes fun n _ =>
      .bind (Action.Ensures.ofExcept (R := fun _ => True) fun _ _ => trivial).completes
        fun record _ => ?_
    exact .bind (ih s.outgoing) fun _ _ => (Action.Ensures.pure trivial).completes

theorem completes_simulate (h : Model.Completes solver I R) (names : List Name)
    (recorders : List (Name × Recorder α)) (replications : ℕ) (scheme : Scheme α) :
    Action.Completes (fun s : Session α => I s.model)
      (simulate solver names recorders replications scheme)
      fun _ => True := by
  induction replications generalizing scheme with
  | zero => exact (Action.Ensures.pure trivial).completes
  | succ replications ih =>
    refine .bind (ensures_sample scheme).completes fun found _ => .bind Action.Ensures.get.completes
      fun s _ => ?_
    exact .bind (completes_followPath h names recorders _ _) fun _ _ =>
      .bind (ih found.2) fun _ _ =>
      (Action.Ensures.pure trivial).completes

end Session

namespace Run

theorem measureOf_eq_ok {index : Datum α} {measure : Measure α} {r r' : Run α}
    (h : measureOf index r = .ok measure r') :
    r.settings.measures.get? index = some measure ∧ r' = r := by
  obtain ⟨_, _, hread, h⟩ := Action.bind_eq_ok.1 h
  cases hread
  cases hget : r.settings.measures.get? index with
  | none => rw [hget] at h; cases h
  | some known => rw [hget] at h; cases h; exact ⟨rfl, rfl⟩

/-- A refinement that answers refined the node of the index with its measure. -/
theorem refine_eq_ok {index : Datum α} {x : State α} {results : List (ChildSolution α)}
    {probabilities : List α} {r r' : Run α}
    (h : refine index x results probabilities r = .ok () r') :
    ∃ measure n n' patience, r.settings.measures.get? index = some measure ∧
      r.session.model.node index = .ok n ∧
      Node.refine r.session.model.sense measure x (results.map (·.solution.duals)) probabilities
        (results.map (·.solution.objective)) n = .ok () n' ∧
      r' = { r with
        session := { r.session with model :=
          { r.session.model with nodes := r.session.model.nodes.modify index fun _ => n' } }
        patience := patience } := by
  obtain ⟨_, _, hheed, hrest⟩ := Action.bind_eq_ok.1 h
  obtain ⟨patience, rfl⟩ := heed_eq_ok hheed
  obtain ⟨measure, _, hmeasure, hrest⟩ := Action.bind_eq_ok.1 hrest
  obtain ⟨hknown, rfl⟩ := measureOf_eq_ok hmeasure
  obtain ⟨_, _, hread, hrun⟩ := Action.bind_eq_ok.1 hrest
  cases hread
  unfold onNode onSession Session.onModel at hrun
  obtain ⟨s, hs, rfl⟩ := Action.focus_eq_ok.1 hrun
  obtain ⟨m, hm, rfl⟩ := Action.focus_eq_ok.1 hs
  obtain ⟨n, n', hn, hrefine, rfl⟩ := Model.onNode_eq_ok.1 hm
  exact ⟨measure, n, n', patience, hknown, hn, hrefine, rfl⟩

omit [Scalar α] in
theorem completes_onSession {τ : Type} {act : Action α (Session α) τ} {S : τ → Prop}
    (h : Action.Completes (fun s : Session α => I s.model) act S) :
    Action.Completes (Keeping I settings) (onSession act) S :=
  .focus h (fun _ hr => hr.1) fun _ _ hr hs => ⟨hs, hr.2⟩

theorem completes_timed {τ : Type} {act : Action α (Run α) τ} {S : τ → Prop} (part : RunSection)
    (h : Action.Completes (Keeping I settings) act S) :
    Action.Completes (Keeping I settings) (timed part act) S :=
  .bind (ensures_readStopwatch _).completes fun _ _ =>
    .tryFinally h (ensures_readStopwatch _).completes

theorem completes_solve (h : Model.Completes solver I R) (index : Datum α) (state : State α)
    (noise : Datum α) (needsDuals : Bool) :
    Action.Completes (Keeping I settings) (solve solver index state noise needsDuals)
      (R needsDuals index noise state) :=
  completes_timed _ (.bind ensures_heed_keeping.completes fun _ _ =>
    completes_onSession (Session.completes_solve h index state noise needsDuals))

theorem completes_bound (h : Model.Completes solver I R) (measure : Measure α) :
    Action.Completes (Keeping I settings) (bound solver measure) fun _ => True := by
  refine .of_cases (fun r b r' hr hrun => ?_) fun _ _ _ _ _ => trivial
  obtain ⟨s, _, hs, rfl⟩ := bound_eq_ok hrun
  exact ⟨⟨((Session.completes_bound h _ measure).ok hr.1 hs).1, hr.2⟩, trivial⟩

variable (hsolve : Model.Completes solver I R)
  (hleft : ∀ index noise state s, R false index noise state s → P s.outgoing)

include hsolve hleft

/-- A walk keeps what solving keeps, and leaves nodes in states in which solving leaves them. -/
theorem completes_follow (path : List (Visit α)) (state : State α) {states : List (State α)}
    (hstates : ∀ x ∈ states, P x) (value : α) :
    Action.Completes (Keeping I settings) (follow solver path state states value)
      fun result => ∀ x ∈ result.1, P x := by
  induction path generalizing state states value with
  | nil => exact (Action.Ensures.pure hstates).completes
  | cons visit rest ih =>
    refine .bind Action.Ensures.get.completes fun r _ =>
      .bind (Action.Ensures.ofExcept (R := fun _ => True) fun _ _ => trivial).completes
        fun _ _ => ?_
    refine .bind (ensures_enteringState visit.node state).completes fun state _ => ?_
    refine .bind (completes_solve hsolve visit.node state visit.noise false) fun s hs => ih _ ?_ _
    intro x hx
    rcases List.mem_append.1 hx with hx | hx
    · exact hstates x hx
    · rw [List.mem_singleton.1 hx]
      exact hleft _ _ _ _ hs

theorem completes_forward :
    Action.Completes (Keeping I settings) (forward solver) fun result =>
      ∀ x ∈ result.states, P x := by
  refine .bind (ensures_sampleScenario).completes fun scenario _ =>
    .bind Action.Ensures.get.completes fun r _ => ?_
  refine .bind
    (completes_follow hsolve hleft scenario.path _ (fun _ hx => absurd hx List.not_mem_nil) _)
    fun ⟨states, value⟩ hstates => ?_
  simp only
  split
  · exact (Action.Ensures.bind (ensures_addStarting _ _) fun _ _ => .pure hstates).completes
  · exact (Action.Ensures.pure hstates).completes

omit hsolve hleft in
/-- A backward pass keeps what the refinement of a visited node keeps. -/
theorem completes_backward
    (h : ∀ index state, P state → Action.Completes (Keeping I settings)
      (refineAt solver index (state : State α)) fun _ => True)
    (path : List (Visit α)) {states : List (State α)} (hstates : ∀ x ∈ states, P x) :
    Action.Completes (Keeping I settings) (backward solver path states) fun _ => True :=
  .forM fun place _ => .bind
    (Action.Ensures.ofOption fun state hstate =>
      hstates state (List.mem_of_getElem? hstate)).completes
    fun state hstate => h place.1.node state hstate

end Run

/-- An iteration keeps what solving and the refinement of visited nodes keep. -/
theorem Training.completes_iteration (hsolve : Model.Completes solver I R)
    (hleft : ∀ index noise state s, R false index noise state s → P s.outgoing)
    (hrefine : ∀ index state, P state → Action.Completes (Run.Keeping I settings)
      (Run.refineAt solver index (state : State α)) fun _ => True)
    (measure : Measure α) (start : Datum α) :
    Action.Completes (fun t : Training α => t.run.Keeping I settings)
      (iteration solver measure start)
      fun _ => True := by
  have onRun : ∀ {τ : Type} {act : Action α (Run α) τ} {S : τ → Prop},
      Action.Completes (Run.Keeping I settings) act S →
        Action.Completes (fun t : Training α => t.run.Keeping I settings) (Training.onRun act) S :=
    fun h => .focus h (fun _ => id) fun _ _ _ => id
  refine .bind (onRun (Run.completes_timed _ (Run.completes_forward hsolve hleft)))
    fun forward hstates => ?_
  refine .bind (onRun (Run.completes_timed _ (Run.completes_backward hrefine forward.path hstates)))
    fun _ _ => ?_
  refine .bind (onRun (Run.completes_timed _ (Run.completes_bound hsolve measure)))
    fun bound _ => ?_
  refine .bind (onRun Run.ensures_heed_keeping.completes) fun _ _ => ?_
  refine .bind (onRun (Run.completes_onSession Session.ensures_readClock.completes)) fun now _ => ?_
  exact .bind (Action.Ensures.ofExcept (R := fun _ => True) fun _ _ => trivial).completes
    fun time _ =>
    Action.Triple.modify fun _ ht => ⟨ht, trivial⟩

namespace Training

variable {K : Run α → Prop} {options : TrainingOptions α} {rules : List (StoppingRule α)}
  {start : Datum α}

omit [Scalar α] in
theorem ensures_report (event : Event α) :
    Action.Ensures (fun t : Training α => K t.run) (report event) fun _ => True :=
  .modify fun _ => id

theorem ensures_reportIteration (options : TrainingOptions α) :
    Action.Ensures (fun t : Training α => K t.run) (reportIteration options) fun _ => True := by
  refine .ite (fun _ => .bind .get fun t _ => ?_) fun _ => .pure trivial
  split
  · refine .bind (.forM fun d _ => ?_) fun _ _ => ensures_report _
    exact (Action.Ensures.ofExcept (R := fun _ => True) fun _ _ => trivial).bind fun _ _ =>
      .pure trivial
  · exact .pure trivial

variable (hpatience : ∀ r patience, K r → K { r with patience := patience })
  (h : ∀ start, Action.Completes (fun t : Training α => K t.run)
    (iteration solver options.rootMeasure start) fun _ => True)

include hpatience h

/-- Iterations keep what each of them keeps, if a rule ends them. -/
theorem completes_iterate (budget : ℕ) :
    Action.Completes (fun t : Training α => K t.run) (iterate solver options rules start budget)
      fun _ => True := by
  induction budget with
  | zero => exact Action.Triple.throw fun _ _ => trivial
  | succ budget ih =>
    have rounds :
        Action.Completes (fun t : Training α => K t.run) (round solver options rules start)
        fun _ => True := by
      have look : Action.Completes (fun t : Training α => K t.run) (onRun Run.heed) fun _ => True :=
        (Action.Ensures.focus (Run.ensures_heed hpatience) (fun _ => id) fun _ _ _ => id).completes
      refine .bind (h start) fun _ _ => .bind look fun _ _ =>
        .bind Action.Ensures.get.completes fun t _ => ?_
      refine .bind (Action.Ensures.ofExcept (R := fun _ => True) fun _ _ => trivial).completes
        fun verdict _ => .bind look fun _ _ => .bind (ensures_reportIteration options).completes
          fun _ _ => .bind (R := fun _ => True) (Action.Triple.modify fun _ ht => ⟨ht, trivial⟩)
            fun _ _ => ?_
      exact (Action.Ensures.pure trivial).completes
    refine .bind rounds fun verdict _ => ?_
    cases verdict with
    | some status => exact (Action.Ensures.pure trivial).completes
    | none => exact ih

/-- A run that is not interrupted keeps what every iteration keeps. -/
theorem triple_perform (rules : List (StoppingRule α)) (budget : ℕ)
    (hclock : Action.Ensures K (Run.onSession Session.readClock) fun _ => True) :
    Action.Triple (fun t : Training α => K t.run) (perform solver options rules budget)
      (fun status t => status ≠ interruptedStatus → K t.run) fun _ => True := by
  have settled : ∀ start, Action.Triple (fun t : Training α => K t.run)
      (settle (iterate solver options rules start budget))
      (fun status t => status ≠ interruptedStatus → K t.run) fun _ => True := by
    refine fun start => .of_cases (fun t status u ht hr hstatus => ?_) fun _ _ _ _ _ => trivial
    unfold settle at hr
    split at hr
    all_goals cases hr
    next hact => exact ((completes_iterate hpatience h budget).ok ht hact).1
    next => exact absurd rfl hstatus
  have clock : Action.Completes (fun t : Training α => K t.run)
      (onRun (Run.onSession Session.readClock)) fun _ => True :=
    (Action.Ensures.focus hclock (fun _ => id) fun _ _ _ => id).completes
  -- what comes after the announcement is the same with and without it
  have rest : Action.Triple (fun t : Training α => K t.run)
      (do
        let start ← onRun (Run.onSession Session.readClock)
        let status ← settle (iterate solver options rules start budget)
        if options.reportsAbove 1 then report (.times (← get).run.timer)
        report (.ended status (← get).log.length)
        return status)
      (fun status t => status ≠ interruptedStatus → K t.run) fun _ => True := by
    refine .bind clock fun start => .bind ((settled start).consequence (fun _ => And.left)
      (fun _ _ => id) fun _ => id) fun status => ?_
    have reported : ∀ event, Action.Completes
        (fun t : Training α => status ≠ interruptedStatus → K t.run) (report event) fun _ => True :=
      fun event => (ensures_report (K := fun r => status ≠ interruptedStatus → K r) event).completes
    have ended : Action.Triple (fun t : Training α => status ≠ interruptedStatus → K t.run)
        (do
          report (.ended status (← get).log.length)
          return status)
        (fun status t => status ≠ interruptedStatus → K t.run) fun _ => True :=
      .get_bind fun t ht => .bind ((reported _).startingAt ht) fun _ => .pure fun _ => And.left
    refine .ite (fun _ => .get_bind fun t ht => .bind ((reported _).startingAt ht) fun _ => ?_)
      fun _ => ended
    exact ended.consequence (fun _ => And.left) (fun _ _ => id) fun _ => id
  have announced : ∀ event, Action.Completes (fun t : Training α => K t.run) (report event)
      fun _ => True := fun event => (ensures_report event).completes
  refine .ite (fun _ => ?_) fun _ => rest
  refine .get_bind fun t ht => .bind ((announced _).startingAt ht) fun _ => ?_
  refine .bind ((announced _).consequence (fun _ => And.left) (fun _ _ => id) fun _ => id)
    fun _ => ?_
  exact rest.consequence (fun _ => And.left) (fun _ _ => id) fun _ => id

end Training

end Multistage
