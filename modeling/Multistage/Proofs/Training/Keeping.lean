import Multistage.Training
import Multistage.Proofs.Session.Keeping
import Multistage.Proofs.Training.Patience

/-!
# What training keeps

A training run changes its model by solving nodes and by refining them in backward passes. Whatever
solving and the refinement of a visited node keep is kept by training, also by training that fails
or is interrupted. The log has the bound of every iteration that came to its end.

## Main definitions

- `Run.Keeping`: a property of the model of a run, with the settings of the run.
- `Run.retimed`: a run at other times.
- `Training.Logging`: a relation of the bounds that were logged to the model.

## Main statements

- `Run.ensures_timed_of_retimed`: taking the time keeps what does not depend on it.
- `Run.ensures_forward`, `Run.ensures_backward`: the two passes.
- `train_logs`: the bounds that a training run logs, and the model that it leaves.
- `train_keeps`: what holds of the model alone.
-/

namespace Multistage

variable {α : Type} [Scalar α] {solver : Solver α} {I : Model α → Prop}
  {R : Bool → Datum α → Datum α → State α → Solution α → Prop} {P : State α → Prop}
  {settings : PassSettings α}

namespace Run

/-- The model of the run has a property, and the settings are given ones. -/
def Keeping (I : Model α → Prop) (settings : PassSettings α) (r : Run α) : Prop :=
  I r.session.model ∧ r.settings = settings

/-- The run at other times. -/
def retimed (stopwatch : Clock (Datum α)) (timer : Timer α) (r : Run α) : Run α :=
  { r with session := { r.session with stopwatch := stopwatch }, timer := timer }

/-- A run starts with the session and with what its model declares. -/
theorem start_eq_ok {session : Session α} {options : TrainingOptions α} {run : Run α}
    (h : start session options = .ok run) :
    run.session = session ∧ run.settings.transitions = transitionMap session.model.nodes ∧
      run.settings.similar = session.model.similar ∧
      options.measure.resolve session.model.nodes.keys = .ok run.settings.measures := by
  obtain ⟨_, hmeasures, h⟩ := Except.bind_eq_ok.1 h
  obtain ⟨_, -, h⟩ := Except.bind_eq_ok.1 h
  cases h
  exact ⟨rfl, rfl, rfl, hmeasures⟩

omit [Scalar α] in
theorem ensures_onSession {τ : Type} {act : Action α (Session α) τ} {S : τ → Prop}
    (h : Action.Ensures (fun s : Session α => I s.model) act S) :
    Action.Ensures (Keeping I settings) (onSession act) S :=
  .focus h (fun _ hr => hr.1) fun _ _ hr hs => ⟨hs, hr.2⟩

section Timing

variable {J : Run α → Prop} (hJ : ∀ r stopwatch timer, J r → J (retimed stopwatch timer r))

include hJ

omit [Scalar α] in
/-- What does not depend on the time is kept when the time is taken. -/
theorem ensures_readStopwatch_of_retimed (note : Datum α → Action α (Timer α) Unit) :
    Action.Ensures J (readStopwatch note) fun _ => True :=
  .bind .get fun _ _ => .bind (.modify fun r => hJ r _ r.timer) fun _ _ =>
    .elsewhere _ fun r => hJ r r.session.stopwatch

theorem ensures_timed_of_retimed {τ : Type} {act : Action α (Run α) τ} {S : τ → Prop}
    (part : RunSection) (h : Action.Ensures J act S) : Action.Ensures J (timed part act) S :=
  .bind (ensures_readStopwatch_of_retimed hJ _) fun _ _ =>
    .tryFinally h (ensures_readStopwatch_of_retimed hJ _)

end Timing

omit [Scalar α] in
theorem ensures_readStopwatch (note : Datum α → Action α (Timer α) Unit) :
    Action.Ensures (Keeping I settings) (readStopwatch note) fun _ => True :=
  ensures_readStopwatch_of_retimed (fun _ _ _ => id) note

theorem ensures_timed {τ : Type} {act : Action α (Run α) τ} {S : τ → Prop} (part : RunSection)
    (h : Action.Ensures (Keeping I settings) act S) :
    Action.Ensures (Keeping I settings) (timed part act) S :=
  ensures_timed_of_retimed (fun _ _ _ => id) part h

omit [Scalar α] in
theorem ensures_heed_keeping : Action.Ensures (Keeping I settings) heed fun _ => True :=
  ensures_heed fun _ _ => id

theorem ensures_attend (h : Model.Keeps solver I R) (index : Datum α) (state : State α)
    (noise : Datum α) (needsDuals : Bool) :
    Action.Ensures (Keeping I settings) (attend solver index state noise needsDuals)
      (R needsDuals index noise state) :=
  .bind ensures_heed_keeping fun _ _ =>
    ensures_onSession (Session.ensures_solve h index state noise needsDuals)

theorem ensures_solve (h : Model.Keeps solver I R) (index : Datum α) (state : State α)
    (noise : Datum α) (needsDuals : Bool) :
    Action.Ensures (Keeping I settings) (solve solver index state noise needsDuals)
      (R needsDuals index noise state) :=
  ensures_timed _ (ensures_attend h index state noise needsDuals)

theorem ensures_startingStates (index : Datum α) :
    Action.Ensures (Keeping I settings) (startingStates index) fun _ => True :=
  .bind .get fun _ _ => .ofOption fun _ _ => trivial

theorem ensures_addStarting (index : Datum α) (state : State α) :
    Action.Ensures (Keeping I settings) (addStarting index state) fun _ => True := by
  refine .bind (ensures_startingStates index) fun states _ => .bind (.ofExcept fun _ _ => trivial)
    fun distance _ => ?_
  exact .bind .get fun r _ => .ite (fun _ => .modify fun _ => id) fun _ => .pure trivial

theorem ensures_enteringState (index : Datum α) (state : State α) :
    Action.Ensures (Keeping I settings) (enteringState index state) fun _ => True := by
  refine .bind (ensures_startingStates index) fun states _ => .ite (fun _ => .pure trivial)
    fun _ => ?_
  refine .bind (ensures_addStarting index state) fun _ _ => .bind (ensures_startingStates index)
    fun states _ => ?_
  refine .bind (ensures_onSession (Session.ensures_onDraws _)) fun i _ => ?_
  exact .bind (.modify fun _ => id) fun _ _ => .ofOption fun _ _ => trivial

/-- A walk keeps what solving keeps, and leaves nodes in states in which solving leaves them. -/
theorem ensures_follow (h : Model.Keeps solver I R)
    (hleft : ∀ index noise state s, R false index noise state s → P s.outgoing)
    (path : List (Visit α)) (state : State α) {states : List (State α)}
    (hstates : ∀ x ∈ states, P x) (value : α) :
    Action.Ensures (Keeping I settings) (follow solver path state states value)
      fun result => ∀ x ∈ result.1, P x := by
  induction path generalizing state states value with
  | nil => exact .pure hstates
  | cons visit rest ih =>
    refine .bind .get fun r _ => .bind (.ofExcept fun _ _ => trivial) fun _ _ => ?_
    refine .bind (ensures_enteringState visit.node state) fun state _ => ?_
    refine .bind (ensures_solve h visit.node state visit.noise false) fun s hs => ih _ ?_ _
    intro x hx
    rcases List.mem_append.1 hx with hx | hx
    · exact hstates x hx
    · rw [List.mem_singleton.1 hx]
      exact hleft _ _ _ _ hs

theorem ensures_sampleScenario :
    Action.Ensures (Keeping I settings) (sampleScenario (α := α)) fun _ => True :=
  ensures_timed _ (.bind ensures_heed_keeping fun _ _ => .bind .get fun _ _ =>
    .bind (ensures_onSession (Session.ensures_sample _)) fun _ _ =>
      .bind (.modify fun _ => id) fun _ _ => .pure trivial)

theorem ensures_forward (h : Model.Keeps solver I R)
    (hleft : ∀ index noise state s, R false index noise state s → P s.outgoing) :
    Action.Ensures (Keeping I settings) (forward solver) fun result =>
      ∀ x ∈ result.states, P x := by
  refine .bind ensures_sampleScenario fun scenario _ => .bind .get fun r _ => ?_
  refine .bind (ensures_follow h hleft scenario.path _ (fun _ hx => absurd hx List.not_mem_nil) _)
    fun ⟨states, value⟩ hstates => ?_
  simp only
  split
  · exact .bind (ensures_addStarting _ _) fun _ _ => .pure hstates
  · exact .pure hstates

/-- A backward pass keeps what the refinement of a visited node keeps. -/
theorem ensures_backward
    (h : ∀ index state, P state → Action.Ensures (Keeping I settings)
      (refineAt solver index (state : State α)) fun _ => True)
    (path : List (Visit α)) {states : List (State α)} (hstates : ∀ x ∈ states, P x) :
    Action.Ensures (Keeping I settings) (backward solver path states) fun _ => True :=
  .forM fun place _ =>
    .bind (.ofOption fun state hstate => hstates state (List.mem_of_getElem? hstate))
    fun state hstate => h place.1.node state hstate

/-- A bound keeps what solving keeps, also if the user stops the run on the way. -/
theorem ensures_bound_of_attend {J : Run α → Prop} (hheed : Action.Ensures J heed fun _ => True)
    (hattend : ∀ index state noise,
      Action.Ensures J (attend solver index (state : State α) noise true) fun _ => True)
    (measure : Measure α) : Action.Ensures J (bound solver measure) fun _ => True := by
  have computed (initial : State α) : Action.Ensures J (Session.boundBy (·.session.model)
      (fun child noise => attend solver child initial noise true) measure) fun _ => True := by
    refine .bind .get fun r _ => .bind (Session.ensures_solveChildren _ _ (P := fun _ => True)
      (fun _ _ _ _ => trivial) fun child noise => hattend child initial noise) fun results _ => ?_
    exact .bind (R := fun _ => True) (.ofExcept fun _ _ => trivial) fun _ _ => .pure trivial
  exact .bind .get fun r _ => .bind (computed _) fun _ _ => .bind hheed fun _ _ => .pure trivial

theorem ensures_bound (h : Model.Keeps solver I R) (measure : Measure α) :
    Action.Ensures (Keeping I settings) (bound solver measure) fun _ => True :=
  ensures_bound_of_attend ensures_heed_keeping (fun index state noise =>
    (ensures_attend h index state noise true).weaken fun _ _ => trivial) measure

end Run

namespace Training

variable {L : List α → Model α → Prop} {t : Training α}

/-- These bounds were logged, and the model has a property. -/
def Logged (bounds : List α) (I : Model α → Prop) (settings : PassSettings α) (t : Training α) :
    Prop :=
  t.log.map (·.bound) = bounds.map .real ∧ t.run.Keeping I settings

/-- The bounds that were logged and the model are in a relation. -/
def Logging (L : List α → Model α → Prop) (settings : PassSettings α) (t : Training α) : Prop :=
  ∃ bounds, Logged bounds (L bounds) settings t

omit [Scalar α] in
/-- A pass of the run does not change what was logged. -/
theorem ensures_onRun {τ : Type} {act : Action α (Run α) τ} {S : τ → Prop} (bounds : List α)
    (h : Action.Ensures (Run.Keeping I settings) act S) :
    Action.Ensures (Logged bounds I settings) (onRun act) S :=
  .focus h (fun _ => And.right) fun _ _ ht hr => ⟨ht.1, hr⟩

omit [Scalar α] in
theorem ensures_logging {τ : Type} {act : Action α (Training α) τ}
    (h : ∀ bounds, Action.Ensures (Logged bounds (L bounds) settings) act fun _ => True) :
    Action.Ensures (Logging L settings) act fun _ => True :=
  .exists h

omit [Scalar α] in
/-- What stops a run changes nothing but the journal. -/
theorem triple_settle {I J : Training α → Prop} {act : Action α (Training α) String}
    (hJ : ∀ t journal, J t → J { t with journal := journal })
    (h : Action.Triple I act (fun _ => J) J) :
    Action.Triple I (settle act) (fun _ => J) J := by
  refine .of_cases (fun t status u ht hr => ?_) fun t e u ht hr => ?_
  all_goals
    unfold settle at hr
    split at hr
    all_goals cases hr
  next hact => exact h.ok ht hact
  next hact => exact h.error ht hact
  next hact => exact hJ _ _ (h.error ht hact)
  next hact => exact h.error ht hact

omit [Scalar α] in
theorem ensures_settle {J : Training α → Prop} {S : String → Prop}
    {act : Action α (Training α) String}
    (hJ : ∀ t journal, J t → J { t with journal := journal }) (h : Action.Ensures J act S) :
    Action.Ensures J (settle act) fun _ => True :=
  (triple_settle hJ (h.consequence (fun _ => id) (fun _ _ => And.left) fun _ => id)).consequence
    (fun _ => id) (fun _ _ ht => ⟨ht, trivial⟩) fun _ => id

/-- The relation is kept by the passes of an iteration and takes in the bound of the iteration. -/
structure Logs (solver : Solver α) (L : List α → Model α → Prop) (settings : PassSettings α)
    (measure : Measure α) : Prop where
  passes : ∀ bounds, ∃ (R : Bool → Datum α → Datum α → State α → Solution α → Prop)
    (P : State α → Prop), Model.Keeps solver (L bounds) R ∧
      (∀ index noise state s, R false index noise state s → P s.outgoing) ∧
      ∀ index state, P state → Action.Ensures (Run.Keeping (L bounds) settings)
        (Run.refineAt solver index (state : State α)) fun _ => True
  bound : ∀ bounds (s s' : Session α) b, L bounds s.model →
    Session.bound solver s.model.initial measure s = .ok b s' → L (bounds ++ [b]) s'.model
  before : ∀ bounds b m, L (bounds ++ [b]) m → L bounds m

variable {measure : Measure α} (h : Logs solver L settings measure)

include h

theorem triple_bound (bounds : List α) :
    Action.Triple (Run.Keeping (L bounds) settings) (Run.timed .bound (Run.bound solver measure))
      (fun b => Run.Keeping (L (bounds ++ [b])) settings) (Run.Keeping (L bounds) settings) := by
  obtain ⟨R, P, hsolve, -, -⟩ := h.passes bounds
  have computed : Action.Triple (Run.Keeping (L bounds) settings) (Run.bound solver measure)
      (fun b => Run.Keeping (L (bounds ++ [b])) settings) (Run.Keeping (L bounds) settings) := by
    refine .of_cases (fun r b r' hr hrun => ?_) fun r e r' hr hrun => ?_
    · obtain ⟨s, _, hs, rfl⟩ := Run.bound_eq_ok hrun
      exact ⟨h.bound bounds _ s b hr.1 hs, hr.2⟩
    · exact (Run.ensures_bound hsolve measure).error hr hrun
  refine .bind ((Run.ensures_readStopwatch _).consequence (fun _ => id) (fun _ _ => And.left)
    fun _ => id) fun _ => ?_
  exact .tryFinally computed (fun _ => Run.ensures_readStopwatch _) (Run.ensures_readStopwatch _)
    fun b _ hr => ⟨h.before bounds b _ hr.1, hr.2⟩

/-- An iteration logs its bound. -/
theorem ensures_iteration (start : Datum α) :
    Action.Ensures (Logging L settings) (iteration solver measure start) fun _ => True := by
  refine .of_forall fun t ⟨bounds, ht⟩ => ?_
  obtain ⟨R, P, hsolve, hleft, hrefine⟩ := h.passes bounds
  have logging : ∀ u, Logged bounds (L bounds) settings u → Logging L settings u := fun _ hu =>
    ⟨bounds, hu⟩
  have bounded : ∀ b u, Logged bounds (L (bounds ++ [b])) settings u → Logging L settings u :=
    fun b u hu => ⟨bounds, hu.1, h.before bounds b _ hu.2.1, hu.2.2⟩
  have forth : Action.Ensures (Logged bounds (L bounds) settings)
      (onRun (Run.timed .forwardPass (Run.forward solver))) fun result =>
      ∀ x ∈ result.states, P x :=
    ensures_onRun bounds (Run.ensures_timed _ (Run.ensures_forward hsolve hleft))
  refine .bind ((forth.startingAt ht).consequence (fun _ => id) (fun _ _ => id) logging)
    fun forward u hu => ?_
  have back := ensures_onRun bounds
    (Run.ensures_timed .backwardPass (Run.ensures_backward hrefine forward.path hu.2))
  refine Action.Triple.bind (P := Logged bounds (L bounds) settings)
    (back.consequence (fun _ => id) (fun _ _ => And.left) logging) (fun _ => ?_) u hu.1
  refine .bind (Q := fun b => Logged bounds (L (bounds ++ [b])) settings) ?_ fun b => ?_
  · refine .of_forall fun u hu => ?_
    refine (Action.Triple.focus ((triple_bound h bounds).startingAt hu.2)).consequence
      (fun _ => id) ?_ ?_
    · rintro b _ ⟨r, rfl, hr⟩
      exact ⟨hu.1, hr⟩
    · rintro _ ⟨r, rfl, hr⟩
      exact ⟨bounds, hu.1, hr⟩
  have look : Action.Ensures (Logged bounds (L (bounds ++ [b])) settings) (onRun Run.heed)
      fun _ => True :=
    ensures_onRun bounds Run.ensures_heed_keeping
  refine .bind (look.consequence (fun _ => id) (fun _ _ => And.left) (bounded b)) fun _ => ?_
  have read : Action.Ensures (Logged bounds (L (bounds ++ [b])) settings)
      (onRun (Run.onSession Session.readClock)) fun _ => True :=
    ensures_onRun bounds (Run.ensures_onSession Session.ensures_readClock)
  refine .bind (read.consequence (fun _ => id) (fun _ _ => And.left) (bounded b)) fun now => ?_
  refine .ofExcept_bind (fun time _ => .modify fun u hu => ⟨⟨bounds ++ [b], ?_, hu.2⟩, trivial⟩)
    (bounded b)
  rw [List.map_append, hu.1, List.map_append]
  rfl

theorem ensures_round (options : TrainingOptions α) (rules : List (StoppingRule α))
    (start : Datum α) (hmeasure : options.rootMeasure = measure) :
    Action.Ensures (Logging L settings) (round solver options rules start) fun _ => True := by
  have look : Action.Ensures (Logging L settings) (onRun Run.heed) fun _ => True :=
    ensures_logging fun bounds => ensures_onRun bounds Run.ensures_heed_keeping
  refine .bind (hmeasure ▸ ensures_iteration h start) fun _ _ => .bind look fun _ _ => ?_
  refine .bind .get fun t _ => .bind (.ofExcept fun _ _ => trivial) fun verdict _ => ?_
  refine .bind look fun _ _ =>
    .bind (R := fun _ => True) (.ite (fun _ => ?_) fun _ => .pure trivial)
    fun _ _ => .bind (.modify fun _ => id) fun _ _ => .pure trivial
  refine .bind .get fun t _ => ?_
  split
  · refine .bind (.forM fun d _ => ?_) fun _ _ => .modify fun _ => id
    exact (Action.Ensures.ofExcept (R := fun _ => True) fun _ _ => trivial).bind fun _ _ =>
      .pure trivial
  · exact .pure trivial

theorem ensures_iterate (options : TrainingOptions α) (rules : List (StoppingRule α))
    (start : Datum α) (hmeasure : options.rootMeasure = measure) (budget : ℕ) :
    Action.Ensures (Logging L settings) (iterate solver options rules start budget)
      fun _ => True := by
  induction budget with
  | zero => exact .throw
  | succ budget ih =>
    refine .bind (ensures_round h options rules start hmeasure) fun verdict _ => ?_
    cases verdict with
    | some status => exact .pure trivial
    | none => exact ih

theorem ensures_perform (options : TrainingOptions α) (rules : List (StoppingRule α))
    (hmeasure : options.rootMeasure = measure) (budget : ℕ) :
    Action.Ensures (Logging L settings) (perform solver options rules budget) fun _ => True := by
  have report : ∀ event, Action.Ensures (Logging L settings) (report event) fun _ => True :=
    fun event => .modify fun _ => id
  have settled : ∀ start, Action.Ensures (Logging L settings)
      (settle (iterate solver options rules start budget)) fun _ => True :=
    fun start =>
      ensures_settle (fun _ _ => id) (ensures_iterate h options rules start hmeasure budget)
  have clock : Action.Ensures (Logging L settings) (onRun (Run.onSession Session.readClock))
      fun _ => True :=
    ensures_logging fun bounds => (ensures_onRun bounds
      (Run.ensures_onSession Session.ensures_readClock)).weaken fun _ _ => trivial
  refine .ite (fun _ => .bind .get fun t _ => .bind (report _) fun _ _ => .bind (report _)
    fun _ _ => ?_) fun _ => ?_
  -- what comes after the announcement is the same with and without it
  all_goals
    refine .bind clock fun start _ => .bind (settled start) fun status _ => ?_
    refine .ite (fun _ => .bind .get fun t _ => .bind (report _) fun _ _ => ?_) fun _ => ?_
    all_goals
      exact .bind .get fun t _ => .bind (report _) fun _ _ => .pure trivial

end Training

/-- Checks settle what the scheme and the rules are, and change nothing else. -/
theorem TrainingOptions.check_eq_ok {request : TrainingRequest α} {o : TrainingOptions α}
    (h : check request = .ok o) : ∃ scheme rules, schemeOf request.scheme = .ok scheme ∧
      request.rules.mapM ruleOf = .ok rules ∧ o = { request.options with scheme, rules } := by
  unfold check at h
  simp only at h
  split at h
  · cases h
  obtain ⟨_, -, h⟩ := Except.bind_eq_ok.1 h
  obtain ⟨_, -, h⟩ := Except.bind_eq_ok.1 h
  obtain ⟨_, -, h⟩ := Except.bind_eq_ok.1 h
  obtain ⟨_, -, h⟩ := Except.bind_eq_ok.1 h
  obtain ⟨scheme, hscheme, h⟩ := Except.bind_eq_ok.1 h
  obtain ⟨rules, hrules, h⟩ := Except.bind_eq_ok.1 h
  cases h
  exact ⟨scheme, rules, hscheme, hrules, rfl⟩

/-- Checks do not change the measures. -/
theorem TrainingOptions.measure_of_check {request : TrainingRequest α} {o : TrainingOptions α}
    (h : check request = .ok o) : o.measure = request.options.measure := by
  obtain ⟨_, _, -, -, rfl⟩ := check_eq_ok h
  rfl

theorem TrainingOptions.rootMeasure_of_check {request : TrainingRequest α} {o : TrainingOptions α}
    (h : check request = .ok o) : o.rootMeasure = request.options.rootMeasure := by
  rw [rootMeasure, measure_of_check h, rootMeasure]

/-- The bounds that training logs and the model that it leaves are in a relation that iterations
keep, however it ends. -/
theorem train_logs {L : List α → Model α → Prop} {budget : ℕ} {request : TrainingRequest α}
    {session : Session α} (h : L [] session.model)
    (hlogs : ∀ options run, TrainingOptions.check request = .ok options →
      Run.start session options = .ok run →
        Training.Logs solver L run.settings options.rootMeasure) :
    ∃ bounds : List α, (train solver budget request session).log.map (·.bound) = bounds.map .real ∧
      L bounds (train solver budget request session).session.model := by
  unfold train
  split
  · exact ⟨[], rfl, h⟩
  next options rules hoptions =>
    split
    · exact ⟨[], rfl, h⟩
    next run hrun =>
      obtain ⟨o, hcheck, hrest⟩ := Except.bind_eq_ok.1 hoptions
      obtain ⟨_, -, hrest⟩ := Except.bind_eq_ok.1 hrest
      cases hrest
      obtain ⟨_, -, hstart⟩ := Except.bind_eq_ok.1 hrun
      have performed := Training.ensures_perform (hlogs options run hcheck hstart) options rules rfl
        budget (.ofRun run) ⟨[], rfl, (Run.start_eq_ok hstart).1 ▸ h, rfl⟩
      split
      next hr =>
        rw [hr] at performed
        obtain ⟨⟨bounds, hlog, hmodel, -⟩, -⟩ := performed
        exact ⟨bounds, hlog, hmodel⟩
      next hr =>
        rw [hr] at performed
        obtain ⟨bounds, hlog, hmodel, -⟩ := performed
        exact ⟨bounds, hlog, hmodel⟩

/-- Training keeps what solving and the refinement of visited nodes keep, and it logs bounds that
have what every bound has that is computed on the way, however it ends. -/
theorem train_keeps_and_logs {Q : α → Prop} {budget : ℕ} {request : TrainingRequest α}
    {session : Session α} (h : I session.model) (hsolve : Model.Keeps solver I R)
    (hleft : ∀ index noise state s, R false index noise state s → P s.outgoing)
    (hrefine : ∀ options run, TrainingOptions.check request = .ok options →
      Run.start session options = .ok run → ∀ index state, P state →
        Action.Ensures (Run.Keeping I run.settings) (Run.refineAt solver index (state : State α))
          fun _ => True)
    (hbound : ∀ (s s' : Session α) b, I s.model →
      Session.bound solver s.model.initial request.options.rootMeasure s = .ok b s' → Q b) :
    I (train solver budget request session).session.model ∧ ∃ bounds : List α,
      (train solver budget request session).log.map (·.bound) = bounds.map .real ∧
        ∀ b ∈ bounds, Q b := by
  let L : List α → Model α → Prop := fun bounds m => I m ∧ ∀ b ∈ bounds, Q b
  have logs : ∀ options run, TrainingOptions.check request = .ok options →
      Run.start session options = .ok run →
        Training.Logs solver L run.settings options.rootMeasure := by
    intro options run hcheck hstart
    refine ⟨fun bounds => ⟨R, P, fun index noise state needsDuals =>
      (hsolve index noise state needsDuals).const, hleft, fun index state hstate => ?_⟩,
      fun bounds s s' b hs hr => ?_,
      fun bounds b m hm => ⟨hm.1, fun b' hb' => hm.2 b' (List.mem_append_left _ hb')⟩⟩
    · refine (hrefine options run hcheck hstart index state hstate).const.consequence
        (fun _ hr => ⟨⟨hr.1.1, hr.2⟩, hr.1.2⟩)
        (fun _ _ hr => ⟨⟨⟨hr.1.1.1, hr.1.2⟩, hr.1.1.2⟩, trivial⟩)
        fun _ hr => ⟨⟨hr.1.1, hr.2⟩, hr.1.2⟩
    · refine ⟨((Session.ensures_bound hsolve _ _).ok hs.1 hr).1, fun b' hb' => ?_⟩
      rw [TrainingOptions.rootMeasure_of_check hcheck] at hr
      rcases List.mem_append.1 hb' with hb' | hb'
      · exact hs.2 b' hb'
      · rw [List.mem_singleton.1 hb']
        exact hbound s s' b hs.1 hr
  obtain ⟨bounds, hlog, hmodel, hbounds⟩ :=
    @train_logs α _ solver L budget request session ⟨h, nofun⟩ logs
  exact ⟨hmodel, bounds, hlog, hbounds⟩

/-- Training keeps what solving and the refinement of visited nodes keep, however it ends. -/
theorem train_keeps {budget : ℕ} {request : TrainingRequest α} {session : Session α}
    (h : I session.model) (hsolve : Model.Keeps solver I R)
    (hleft : ∀ index noise state s, R false index noise state s → P s.outgoing)
    (hrefine : ∀ options run, TrainingOptions.check request = .ok options →
      Run.start session options = .ok run → ∀ index state, P state →
        Action.Ensures (Run.Keeping I run.settings) (Run.refineAt solver index (state : State α))
          fun _ => True) :
    I (train solver budget request session).session.model :=
  (train_keeps_and_logs (Q := fun _ => True) h hsolve hleft hrefine fun _ _ _ _ _ => trivial).1

end Multistage
