import Multistage.Proofs.Session.Lockstep
import Multistage.Proofs.Training.Course

/-!
# Training runs in step

Two training runs do the same passes if they have the same draws, scheme and starting states and
their models agree. The times that they take need not be the same; it is enough that differences of
times are numbers.

## Main definitions

- `Clock.Measures`: differences of readings are numbers.
- `Timing`: how the times of two runs are related.
- `Run.Agree`: runs that do the same passes.
- `visitedBy`: the nodes of a path.
- `PassSettings.Covered`: a set has all nodes that are refined without being visited.
- `TrainingReport.Agree`: reports of runs with the same log.

## Main statements

- `Run.inStep_forward`, `Run.inStep_backward`: the same passes; both models agree on the visited
  nodes.
- `Training.inStep_evaluate`: an iteration up to its bound.
- `train_agree`: runs at the same time on models that agree.
-/

namespace Multistage

open Multistage.Action (InStep Parallel)

variable {α : Type} [Scalar α]

/-! ### Times -/

/-- Differences of readings are numbers. -/
def Clock.Measures (readings : ℕ → Datum α) : Prop :=
  ∀ i j, ∃ d x, (readings i).sub (readings j) = .ok d ∧ d.asNumber = .ok x

/-- How the times of two runs are related: they are the same, or both runs have readings of their
own. -/
inductive Timing (α : Type) where
  | same
  | own (readings readings' : ℕ → Datum α)

namespace Timing

/-- Two clocks that show the same, or that show given readings whose differences are numbers. -/
def Clocks : Timing α → Clock (Datum α) → Clock (Datum α) → Prop
  | same, c, c' => c' = c
  | own w w', c, c' => (Clock.Measures w ∧ c.reading = w) ∧ Clock.Measures w' ∧ c'.reading = w'

omit [Scalar α] in
/-- Two timers that are the same, or that have given open sections. -/
def Timers : Timing α → (running running' : List (OpenSection α)) → Timer α → Timer α → Prop
  | same, _, _, t, t' => t' = t
  | own _ _, running, running', t, t' => t.running = running ∧ t'.running = running'

/-- The time is that of a reading, if the readings are given. -/
def Reads : Timing α → Datum α → Datum α → Prop
  | same, _, _ => True
  | own w w', x, x' => (∃ i, x = w i) ∧ ∃ i, x' = w' i

theorem Clocks.next {timing : Timing α} {c c' : Clock (Datum α)} (h : timing.Clocks c c') :
    timing.Reads c.read.1 c'.read.1 ∧ timing.Clocks c.read.2 c'.read.2 := by
  cases timing with
  | same =>
    cases h
    exact ⟨trivial, rfl⟩
  | own w w' =>
    obtain ⟨⟨hw, rfl⟩, hw', rfl⟩ := h
    exact ⟨⟨⟨_, rfl⟩, _, rfl⟩, ⟨hw, rfl⟩, hw', rfl⟩

end Timing

/-- A section that was entered at a time that can be compared is left without a failure. -/
theorem Timer.leave_eq_ok {t : Timer α} {text : String} {start time d : Datum α} {x : α}
    {outer : List (OpenSection α)} (h : t.running = ⟨.text text, some start⟩ :: outer)
    (hd : time.sub start = .ok d) (hx : d.asNumber = .ok x) :
    ∃ t', leave (.ok time) t = .ok () t' ∧ t'.running = outer := by
  have elapsed : (do (← (← (Except.ok time : Except (Failure α) (Datum α))).sub start).asNumber) =
      .ok x := by
    show (time.sub start >>= fun d => d.asNumber) = .ok x
    rw [hd]
    exact hx
  let left : Timer α := ({ t with running := outer } : Timer α).update (.text text) id
  refine ⟨left.update (.text text) fun s => ⟨s.total + x, s.calls + 1⟩,
    Action.bind_eq_ok.2 ⟨t, t, rfl, ?_⟩, rfl⟩
  rw [h]
  refine Action.bind_eq_ok.2
    ⟨⟨⟩, { t with running := outer }, rfl, Action.bind_eq_ok.2 ⟨⟨⟩, left, rfl, ?_⟩⟩
  exact Action.bind_eq_ok.2 ⟨x, left, Action.ofExcept_eq_ok.2 ⟨elapsed, rfl⟩, rfl⟩

/-! ### Passes -/

/-- The nodes that a path visits. -/
def visitedBy (path : List (Visit α)) : Set (Datum α) := {i | ∃ visit ∈ path, visit.node = i}

/-- The set has all nodes that are refined because they are similar to one that is visited. -/
def PassSettings.Covered (settings : PassSettings α) (S : Set (Datum α)) : Prop :=
  settings.refinesSimilar = true → ∀ index others, settings.similar.get? index = some others →
    ∀ other ∈ others, other ∈ S

namespace Run

variable {solver : Solver α} {K : Set (Datum α) → Model α → Model α → Prop}
  {F : Failure α → Failure α → Prop}
  {clock watch : Timing α} {settings : PassSettings α} {running running' : List (OpenSection α)}
  {S : Set (Datum α)} {β : Type}

/-- The clocks of two sessions. -/
def Times (clock watch : Timing α) (s s' : Session α) : Prop :=
  clock.Clocks s.clock s'.clock ∧ watch.Clocks s.stopwatch s'.stopwatch

/-- Runs with given settings that have the same draws, scheme and starting states, and models that
agree. -/
structure Agree (K : Set (Datum α) → Model α → Model α → Prop) (clock watch : Timing α)
    (settings : PassSettings α) (running running' : List (OpenSection α)) (S : Set (Datum α))
    (r r' : Run α) : Prop where
  session : Session.Agree K (Times clock watch) S r.session r'.session
  settings_left : r.settings = settings
  settings_right : r'.settings = settings
  scheme : r'.scheme = r.scheme
  starting : r'.starting = r.starting
  timer : watch.Timers running running' r.timer r'.timer
  patience : r'.patience = r.patience

theorem ofClocks_times : Session.OfClocks (Times clock watch) := fun _ _ _ _ _ _ => id

section

variable (h : Model.Lockstep solver K F)

include h

theorem hereditary_agree : Action.Hereditary (Agree K clock watch settings running running') :=
  fun _ _ hS _ _ hr => { hr with session := Session.hereditary_agree h hS _ _ hr.session }

omit h in
theorem inStep_onSession {act : Action α (Session α) β} {S' : β → Set (Datum α)}
    (hact : InStep (Session.Agree K (Times clock watch)) F S act S') :
    InStep (Agree K clock watch settings running running') F S (onSession act) S' :=
  .focus hact (fun _ _ hr => hr.session) fun _ _ _ _ _ hr hs => { hr with session := hs }

omit h in
/-- The section is open in both runs from the times at which they entered it. -/
theorem agree_enter (part : RunSection) {r r' : Run α}
    (hr : Agree K clock watch settings running running' S r r') :
    ∃ x x' u u', watch.Reads x x' ∧
      readStopwatch (fun time => Timer.enter (.text part.name) (.ok time)) r = .ok () u ∧
      readStopwatch (fun time => Timer.enter (.text part.name) (.ok time)) r' = .ok () u' ∧
      Agree K clock watch settings (⟨.text part.name, some x⟩ :: running)
        (⟨.text part.name, some x'⟩ :: running') S u u' := by
  obtain ⟨hreads, hnext⟩ := hr.session.times.2.next
  let entered (r : Run α) : Run α :=
    { r with
      session := { r.session with stopwatch := r.session.stopwatch.read.2 }
      timer := { r.timer with
        running := ⟨.text part.name, some r.session.stopwatch.read.1⟩ :: r.timer.running } }
  refine ⟨_, _, entered r, entered r', hreads, rfl, rfl,
    ⟨hr.session.model, hr.session.draws, hr.session.times.1, hnext⟩, hr.settings_left,
    hr.settings_right,
    hr.scheme, hr.starting, ?_, hr.patience⟩
  cases watch with
  | same =>
    have htimer : r'.timer = r.timer := hr.timer
    have hwatch : r'.session.stopwatch = r.session.stopwatch := hr.session.times.2
    show (entered r').timer = (entered r).timer
    simp only [entered, htimer, hwatch]
  | own w w' =>
    obtain ⟨hrunning, hrunning'⟩ : r.timer.running = running ∧ r'.timer.running = running' :=
      hr.timer
    exact ⟨congrArg _ hrunning, congrArg _ hrunning'⟩

omit [Scalar α] in
omit h in
/-- The next reading of the stopwatch is handed to the timer. -/
theorem readStopwatch_eq (note : Datum α → Action α (Timer α) Unit) (r : Run α) :
    readStopwatch note r =
      Action.focus (·.timer) (fun r t => { r with timer := t }) (note r.session.stopwatch.read.1)
        { r with session := { r.session with stopwatch := r.session.stopwatch.read.2 } } := rfl

/-- Both runs leave the section, or neither can. -/
theorem parallel_leave (part : RunSection) {x x' : Datum α} (hreads : watch.Reads x x') :
    Parallel (Agree K clock watch settings (⟨.text part.name, some x⟩ :: running)
        (⟨.text part.name, some x'⟩ :: running') S)
      (readStopwatch fun time => Timer.leave (.ok time))
      (readStopwatch fun time => Timer.leave (.ok time))
      (fun _ _ => Agree K clock watch settings running running' S)
      fun e e' r r' => F e e' ∧ Agree K clock watch settings running running' S r r' := by
  refine .of_cases fun r r' hr => ?_
  obtain ⟨hnow, hnext⟩ := hr.session.times.2.next
  have left : ∀ t t', watch.Timers running running' t t' →
      Agree K clock watch settings running running' S
        { r with session := { r.session with stopwatch := r.session.stopwatch.read.2 }, timer := t }
        { r' with
          session := { r'.session with stopwatch := r'.session.stopwatch.read.2 }, timer := t' } :=
    fun t t' ht =>
      ⟨⟨hr.session.model, hr.session.draws, hr.session.times.1, hnext⟩, hr.settings_left,
      hr.settings_right, hr.scheme, hr.starting, ht, hr.patience⟩
  rw [readStopwatch_eq, readStopwatch_eq]
  cases watch with
  | same =>
    have htimer : r'.timer = r.timer := hr.timer
    have hwatch : r'.session.stopwatch = r.session.stopwatch := hr.session.times.2
    have again : Timer.leave (.ok r'.session.stopwatch.read.1) r'.timer =
        Timer.leave (.ok r.session.stopwatch.read.1) r.timer := by rw [htimer, hwatch]
    cases hleave : Timer.leave (.ok r.session.stopwatch.read.1) r.timer with
    | ok b t =>
      exact .inl ⟨b, b, _, _, Action.focus_eq_ok.2 ⟨t, hleave, rfl⟩,
        Action.focus_eq_ok.2 ⟨t, again.trans hleave, rfl⟩, left t t rfl⟩
    | error e t =>
      exact .inr ⟨e, e, _, _, Action.focus_eq_error.2 ⟨t, hleave, rfl⟩,
        Action.focus_eq_error.2 ⟨t, again.trans hleave, rfl⟩, h.refl e, left t t rfl⟩
  | own w w' =>
    obtain ⟨⟨i, rfl⟩, j, rfl⟩ := hreads
    obtain ⟨⟨k, hk⟩, l, hl⟩ := hnow
    obtain ⟨⟨hw, -⟩, hw', -⟩ := hr.session.times.2
    obtain ⟨d, x, hd, hx⟩ := hw k i
    obtain ⟨d', x', hd', hx'⟩ := hw' l j
    obtain ⟨t, hleave, ht⟩ := Timer.leave_eq_ok hr.timer.1 (hk ▸ hd) hx
    obtain ⟨t', hleave', ht'⟩ := Timer.leave_eq_ok hr.timer.2 (hl ▸ hd') hx'
    exact .inl ⟨(), (), _, _, Action.focus_eq_ok.2 ⟨t, hleave, rfl⟩,
      Action.focus_eq_ok.2 ⟨t', hleave', rfl⟩,
      left t t' ⟨ht, ht'⟩⟩

/-- What is in step is in step when its time is taken. -/
theorem inStep_timed (part : RunSection) {act : Action α (Run α) β} {S' : β → Set (Datum α)}
    (hact : ∀ running running', InStep (Agree K clock watch settings running running') F S act S') :
    InStep (Agree K clock watch settings running running') F S (timed part act) S' := by
  refine Parallel.of_forall fun r r' hr => ?_
  obtain ⟨x, x', u, u', hreads, henter, henter', hu⟩ := agree_enter part hr
  refine .bind (Q := fun _ _ v v' => v = u ∧ v' = u') ?_ fun _ _ => ?_
  · rintro _ _ ⟨rfl, rfl⟩
    rw [henter, henter']
    exact ⟨rfl, rfl⟩
  refine .tryFinally (Parallel.startingAt (hact _ _) hu) (fun b b' => ?_) fun e e' => ?_
  · refine .of_forall fun v v' ⟨hb, hv⟩ =>
      (parallel_leave h part hreads).startingAt hv |>.consequence
      (fun _ _ => id) (fun _ _ _ _ hw => ⟨hb, hw⟩) fun _ _ _ _ hw => ⟨hw.1, ?_⟩
    exact hereditary_agree h (Set.empty_subset _) _ _ hw.2
  · exact .of_forall fun v v' ⟨he, hv⟩ =>
      (parallel_leave h part hreads).startingAt hv |>.consequence
      (fun _ _ => id) (fun _ _ _ _ hw => ⟨he, hw⟩) fun _ _ _ _ hw => hw

omit h in
/-- Both runs go on, or the user stops both. -/
theorem inStep_heed (hK : Action.Hereditary K) (hF : ∀ e, F e e) :
    InStep (Agree K clock watch settings running running') F S heed fun _ => S := by
  refine .get_bind (fun r r' hr => by rw [hr.patience]) fun r => ?_
  split
  · exact .pure fun _ => S
  · exact .throw (fun _ _ hS _ _ hr => { hr with session :=
      ⟨hK hS _ _ hr.session.model, hr.session.draws, hr.session.times⟩ }) hF
  · exact .modify fun _ _ hr => { hr with patience := rfl }

theorem inStep_attend (index : Datum α) (state : State α) (noise : Datum α) (needsDuals : Bool) :
    InStep (Agree K clock watch settings running running') F S
      (attend solver index state noise needsDuals) fun _ => insert index S :=
  .bind (inStep_heed h.hereditary h.refl) fun _ =>
    inStep_onSession (Session.inStep_solve h ofClocks_times index state noise needsDuals)

theorem inStep_solve (index : Datum α) (state : State α) (noise : Datum α) (needsDuals : Bool) :
    InStep (Agree K clock watch settings running running') F S
      (solve solver index state noise needsDuals) fun _ => insert index S :=
  inStep_timed h _ fun _ _ => inStep_attend h index state noise needsDuals

theorem inStep_sampleScenario :
    InStep (Agree K clock watch settings running running') F S sampleScenario fun _ => S := by
  refine inStep_timed h _ fun running running' => .bind (inStep_heed h.hereditary h.refl) fun _ =>
    .get_bind (fun r r' hr => ?_) fun r => ?_
  · rw [hr.scheme]
  refine .bind (inStep_onSession (Session.inStep_sample h ofClocks_times _)) fun found => ?_
  refine .bind (.modify fun r r' hr => ?_) fun _ => .pure fun _ => S
  exact { hr with scheme := rfl }

theorem inStep_startingStates (index : Datum α) :
    InStep (Agree K clock watch settings running running') F S (startingStates index)
      fun _ => S := by
  refine .get_bind (fun r r' hr => ?_) fun r => .ofOption (hereditary_agree h) h.refl
  rw [hr.starting]

omit h in
theorem agree_modify {r r' : Run α} (hr : Agree K clock watch settings running running' S r r')
    (index : Datum α) (change : List (State α) → List (State α)) :
    Agree K clock watch settings running running' S
      { r with starting := r.starting.modify index change }
      { r' with starting := r'.starting.modify index change } :=
  { hr with starting := congrArg (Dict.modify · index change) hr.starting }

theorem inStep_addStarting (index : Datum α) (state : State α) :
    InStep (Agree K clock watch settings running running') F S (addStarting index state)
      fun _ => S := by
  refine .bind (inStep_startingStates h index) fun states =>
    .bind (.ofExcept (hereditary_agree h) h.refl) fun distance => .get_bind (fun r r' hr => ?_)
      fun r => ?_
  · rw [hr.settings_left, hr.settings_right]
  · exact .ite (fun _ => .modify fun _ _ hr => agree_modify hr _ _) fun _ => .pure fun _ => S

theorem inStep_enteringState (index : Datum α) (state : State α) :
    InStep (Agree K clock watch settings running running') F S (enteringState index state)
      fun _ => S := by
  refine .bind (inStep_startingStates h index) fun states =>
    .ite (fun _ => .pure fun _ => S) fun _ => ?_
  refine .bind (inStep_addStarting h index state) fun _ => .bind (inStep_startingStates h index)
    fun states => ?_
  refine .bind (inStep_onSession (Session.inStep_onDraws h ofClocks_times _)) fun i => ?_
  exact .bind (.modify fun _ _ hr => agree_modify hr _ _) fun _ =>
    .ofOption (hereditary_agree h) h.refl

/-- The node of an index exists in both models, or in neither. -/
theorem inStep_node {index : Datum α} {f : Node α → Action α (Run α) β} {S' : β → Set (Datum α)}
    (hf : ∀ n n', n'.declaration = n.declaration → f n' = f n)
    (hact : ∀ n, InStep (Agree K clock watch settings running running') F S (f n) S') :
    InStep (Agree K clock watch settings running running') F S
      (do f (← Action.ofExcept ((← get).session.model.node index))) S' := by
  refine .get_bind (fun r r' hr => ?_) fun r => .bind (.ofExcept (hereditary_agree h) h.refl) hact
  have hdecl := h.declaration hr.session.model
  cases hn : r.session.model.node index with
  | ok n =>
    obtain ⟨n', hn', hsame⟩ := Model.node_of_declaration_eq hdecl hn
    rw [hn']
    exact (hf n n' hsame).symm
  | error e => rw [Model.node_eq_error_of_declaration_eq hdecl hn]

/-- Both runs go through the same states, and their models agree on the nodes of the path. -/
theorem inStep_follow (path : List (Visit α)) (state : State α) (states : List (State α))
    (value : α) :
    InStep (Agree K clock watch settings running running') F S
      (follow solver path state states value)
      fun _ => S ∪ visitedBy path := by
  induction path generalizing S state states value with
  | nil =>
    refine InStep.weaken (.pure fun _ => S) (hereditary_agree h) subset_rfl fun _ => ?_
    rintro i (hi | ⟨visit, hvisit, -⟩)
    · exact hi
    · cases hvisit
  | cons visit rest ih =>
    refine inStep_node h (fun _ _ _ => rfl) fun n => ?_
    refine .bind (inStep_enteringState h visit.node state) fun state =>
      .bind (inStep_solve h visit.node state visit.noise false) fun s => ?_
    refine (ih s.outgoing _ _).weaken (hereditary_agree h) subset_rfl fun _ => ?_
    rintro i (hi | ⟨v, hv, rfl⟩)
    · exact .inl (.inr hi)
    · rcases List.mem_cons.1 hv with rfl | hv
      · exact .inl (.inl rfl)
      · exact .inr ⟨v, hv, rfl⟩

/-- Both runs have the same forward pass. -/
theorem inStep_forward :
    InStep (Agree K clock watch settings running running') F S (forward solver)
      fun result => S ∪ visitedBy result.path := by
  refine .bind (inStep_sampleScenario h) fun scenario => .get_bind (fun r r' hr => ?_) fun r => ?_
  · rw [hr.settings_left, hr.settings_right]
  refine .bind (inStep_follow h scenario.path _ _ _) fun result => ?_
  let left : ForwardResult α := ⟨scenario.path, result.1, result.2⟩
  have walked : InStep (Agree K clock watch settings running running') F
      (S ∪ visitedBy left.path) (Pure.pure left) _ :=
    .pure fun result : ForwardResult α => S ∪ visitedBy result.path
  simp only
  split
  · exact .bind (inStep_addStarting h _ _) fun _ => walked
  · exact walked

theorem inStep_refine (index : Datum α) (hindex : index ∈ S) (state : State α)
    (results : List (ChildSolution α)) (probabilities : List α) :
    InStep (Agree K clock watch settings running running') F S
      (refine index state results probabilities)
      fun _ => S := by
  refine .bind (inStep_heed h.hereditary h.refl) fun _ =>
    .bind (.get_bind (fun r r' hr => ?_) fun r =>
    .ofOption (hereditary_agree h) h.refl) fun measure => Parallel.get_bind fun r r' hr => ?_
  · rw [hr.settings_left, hr.settings_right]
  rw [Model.sense_of_declaration_eq (h.declaration hr.session.model)]
  have refined := Parallel.startingAt (h.refine S index hindex r.session.model.sense measure state
    (results.map (·.solution.duals)) probabilities (results.map (·.solution.objective)))
    ⟨hr.session.model, rfl⟩
  have models : Parallel (fun s s' => s = r.session ∧ s' = r'.session) (Session.onModel _)
      (Session.onModel _) _ _ :=
    Parallel.focus refined
  have runs : Parallel (fun s s' => s = r ∧ s' = r') (onSession _) (onSession _) _ _ :=
    Parallel.focus models
  refine runs.consequence (fun _ _ => id) ?_ ?_
  · rintro _ _ _ _ ⟨_, _, rfl, rfl, m, m', rfl, rfl, hm⟩
    exact ⟨rfl, { hr with session := ⟨hm, hr.session.draws, hr.session.times⟩ }⟩
  · rintro e e' _ _ ⟨_, _, rfl, rfl, m, m', rfl, rfl, he, hm⟩
    exact ⟨he, { hr with session := ⟨hm, hr.session.draws, hr.session.times⟩ }⟩

/-- Both runs refine a node on which their models agree, and the nodes that are similar to it. -/
theorem inStep_refineAt (hcovered : settings.Covered S) (index : Datum α) (hindex : index ∈ S)
    (state : State α) :
    InStep (Agree K clock watch settings running running') F S (refineAt solver index state)
      fun _ => S := by
  refine inStep_node h (fun n n' hdecl => ?_) fun n => ?_
  · rw [show n'.children = n.children from congrArg (·.children) hdecl]
  refine .ite (fun _ => .pure fun _ => S) fun _ => ?_
  refine .bind (Session.inStep_solveChildren (hereditary_agree h) h.refl _
    (fun r r' hr => h.declaration hr.session.model) fun child noise =>
      (inStep_solve h child state noise true).forget (hereditary_agree h) (Set.subset_insert _ _))
      fun results => ?_
  refine .bind (inStep_refine h index hindex state results _) fun _ => ?_
  -- the settings of both runs are the given ones, so that the nodes that follow are covered
  intro r r' hr
  refine Parallel.get_bind (P := Agree K clock watch settings running running' S)
    (fun r r' hr => ?_) r r' hr
  rw [hr.settings_left, hr.settings_right]
  refine Parallel.startingAt (InStep.ite (fun hsimilar => ?_) fun _ => .pure fun _ => S) hr
  cases hothers : settings.similar.get? index with
  | none => exact .throw (hereditary_agree h) h.refl
  | some others =>
    exact .forM fun other hother =>
      inStep_refine h other (hcovered hsimilar index others hothers other hother) state results _

/-- Both runs have the same backward pass along nodes on which their models agree. -/
theorem inStep_backward (hcovered : settings.Covered S) (path : List (Visit α))
    (hpath : ∀ visit ∈ path, visit.node ∈ S) (states : List (State α)) :
    InStep (Agree K clock watch settings running running') F S (backward solver path states)
      fun _ => S := by
  refine .forM fun place hplace => .bind (.ofOption (hereditary_agree h) h.refl) fun state => ?_
  refine inStep_refineAt h hcovered _ (hpath _ ?_) state
  exact (List.mem_zipIdx' (List.mem_reverse.1 hplace)).2 ▸ List.getElem_mem _

/-- Both runs compute the same bound. -/
theorem inStep_bound (measure : Measure α) :
    InStep (Agree K clock watch settings running running') F S (bound solver measure)
      fun _ => S := by
  refine .get_bind (fun r r' hr => ?_) fun r => .bind ?_ fun value =>
    .bind (inStep_heed h.hereditary h.refl) fun _ => .pure fun _ => S
  · rw [Model.initial_of_declaration_eq (h.declaration hr.session.model)]
  · exact Session.inStep_boundBy (hereditary_agree h) h.refl measure
      (fun r r' hr => h.declaration hr.session.model) fun child noise =>
        (inStep_attend h child _ noise true).forget (hereditary_agree h) (Set.subset_insert _ _)

end

end Run

namespace Training

variable {solver : Solver α} {K : Set (Datum α) → Model α → Model α → Prop}
  {F : Failure α → Failure α → Prop}
  {clock watch : Timing α} {settings : PassSettings α} {S : Set (Datum α)}
  {logs : List (LogRecord α) × ℕ → List (LogRecord α) × ℕ → Prop}

/-- Training runs that agree, with no section open and with logs and numbers in a relation. -/
structure Agree (K : Set (Datum α) → Model α → Model α → Prop) (clock watch : Timing α)
    (settings : PassSettings α)
    (logs : List (LogRecord α) × ℕ → List (LogRecord α) × ℕ → Prop) (S : Set (Datum α))
    (t t' : Training α) : Prop where
  run : Run.Agree K clock watch settings [] [] S t.run t'.run
  logged : logs t.progress t'.progress

theorem hereditary_agree (h : Model.Lockstep solver K F) :
    Action.Hereditary (Agree K clock watch settings logs) :=
  fun _ _ hS _ _ ht => ⟨Run.hereditary_agree h hS _ _ ht.run, ht.logged⟩

theorem inStep_onRun {β : Type} {act : Action α (Run α) β} {S' : β → Set (Datum α)}
    (hact : InStep (Run.Agree K clock watch settings [] []) F S act S') :
    InStep (Agree K clock watch settings logs) F S (onRun act) S' :=
  .focus hact (fun _ _ ht => ht.run) fun _ _ _ _ _ ht hr => ⟨hr, ht.logged⟩

/-- Both runs compute the same bound after the same passes. -/
theorem inStep_evaluate (h : Model.Lockstep solver K F) (hcovered : settings.Covered S)
    (measure : Measure α) :
    InStep (Agree K clock watch settings logs) F S (evaluate solver measure) fun _ => S := by
  have forth : InStep (Agree K clock watch settings logs) F S
      (onRun (Run.timed .forwardPass (Run.forward solver)))
      fun forward => S ∪ visitedBy forward.path :=
    inStep_onRun (Run.inStep_timed h _ fun _ _ => Run.inStep_forward h)
  refine .bind forth fun forward => ?_
  have covered : settings.Covered (S ∪ visitedBy forward.path) :=
    fun hsimilar index others hothers other hother =>
      .inl (hcovered hsimilar index others hothers other hother)
  refine .bind (inStep_onRun (Run.inStep_timed h _ fun _ _ =>
    Run.inStep_backward h covered forward.path (fun visit hvisit => .inr ⟨visit, hvisit, rfl⟩) _))
      fun _ => ?_
  refine .bind (inStep_onRun (Run.inStep_timed h _ fun _ _ => Run.inStep_bound h measure))
    fun bound => ?_
  exact InStep.weaken (.pure fun _ => S ∪ _) (hereditary_agree h) subset_rfl fun _ =>
    Set.subset_union_left

/-! ### Runs at the same time -/

/-- Training runs at the same time, with the same log, in the same iteration. -/
abbrev Together (K : Set (Datum α) → Model α → Model α → Prop) (settings : PassSettings α) :
    Set (Datum α) → Training α → Training α → Prop :=
  Agree K .same .same settings Eq

section

variable (h : Model.Lockstep solver K F) {options : TrainingOptions α}
  {rules : List (StoppingRule α)}
  {start : Datum α}

/-- Both runs read the same time. -/
theorem inStep_readClock :
    InStep (Together K settings) F S (onRun (Run.onSession Session.readClock)) fun _ => S := by
  have clocks : ∀ s s', Session.Agree K (Run.Times .same .same) S s s' → s'.clock = s.clock :=
    fun _ _ hs => hs.times.1
  refine inStep_onRun
    (Run.inStep_onSession (.get_bind (fun s s' hs => by rw [clocks s s' hs]) fun s =>
    .bind (.modify fun t t' ht => ?_) fun _ => .pure fun _ => S))
  exact ⟨ht.model, ht.draws, rfl, ht.times.2⟩

include h

/-- Both runs log the same iteration. -/
theorem inStep_iteration (hcovered : settings.Covered S) (measure : Measure α) :
    InStep (Together K settings) F S (iteration solver measure start) fun _ => S := by
  rw [iteration_eq]
  refine .bind (inStep_evaluate h hcovered measure) fun result =>
    .bind (inStep_onRun (Run.inStep_heed h.hereditary h.refl)) fun _ =>
      .bind inStep_readClock fun now =>
      .bind (.ofExcept (hereditary_agree h) h.refl) fun time => .modify fun t t' ht => ⟨ht.run, ?_⟩
  have same : t.progress = t'.progress := ht.logged
  obtain ⟨logged, number⟩ := Prod.mk.inj same
  simp only [progress, logged, number]

omit h in
theorem parallel_report {E : Failure α → Failure α → Training α → Training α → Prop}
    (event event' : Event α) :
    Parallel (Together K settings S) (report event) (report event')
      (fun _ _ => Together K settings S) E :=
  .modify fun _ _ ht => ⟨ht.run, ht.logged⟩

theorem inStep_reportIteration :
    InStep (Together K settings) F S (reportIteration options) fun _ => S := by
  refine .ite (fun _ => .get_bind (fun t t' ht => ?_) fun t => ?_) fun _ => .pure fun _ => S
  · rw [show t.log = t'.log from congrArg Prod.fst ht.logged]
  · split
    · refine .bind (.forM fun d _ => .bind (.ofExcept (hereditary_agree h) h.refl) fun _ =>
        .pure fun _ => S) fun _ => ?_
      exact .modify fun _ _ ht => ⟨ht.run, ht.logged⟩
    · exact .pure fun _ => S

/-- Both rounds have the same verdict. -/
theorem inStep_round (hcovered : settings.Covered S) :
    InStep (Together K settings) F S (round solver options rules start) fun _ => S := by
  refine .bind (inStep_iteration h hcovered options.rootMeasure) fun _ =>
    .bind (inStep_onRun (Run.inStep_heed h.hereditary h.refl)) fun _ =>
      .get_bind (fun t t' ht => ?_) fun t => ?_
  · rw [show t.log = t'.log from congrArg Prod.fst ht.logged]
  refine .bind (.ofExcept (hereditary_agree h) h.refl) fun verdict =>
    .bind (inStep_onRun (Run.inStep_heed h.hereditary h.refl)) fun _ =>
      .bind (inStep_reportIteration h) fun _ =>
      .bind (.modify fun t t' ht => ⟨ht.run, ?_⟩) fun _ => .pure fun _ => S
  exact congrArg (fun p : List (LogRecord α) × ℕ => (p.1, p.2 + 1)) ht.logged

/-- Both runs iterate as often, and end with the same status. -/
theorem inStep_iterate (hcovered : settings.Covered S) (budget : ℕ) :
    InStep (Together K settings) F S (iterate solver options rules start budget) fun _ => S := by
  induction budget with
  | zero => exact .throw (hereditary_agree h) h.refl
  | succ budget ih =>
    refine .bind (inStep_round h hcovered) fun verdict => ?_
    cases verdict with
    | some status => exact .pure fun _ => S
    | none => exact ih

variable (hstop : ∀ e e', F e e' → (e = .interrupted ↔ e' = .interrupted))

include hstop

omit h in
/-- The wish to stop becomes the same status in both runs. -/
theorem parallel_settle {act : Action α (Training α) String} {S' : String → Set (Datum α)}
    (hact : InStep (Together K settings) F S act S') (hK : Action.Hereditary K) :
    Parallel (Together K settings S) (settle act) (settle act)
      (fun status status' t t' => status = status' ∧ Together K settings ∅ t t')
      fun e e' t t' => F e e' ∧ Together K settings ∅ t t' := by
  refine .of_cases fun t t' ht => ?_
  cases hrun : act t with
  | ok status u =>
    obtain ⟨_, u', hrun', rfl, hu⟩ := hact.ok ht hrun
    exact .inl ⟨status, status, u, u', settle_eq_ok.2 (.inl hrun), settle_eq_ok.2 (.inl hrun'), rfl,
      { hu with run := { hu.run with session := { hu.run.session with
        model := hK (Set.empty_subset _) _ _ hu.run.session.model } } }⟩
  | error e u =>
    obtain ⟨e', u', hrun', he, hu⟩ := hact.error ht hrun
    by_cases hwish : e = .interrupted
    · have hwish' := (hstop e e' he).1 hwish
      subst hwish hwish'
      exact .inl ⟨interruptedStatus, interruptedStatus, u, u', settle_eq_ok.2 (.inr ⟨hrun, rfl⟩),
        settle_eq_ok.2 (.inr ⟨hrun', rfl⟩), rfl, hu⟩
    · obtain ⟨journal, hsettle⟩ := settle_of_error hrun hwish
      obtain ⟨journal', hsettle'⟩ := settle_of_error hrun' (mt (hstop e e' he).2 hwish)
      exact .inr ⟨e, e', _, _, hsettle, hsettle', he, hu.run, hu.logged⟩

/-- Both runs end with the same status, or fail alike, and log the same. -/
theorem parallel_perform (hcovered : settings.Covered S) (budget : ℕ) :
    Parallel (Together K settings S) (perform solver options rules budget)
      (perform solver options rules budget)
      (fun status status' t t' => status = status' ∧ Together K settings ∅ t t')
      fun e e' t t' => F e e' ∧ Together K settings ∅ t t' := by
  have commenced : InStep (Together K settings) F S (commence options) fun _ => S := by
    refine .ite (fun _ => Parallel.get_bind fun t t' ht => ?_) fun _ => inStep_readClock
    exact Parallel.startingAt
      (.bind (parallel_report _ _) fun _ _ => .bind (parallel_report _ _) fun _ _ =>
      inStep_readClock) ht
  rw [perform_eq]
  refine .bind commenced fun start start' => .of_forall fun t t' ⟨hstart, ht⟩ => ?_
  subst hstart
  refine (Parallel.bind (parallel_settle hstop (inStep_iterate h hcovered budget) h.hereditary)
    fun status status' =>
    ?_).startingAt ht
  refine .of_cases fun u u' ⟨hstatus, hu⟩ => .inl ?_
  subst hstatus
  obtain ⟨journal, hconclude⟩ : ∃ journal, conclude options status u =
      .ok status { u with journal := journal } :=
    exists_conclude _
  obtain ⟨journal', hconclude'⟩ : ∃ journal, conclude options status u' =
      .ok status { u' with journal := journal } :=
    exists_conclude _
  exact ⟨status, status, _, _, hconclude, hconclude', rfl, hu.run, hu.logged⟩

end

end Training

/-! ### Requests -/

/-- A run that starts on a model with the same declaration has the same settings and starting
states. -/
theorem Run.start_of_declaration_eq {session session' : Session α}
    (h : session'.model.declaration = session.model.declaration) (options : TrainingOptions α)
    (scheme : Scheme α) (patience : Option ℕ) :
    Run.start session' { options with scheme := scheme, patience := patience } =
      (Run.start session options).map fun run =>
        { run with session := session', scheme := scheme, patience := patience } := by
  have transitions : transitionMap session'.model.nodes = transitionMap session.model.nodes := by
    rw [← Model.transitionMap_declaration, h, Model.transitionMap_declaration]
  have similar : session'.model.similar = session.model.similar := by
    rw [← Model.similar_declaration, h, Model.similar_declaration]
  have starting : (session'.model.nodes.mapValues fun _ _ => ([] : List (State α))) =
      session.model.nodes.mapValues fun _ _ => [] := by
    have := congrArg (fun m : Model α => m.nodes.mapValues fun _ _ => ([] : List (State α))) h
    simpa only [Model.declaration, Dict.mapValues, List.map_map, Function.comp_def] using this
  unfold Run.start
  simp only [Model.keys_of_declaration_eq h, transitions, similar, starting,
    Model.initial_of_declaration_eq h]
  cases options.measure.resolve session.model.nodes.keys with
  | error e => rfl
  | ok measures => cases options.distance.value <;> rfl

/-- Runs that start on models that agree, with the same draws at the same time, agree. -/
theorem Run.together_start {K : Set (Datum α) → Model α → Model α → Prop} {S : Set (Datum α)}
    {s s' : Session α}
    (hmodel : K S s.model s'.model) (hdraws : s'.draws = s.draws) (hclock : s'.clock = s.clock)
    (hwatch : s'.stopwatch = s.stopwatch) {options : TrainingOptions α} {run : Run α}
    (h : Run.start s options = .ok run) :
    run.settings.refinesSimilar = options.refinesSimilar.truth ∧
    run.settings.similar = s.model.similar ∧
      Training.Together K run.settings S (.ofRun run)
        (.ofRun { run with
          session := s', scheme := options.scheme, patience := options.patience }) := by
  obtain ⟨measures, -, h⟩ := Except.bind_eq_ok.1 h
  obtain ⟨distance, -, h⟩ := Except.bind_eq_ok.1 h
  cases h
  exact ⟨rfl, rfl, ⟨⟨hmodel, hdraws, hclock, hwatch⟩, rfl, rfl, rfl, rfl, rfl, rfl⟩, rfl⟩

/-- Reports with the same status, or of failures in a relation, with the same log, and of models
that agree. -/
structure TrainingReport.Agree (K : Set (Datum α) → Model α → Model α → Prop)
    (F : Failure α → Failure α → Prop) (r r' : TrainingReport α) : Prop where
  outcome : (∃ status, r.outcome = .ok status ∧ r'.outcome = .ok status) ∨
    ∃ e e', r.outcome = .error e ∧ r'.outcome = .error e' ∧ F e e'
  log : r'.log = r.log
  model : K ∅ r.session.model r'.session.model

/-- The reports of runs that begin in agreement agree. -/
theorem Training.agree_perform {solver : Solver α} {K : Set (Datum α) → Model α → Model α → Prop}
    {F : Failure α → Failure α → Prop} {S : Set (Datum α)} (h : Model.Lockstep solver K F)
    (hstop : ∀ e e', F e e' → (e = .interrupted ↔ e' = .interrupted)) {settings : PassSettings α}
    (hcovered : settings.Covered S) {t t' : Training α} (together : Together K settings S t t')
    (options : TrainingOptions α) (rules : List (StoppingRule α)) (budget : ℕ) (lacksRules : Bool) :
    (TrainingReport.ofResult lacksRules (perform solver options rules budget t)).Agree K F
      (.ofResult lacksRules (perform solver options rules budget t')) := by
  have ends : Parallel _ (perform solver options rules budget) _ _ _ :=
    parallel_perform h hstop hcovered budget
  cases hperform : perform solver options rules budget t with
  | ok status u =>
    obtain ⟨_, u', hperform', rfl, hu⟩ := ends.ok together hperform
    rw [hperform']
    exact ⟨.inl ⟨status, rfl, rfl⟩, (congrArg Prod.fst hu.logged).symm, hu.run.session.model⟩
  | error cause u =>
    obtain ⟨cause', u', hperform', hcause, hu⟩ := ends.error together hperform
    rw [hperform']
    exact ⟨.inr ⟨cause, cause', rfl, rfl, hcause⟩, (congrArg Prod.fst hu.logged).symm,
      hu.run.session.model⟩

/-- Training models that agree on the nodes that are refined without being visited ends with the
same status, or fails alike, and logs the same. -/
theorem train_agree {solver : Solver α} {K : Set (Datum α) → Model α → Model α → Prop}
    {F : Failure α → Failure α → Prop} {S : Set (Datum α)} (h : Model.Lockstep solver K F)
    (hstop : ∀ e e', F e e' → (e = .interrupted ↔ e' = .interrupted)) {s s' : Session α}
    (hmodel : K S s.model s'.model) (hdraws : s'.draws = s.draws) (hclock : s'.clock = s.clock)
    (hwatch : s'.stopwatch = s.stopwatch) {request : TrainingRequest α}
    (hcovered : request.options.refinesSimilar.truth = true → ∀ index others,
      s.model.similar.get? index = some others → ∀ other ∈ others, other ∈ S) (budget : ℕ) :
    (train solver budget request s).Agree K F (train solver budget request s') := by
  have refused : ∀ cause lacksRules,
      (TrainingReport.refused s cause lacksRules).Agree K F
      (TrainingReport.refused s' cause lacksRules) :=
    fun cause _ => ⟨.inr ⟨cause, cause, rfl, rfl, h.refl cause⟩, rfl,
      h.hereditary (Set.empty_subset S) _ _ hmodel⟩
  rw [train_eq, train_eq]
  cases hoptions : (do let o ← TrainingOptions.check request; return (o, ← o.allRules) :
      Except (Failure α) (TrainingOptions α × List (StoppingRule α))) with
  | error cause => exact refused cause false
  | ok checked =>
    obtain ⟨options, rules⟩ := checked
    obtain ⟨_, hcheck, hrest⟩ := Except.bind_eq_ok.1 hoptions
    obtain ⟨_, -, hrest⟩ := Except.bind_eq_ok.1 hrest
    cases hrest
    have refines : options.refinesSimilar = request.options.refinesSimilar := by
      obtain ⟨_, _, -, -, rfl⟩ := TrainingOptions.check_eq_ok hcheck
      rfl
    have launched : (do options.requireTimerAndSeed; Run.start s' options) =
        (do options.requireTimerAndSeed; Run.start s options).map fun run : Run α =>
          { run with session := s', scheme := options.scheme, patience := options.patience } := by
      have started := Run.start_of_declaration_eq (h.declaration hmodel) options options.scheme
        options.patience
      cases options.requireTimerAndSeed with
      | error cause => rfl
      | ok _ => exact started
    simp only [launched]
    split
    next cause hstart =>
      rw [hstart]
      exact refused cause _
    next run hstart =>
      rw [hstart]
      obtain ⟨_, -, hrun⟩ := Except.bind_eq_ok.1 hstart
      obtain ⟨hrefines, hsimilar, together⟩ := Run.together_start hmodel hdraws hclock hwatch hrun
      have covered : run.settings.Covered S := by
        unfold PassSettings.Covered
        rw [hrefines, hsimilar, refines]
        exact hcovered
      exact Training.agree_perform h hstop covered together options rules budget rules.isEmpty

end Multistage
