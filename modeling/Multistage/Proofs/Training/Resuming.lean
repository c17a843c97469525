import Multistage.Proofs.Training.Limited
import Multistage.Proofs.Training.Lockstep
import Multistage.Proofs.Linear.Certified

/-!
# Training that is resumed

A run can be stopped after some iterations and gone on with in a second run: the models that both
leave and the values that both log are those of a single run. What a run carries from one iteration
to the next is in the session, but for the scheme and the starting states of its nodes; starting
states are only left by scenarios that were cut short.

## Main definitions

- `Scheme.later`, `TrainingRequest.later`: what comes after some scenarios.
- `Run.Carries`: the scheme, the starting states and the settings of a run.
- `trainScenarios`: the scenarios that a training run samples.
- `TrainingReport.Joins`: a run that does what two runs do one after the other.

## Main statements

- `Run.triple_forward`: a pass along a scenario that is not cut short leaves no starting states.
- `Training.parallel_steps`: the same iterations at other times.
- `train_resumed`: two runs one after the other do what a single run does.
-/

namespace Multistage

open Multistage.Action (Ensures Triple)

variable {α : Type} [Scalar α] {solver : Solver α}

omit [Scalar α] in
/-- The bound and the value of the forward pass. -/
def LogRecord.values (record : LogRecord α) : Datum α × Datum α := (record.bound, record.simulation)

/-! ### Schemes -/

omit [Scalar α] in
/-- The scheme after a number of scenarios. -/
def Scheme.later (n : ℕ) : Scheme α → Scheme α
  | randomWalk depth stopsOnCycle => randomWalk depth stopsOnCycle
  | given scenarios => given (scenarios.drop n)

omit [Scalar α] in
theorem Scheme.later_zero (scheme : Scheme α) : scheme.later 0 = scheme := by
  cases scheme <;> rfl

omit [Scalar α] in
theorem Scheme.later_later (scheme : Scheme α) (m n : ℕ) :
    (scheme.later m).later n = scheme.later (m + n) := by
  cases scheme with
  | randomWalk depth stopsOnCycle => rfl
  | given scenarios => exact congrArg given List.drop_drop

theorem Scheme.sample_eq_ok {m : Model α} {scheme scheme' : Scheme α} {scenario : Scenario α}
    {draws draws' : Draws α} (h : scheme.sample m draws = .ok (scenario, scheme') draws') :
    scheme' = scheme.later 1 := by
  cases scheme with
  | randomWalk depth stopsOnCycle =>
    obtain ⟨walked, _, -, hanswer⟩ := Action.bind_eq_ok.1 h
    cases hanswer
    rfl
  | given scenarios =>
    cases scenarios with
    | nil => cases h
    | cons s rest =>
      cases h
      rfl

/-! ### What a run carries -/

namespace Run

/-- The scenario that the next forward pass follows. -/
def nextScenario (r : Run α) : Except (Failure α) (Scenario α) :=
  ((r.scheme.sample r.session.model).answer r.session.draws).map fun found => found.1.1

/-- The run after the time was read. -/
def afterReading (r : Run α) : Run α :=
  { r with session := { r.session with clock := r.session.clock.read.2 } }

/-- The scheme, the starting states and the settings of a run. -/
structure Carries (scheme : Scheme α) (starting : Dict (Datum α) (List (State α)))
    (settings : PassSettings α) (r : Run α) : Prop where
  scheme : r.scheme = scheme
  starting : r.starting = starting
  settings : r.settings = settings

variable {scheme : Scheme α} {starting : Dict (Datum α) (List (State α))}
  {settings : PassSettings α}

omit [Scalar α] in
theorem carries_onSession {β : Type} (act : Action α (Session α) β) :
    Ensures (Carries scheme starting settings) (onSession act) fun _ => True :=
  .elsewhere act fun _ _ hr => ⟨hr.scheme, hr.starting, hr.settings⟩

omit [Scalar α] in
theorem carries_readStopwatch (note : Datum α → Action α (Timer α) Unit) :
    Ensures (Carries scheme starting settings) (readStopwatch note) fun _ => True :=
  ensures_readStopwatch_of_retimed (fun _ _ _ hr => ⟨hr.scheme, hr.starting, hr.settings⟩) note

theorem carries_timed {β : Type} {act : Action α (Run α) β} (part : RunSection)
    (h : Ensures (Carries scheme starting settings) act fun _ => True) :
    Ensures (Carries scheme starting settings) (timed part act) fun _ => True :=
  ensures_timed_of_retimed (fun _ _ _ hr => ⟨hr.scheme, hr.starting, hr.settings⟩) part h

omit [Scalar α] in
theorem carries_heed : Ensures (Carries scheme starting settings) heed fun _ => True :=
  ensures_heed fun _ _ hr => ⟨hr.scheme, hr.starting, hr.settings⟩

variable (solver) in
theorem carries_attend (index : Datum α) (state : State α) (noise : Datum α) (needsDuals : Bool) :
    Ensures (Carries scheme starting settings) (attend solver index state noise needsDuals)
      fun _ => True :=
  .bind carries_heed fun _ _ => carries_onSession _

variable (solver) in
theorem carries_solve (index : Datum α) (state : State α) (noise : Datum α) (needsDuals : Bool) :
    Ensures (Carries scheme starting settings) (solve solver index state noise needsDuals)
      fun _ => True :=
  carries_timed _ (carries_attend solver index state noise needsDuals)

/-- A walk leaves nodes without starting states as they are. -/
theorem carries_follow (hempty : ∀ index states, starting.get? index = some states → states = [])
    (path : List (Visit α)) (state : State α) (states : List (State α)) (value : α) :
    Ensures (Carries scheme starting settings) (follow solver path state states value)
      fun _ => True := by
  induction path generalizing state states value with
  | nil => exact .pure trivial
  | cons visit rest ih =>
    refine .bind .get fun r _ => .bind (.ofExcept fun _ _ => trivial) fun _ _ => ?_
    refine .bind (R := fun _ => True) ?_ fun state _ => .bind (carries_solve solver _ _ _ _)
      fun s _ => ih _ _ _
    refine .bind (R := fun states => states = []) ?_ fun states hstates => ?_
    · refine .bind .get fun r hr => .ofOption fun states hstates => hempty visit.node states ?_
      rwa [← hr.starting]
    · rw [hstates]
      exact .pure trivial

theorem carries_refine (index : Datum α) (state : State α) (results : List (ChildSolution α))
    (probabilities : List α) :
    Ensures (Carries scheme starting settings) (refine index state results probabilities)
      fun _ => True :=
  .bind carries_heed fun _ _ => .bind (.bind .get fun _ _ => .ofOption fun _ _ => trivial)
    fun _ _ => .bind .get fun _ _ => carries_onSession _

theorem carries_backward (path : List (Visit α)) (states : List (State α)) :
    Ensures (Carries scheme starting settings) (backward solver path states) fun _ => True := by
  refine .forM fun place _ => .bind (.ofOption fun _ _ => trivial) fun state _ => ?_
  refine .bind .get fun r _ => .bind (.ofExcept fun _ _ => trivial) fun n _ => ?_
  refine .ite (fun _ => .pure trivial) fun _ => ?_
  have solved := Session.ensures_solveChildren n.children (·.session.model) (P := fun _ => True)
    (K := Carries scheme starting settings) (fun _ _ _ _ => trivial)
    fun child noise => carries_solve solver child state noise true
  refine .bind solved fun results _ => .bind (carries_refine _ state results _) fun _ _ => ?_
  refine .bind .get fun r _ => .ite (fun _ => ?_) fun _ => .pure trivial
  exact .bind (.ofOption fun _ _ => trivial) fun others _ => .forM fun other _ =>
    carries_refine other state results _

variable {next : Except (Failure α) (Scenario α)}

/-- Taking the time does not change which scenario is the next. -/
theorem carries_next_readStopwatch (note : Datum α → Action α (Timer α) Unit) :
    Ensures (fun r => r.Carries scheme starting settings ∧ r.nextScenario = next)
      (readStopwatch note)
      fun _ => True :=
  ensures_readStopwatch_of_retimed
    (fun _ _ _ hr => ⟨⟨hr.1.scheme, hr.1.starting, hr.1.settings⟩, hr.2⟩) note

/-- What is timed starts from a run with the same next scenario. -/
theorem triple_timed {β : Type} {act : Action α (Run α) β} {Q : β → Prop} {scheme' : Scheme α}
    (part : RunSection)
    (h : Triple (fun r => r.Carries scheme starting settings ∧ r.nextScenario = next) act
      (fun b r => Q b ∧ r.Carries scheme' starting settings) fun _ => True) :
    Triple (fun r => r.Carries scheme starting settings ∧ r.nextScenario = next) (timed part act)
      (fun b r => Q b ∧ r.Carries scheme' starting settings) fun _ => True := by
  refine .bind ((carries_next_readStopwatch _).consequence (fun _ => id) (fun _ _ => And.left)
    fun _ _ => trivial) fun _ => ?_
  refine .tryFinally h (fun b => ?_) (.of_final fun _ _ => trivial) fun _ _ _ => trivial
  exact .of_cases
    (fun r _ r' hr hleave => ⟨⟨hr.1, ((carries_readStopwatch _).ok hr.2 hleave).1⟩, trivial⟩)
    fun r _ r' hr hleave => ⟨hr.1, (carries_readStopwatch _).error hr.2 hleave⟩

/-- The scenario that is sampled is the next one, and the scheme goes on after it. -/
theorem triple_sampleScenario :
    Triple (fun r => r.Carries scheme starting settings ∧ r.nextScenario = next) sampleScenario
      (fun scenario r => next = .ok scenario ∧ r.Carries (scheme.later 1) starting settings)
      fun _ => True := by
  refine triple_timed _ (.of_cases (fun r scenario r' hr hrun => ?_) fun _ _ _ _ _ => trivial)
  obtain ⟨_, _, hheed, hread⟩ := Action.bind_eq_ok.1 hrun
  obtain ⟨patience, rfl⟩ := heed_eq_ok hheed
  obtain ⟨_, _, hget, hrest⟩ := Action.bind_eq_ok.1 hread
  cases hget
  obtain ⟨⟨found, scheme'⟩, v, hsample, hanswer⟩ := Action.bind_eq_ok.1 hrest
  obtain ⟨s, hs, rfl⟩ := Action.focus_eq_ok.1 hsample
  have hs : Session.onDraws (r.scheme.sample r.session.model) r.session = .ok (found, scheme') s :=
    hs
  obtain ⟨draws, hdraws, rfl⟩ := Action.focus_eq_ok.1 hs
  cases hanswer
  have found : r.nextScenario = .ok scenario := by
    unfold nextScenario Action.answer
    rw [hdraws]
    rfl
  refine ⟨hr.2.symm.trans found, ?_, hr.1.starting, hr.1.settings⟩
  rw [← hr.1.scheme]
  exact Scheme.sample_eq_ok hdraws

/-- A forward pass along a scenario that is not cut short leaves no starting states. -/
theorem triple_forward (hempty : ∀ index states, starting.get? index = some states → states = [])
    (hnext : ∀ scenario, next = .ok scenario → scenario.cutShort = false) :
    Triple (fun r => r.Carries scheme starting settings ∧ r.nextScenario = next) (forward solver)
      (fun _ r => (∃ scenario, next = .ok scenario) ∧ r.Carries (scheme.later 1) starting settings)
      fun _ => True := by
  refine .bind triple_sampleScenario fun scenario => .get_bind fun r hr => ?_
  have followed : Ensures (Carries (scheme.later 1) starting settings)
      (follow solver scenario.path r.settings.initial [] 0) fun _ => True :=
      carries_follow hempty _ _ _ _
  refine .bind (Q := fun _ r => r.Carries (scheme.later 1) starting settings) ?_ fun result => ?_
  · exact (followed.startingAt hr.2).consequence (fun _ => id) (fun _ _ => And.left)
      fun _ _ => trivial
  · simp only [hnext scenario hr.1]
    exact .pure fun _ hr' => ⟨⟨scenario, hr.1⟩, hr'⟩

end Run

namespace Training

variable {scheme : Scheme α} {starting : Dict (Datum α) (List (State α))}
  {settings : PassSettings α}
  {options : TrainingOptions α} {rules : List (StoppingRule α)} {start : Datum α} {t u : Training α}

omit [Scalar α] in
theorem carries_onRun {β : Type} {act : Action α (Run α) β}
    (h : Ensures (Run.Carries scheme starting settings) act fun _ => True) :
    Ensures (fun t : Training α => t.run.Carries scheme starting settings) (onRun act)
      fun _ => True :=
  .focus h (fun _ => id) fun _ _ _ => id

/-- An iteration along a scenario that is not cut short leaves no starting states. -/
theorem carries_of_step (ht : t.run.Carries scheme starting settings)
    (hempty : ∀ index states, starting.get? index = some states → states = [])
    (hnext : ∀ scenario, t.run.nextScenario = .ok scenario → scenario.cutShort = false)
    (h : step solver options start t = .ok ⟨⟩ u) :
    (∃ scenario, t.run.nextScenario = .ok scenario) ∧
    u.run.Carries (scheme.later 1) starting settings := by
  obtain ⟨_, w, hiteration, hclose⟩ := Action.bind_eq_ok.1 h
  obtain ⟨forward, v, hforward, hrest⟩ := Action.bind_eq_ok.1 hiteration
  obtain ⟨r, hr, rfl⟩ := Action.focus_eq_ok.1 hforward
  obtain ⟨hsampled, hcarries⟩ := (Run.triple_timed .forwardPass (Run.triple_forward
    hempty hnext)).ok ⟨ht, rfl⟩ hr
  refine ⟨hsampled, ?_⟩
  have kept : ∀ {β : Type} {act : Action α (Training α) β}, Ensures
      (fun t : Training α => t.run.Carries (scheme.later 1) starting settings) act (fun _ => True) →
        ∀ {x y b}, x.run.Carries (scheme.later 1) starting settings → act x = .ok b y →
          y.run.Carries (scheme.later 1) starting settings :=
            fun hact _ _ _ hx hr => (hact.ok hx hr).1
  have passed : w.run.Carries (scheme.later 1) starting settings := by
    refine kept ?_ (x := { t with run := r }) hcarries hrest
    refine .bind (carries_onRun (Run.carries_timed _ (Run.carries_backward _ _))) fun _ _ => ?_
    refine .bind (carries_onRun (Run.carries_timed _ (Run.ensures_bound_of_attend Run.carries_heed
      (fun index state noise => Run.carries_attend solver index state noise true) _))) fun _ _ => ?_
    refine .bind (carries_onRun Run.carries_heed) fun _ _ => ?_
    refine .bind (carries_onRun (Run.carries_onSession _)) fun _ _ => ?_
    exact .bind (.ofExcept (R := fun _ => True) fun _ _ => trivial) fun _ _ => .modify fun _ => id
  refine kept ?_ passed hclose
  refine .bind (carries_onRun Run.carries_heed) fun _ _ => .bind (carries_onRun Run.carries_heed)
    fun _ _ => .bind (R := fun _ => True) ?_ fun _ _ => .modify fun _ => id
  refine .ite (fun _ => .bind .get fun _ _ => ?_) fun _ => .pure trivial
  split
  · refine .bind (.forM fun d _ => ?_) fun _ _ => .modify fun _ => id
    exact (Ensures.ofExcept (R := fun _ => True) fun _ _ => trivial).bind fun _ _ => .pure trivial
  · exact .pure trivial

/-! ### The scenarios of a run -/

variable (solver options rules start) in
/-- The scenarios that the iterations within a budget sample. -/
def scenarios : (budget : ℕ) → Training α → List (Scenario α)
  | 0, _ => []
  | budget + 1, t =>
    match t.run.nextScenario with
    | .error _ => []
    | .ok scenario =>
      scenario :: match round solver options rules start t with
        | .ok none u => scenarios budget u
        | _ => []

/-- Iterations along scenarios that are not cut short leave no starting states. -/
theorem carries_of_steps (hempty : ∀ index states, starting.get? index = some states → states = [])
    {limit n budget : ℕ} (hlimit : limit + 1 = t.number + n) (hbudget : n ≤ budget)
    (hcut : ∀ scenario ∈ scenarios solver options [.iterations limit] start budget t,
      scenario.cutShort = false)
    (ht : t.run.Carries scheme starting settings) (h : steps solver options start n t = .ok ⟨⟩ u) :
    u.run.Carries (scheme.later n) starting settings := by
  induction n generalizing t scheme budget with
  | zero =>
    cases h
    rwa [Scheme.later_zero]
  | succ n ih =>
    obtain ⟨budget, rfl⟩ := Nat.exists_eq_add_one.2 (Nat.zero_lt_of_lt hbudget)
    obtain ⟨_, v, hstep, hrest⟩ := Action.bind_eq_ok.1 h
    have counted : v.number = t.number + 1 := number_of_step hstep
    have first : ∀ scenario, t.run.nextScenario = .ok scenario → scenario.cutShort = false := by
      intro scenario hscenario
      refine hcut scenario ?_
      unfold scenarios
      rw [hscenario]
      exact List.mem_cons_self
    obtain ⟨⟨scenario, hscenario⟩, hv⟩ := carries_of_step ht hempty first hstep
    rw [Nat.add_comm, ← Scheme.later_later]
    cases n with
    | zero =>
      cases hrest
      rwa [Scheme.later_zero]
    | succ n =>
      refine ih ?_ (Nat.le_of_succ_le_succ hbudget) (fun s hs => hcut s ?_) hv hrest
      · omega
      · unfold scenarios
        rw [hscenario, round_of_limit, hstep]
        simp only
        rw [if_neg (by omega)]
        exact List.mem_cons_of_mem _ hs

/-! ### Iterations at other times -/

/-- The second log has the values of an earlier log and then those of the first. -/
def Follows (earlier log log' : List (LogRecord α)) : Prop :=
  log'.map (·.values) = earlier.map (·.values) ++ log.map (·.values)

/-- The last record of the log can be written down. -/
def Reportable (t : Training α) : Prop :=
  ∀ last, t.log.getLast? = some last →
    ∀ d ∈ [last.bound, last.simulation, last.time], ∃ x, d.asNumber = .ok x

/-- An iteration is logged if differences of times are numbers. -/
theorem exists_write (forward : ForwardResult α) (bound : α)
    (hclock : Clock.Measures t.run.session.clock.reading)
    (hstart : ∃ i, start = t.run.session.clock.reading i) :
    ∃ last u, write start forward bound t = .ok ⟨⟩ u ∧ u.run = t.run.afterReading ∧
      u.log = t.log ++ [last] ∧ last.values = (.real bound, .real forward.value) ∧
      u.Reportable := by
  obtain ⟨i, rfl⟩ := hstart
  obtain ⟨time, x, htime, hx⟩ := hclock t.run.session.clock.reads i
  let last : LogRecord α := ⟨.int t.number, .real bound, .real forward.value, time⟩
  let read : Training α := { t with run := t.run.afterReading }
  refine ⟨last, { read with log := t.log ++ [last] }, ?_, rfl, rfl, rfl, ?_⟩
  · refine Action.bind_eq_ok.2 ⟨_, read, rfl, ?_⟩
    exact Action.bind_eq_ok.2 ⟨time, read, Action.ofExcept_eq_ok.2 ⟨htime, rfl⟩, rfl⟩
  · intro record hrecord
    cases (List.getLast?_concat (l := t.log) (a := last)).symm.trans hrecord
    simp only [List.forall_mem_cons]
    exact ⟨⟨bound, rfl⟩, ⟨forward.value, rfl⟩, ⟨x, hx⟩, nofun⟩

/-- A record that can be written down is reported. -/
theorem Reportable.exists_report (h : t.Reportable) (options : TrainingOptions α) :
    ∃ journal, reportIteration options t = .ok ⟨⟩ { t with journal := journal } := by
  have written : ∀ ds : List (Datum α), (∀ d ∈ ds, ∃ x, d.asNumber = .ok x) →
      (forM ds fun d => discard (Action.ofExcept d.asNumber) : Action α (Training α) PUnit) t =
        .ok ⟨⟩ t := by
    intro ds hds
    induction ds with
    | nil => rfl
    | cons d ds ih =>
      obtain ⟨⟨x, hx⟩, hrest⟩ := List.forall_mem_cons.1 hds
      rw [List.forM_cons, Action.bind_of_ok (Action.discard_eq_ok
        (Action.ofExcept_eq_ok.2 ⟨hx, rfl⟩))]
      exact ih hrest
  unfold reportIteration
  split
  · rw [Action.get_bind_eq]
    cases hlast : t.log.getLast? with
    | none => exact ⟨t.journal, rfl⟩
    | some last =>
      refine ⟨t.journal ++ [.iteration last], ?_⟩
      exact Action.bind_eq_ok.2 ⟨⟨⟩, t, written _ (h last hlast), rfl⟩
  · exact ⟨t.journal, rfl⟩

theorem reportable_onRun {β : Type} (act : Action α (Run α) β) :
    Ensures Reportable (onRun act) fun _ => True :=
  .elsewhere act fun _ _ => id

variable {clock clock' watch watch' : ℕ → Datum α} {earlier : List (LogRecord α)}

/-- Two runs on the same model, each with times and numbers of its own. -/
abbrev Apart (clock clock' watch watch' : ℕ → Datum α) (settings : PassSettings α)
    (earlier : List (LogRecord α)) : Set (Datum α) → Training α → Training α → Prop :=
  Agree (fun _ => Eq) (.own clock clock') (.own watch watch') settings
    fun p p' => Follows earlier p.1 p'.1

/-- Neither run is stopped, or both are. -/
theorem parallel_heed :
    Action.Parallel (Apart clock clock' watch watch' settings earlier Set.univ)
      (onRun Run.heed) (onRun Run.heed)
      (fun _ _ => Apart clock clock' watch watch' settings earlier Set.univ)
      fun e e' t t' => e = e' ∧ Apart clock clock' watch watch' settings earlier ∅ t t' :=
  Action.Parallel.consequence (inStep_onRun (Run.inStep_heed (fun _ _ _ _ _ => id) fun _ => rfl))
    (fun _ _ => id) (fun _ _ _ _ => And.right) fun _ _ _ _ => id

/-- Both runs log an iteration with the same values. -/
theorem parallel_write {start' : Datum α} (hstart : ∃ i, start = clock i)
    (hstart' : ∃ i, start' = clock' i) (forward : ForwardResult α) (bound : α)
    {E : Failure α → Failure α → Training α → Training α → Prop} :
    Action.Parallel (Apart clock clock' watch watch' settings earlier Set.univ)
      (write start forward bound) (write start' forward bound)
      (fun _ _ t t' => Apart clock clock' watch watch' settings earlier Set.univ t t' ∧
        t.Reportable ∧ t'.Reportable) E := by
  refine .of_cases fun t t' ht => .inl ?_
  obtain ⟨⟨hmeasures, hreading⟩, hmeasures', hreading'⟩ := ht.run.session.times.1
  obtain ⟨last, u, hwrite, hrun, hlog, hvalues, hreport⟩ :=
    exists_write forward bound (hreading.symm ▸ hmeasures) (hreading.symm ▸ hstart)
  obtain ⟨last', u', hwrite', hrun', hlog', hvalues', hreport'⟩ :=
    exists_write forward bound (hreading'.symm ▸ hmeasures') (hreading'.symm ▸ hstart')
  refine ⟨⟨⟩, ⟨⟩, u, u', hwrite, hwrite', ⟨?_, ?_⟩, hreport, hreport'⟩
  · rw [hrun, hrun']
    exact { ht.run with session := { ht.run.session with
      times := ⟨ht.run.session.times.1.next.2, ht.run.session.times.2⟩ } }
  · have logged : Follows earlier t.log t'.log := ht.logged
    show Follows earlier u.log u'.log
    unfold Follows at logged ⊢
    rw [hlog, hlog', List.map_append, List.map_append, logged, List.append_assoc,
      List.map_singleton,
      List.map_singleton, hvalues, hvalues']

/-- Looking up is no record: what can be reported before can be reported after. -/
theorem parallel_heed_of_reportable :
    Action.Parallel (fun t t' => Apart clock clock' watch watch' settings earlier Set.univ t t' ∧
        t.Reportable ∧ t'.Reportable) (onRun Run.heed) (onRun Run.heed)
      (fun _ _ t t' => Apart clock clock' watch watch' settings earlier Set.univ t t' ∧
        t.Reportable ∧ t'.Reportable)
      fun e e' t t' => e = e' ∧ Apart clock clock' watch watch' settings earlier ∅ t t' := by
  have keeps : Triple Reportable (onRun (Run.heed (α := α))) (fun _ => Reportable) Reportable :=
    (reportable_onRun Run.heed).consequence (fun _ => id) (fun _ _ => And.left) fun _ => id
  exact (parallel_heed.and keeps keeps).consequence (fun _ _ => id) (fun _ _ _ _ => id)
    fun _ _ _ _ h => h.1

/-- Both runs close an iteration, or both are stopped. -/
theorem parallel_close (options : TrainingOptions α) :
    Action.Parallel (fun t t' => Apart clock clock' watch watch' settings earlier Set.univ t t' ∧
        t.Reportable ∧ t'.Reportable) (close options) (close options)
      (fun _ _ => Apart clock clock' watch watch' settings earlier Set.univ)
      fun e e' t t' => e = e' ∧ Apart clock clock' watch watch' settings earlier ∅ t t' := by
  refine .bind parallel_heed_of_reportable fun _ _ => .bind parallel_heed_of_reportable fun _ _ =>
    .of_cases fun t t' ⟨ht, h, h'⟩ => .inl ?_
  obtain ⟨journal, hreport⟩ := h.exists_report options
  obtain ⟨journal', hreport'⟩ := h'.exists_report options
  exact ⟨⟨⟩, ⟨⟩, _, _, Action.bind_eq_ok.2 ⟨⟨⟩, _, hreport, rfl⟩,
    Action.bind_eq_ok.2 ⟨⟨⟩, _, hreport', rfl⟩, ht.run, ht.logged⟩

/-- The same iteration at other times computes the same bound and fails for the same cause. -/
theorem parallel_step {start' : Datum α} (hstart : ∃ i, start = clock i)
    (hstart' : ∃ i, start' = clock' i) :
    Action.Parallel (Apart clock clock' watch watch' settings earlier Set.univ)
      (step solver options start) (step solver options start')
      (fun _ _ => Apart clock clock' watch watch' settings earlier Set.univ)
      fun e e' t t' => e = e' ∧ Apart clock clock' watch watch' settings earlier ∅ t t' := by
  have split : ∀ start, step solver options start =
      evaluate solver options.rootMeasure >>= fun result => onRun Run.heed >>= fun _ =>
        write start result.1 result.2 >>= fun _ => close options := fun start => by
    unfold step
    simp only [iteration_eq, record, bind_assoc]
  have covered : settings.Covered (Set.univ : Set (Datum α)) := fun _ _ _ _ _ _ => trivial
  rw [split, split]
  refine .bind (inStep_evaluate (Model.lockstep_eq solver) covered options.rootMeasure)
    fun b b' => .of_forall fun t t' h => ?_
  obtain ⟨rfl, ht⟩ := h
  refine Action.Parallel.startingAt ?_ ht
  exact .bind parallel_heed fun _ _ => .bind (parallel_write hstart hstart' b.1 b.2) fun _ _ =>
    parallel_close options

variable (solver options settings watch watch' earlier) in
theorem parallel_steps {start' : Datum α} (hstart : ∃ i, start = clock i)
    (hstart' : ∃ i, start' = clock' i) (n : ℕ) :
    Action.Parallel (Apart clock clock' watch watch' settings earlier Set.univ)
      (steps solver options start n)
      (steps solver options start' n)
      (fun _ _ => Apart clock clock' watch watch' settings earlier Set.univ)
      fun e e' t t' => e = e' ∧ Apart clock clock' watch watch' settings earlier ∅ t t' := by
  induction n with
  | zero => exact .pure fun _ _ => id
  | succ n ih => exact .bind (parallel_step hstart hstart') fun _ _ => ih

/-- A run is announced and the clock is read; nothing else changes. -/
theorem exists_commence (options : TrainingOptions α) (t : Training α) :
    ∃ journal, commence options t = .ok (t.run.session.clock.reading t.run.session.clock.reads)
      { t with run := t.run.afterReading, journal := journal } := by
  unfold commence
  split
  · exact ⟨_, rfl⟩
  · exact ⟨_, rfl⟩

end Training

/-! ### Runs one after the other -/

/-- The request of a run that goes on after a number of iterations, while the user has the patience
that is left. -/
def TrainingRequest.later (request : TrainingRequest α) (n : ℕ) (patience : Option ℕ) :
    TrainingRequest α :=
  { request with
    options := { request.options with patience := patience }
    scheme := request.scheme.map id (Scheme.later n) }

theorem TrainingRequest.check_later (request : TrainingRequest α) (n : ℕ) (patience : Option ℕ) :
    TrainingOptions.check (request.later n patience) =
      (TrainingOptions.check request).map fun o =>
        { o with scheme := o.scheme.later n, patience := patience } := by
  unfold TrainingOptions.check
  show (if !request.unknown.isEmpty then _ else _) =
    Except.map _ (if !request.unknown.isEmpty then _ else _)
  cases request.unknown.isEmpty with
  | false => rfl
  | true =>
    refine Except.bind_image (h := id) (congrFun Except.map_id _).symm fun _ _ => ?_
    refine Except.bind_image (h := id) (congrFun Except.map_id _).symm fun _ _ => ?_
    refine Except.bind_image (h := id) (congrFun Except.map_id _).symm fun _ _ => ?_
    refine Except.bind_image (h := id) (congrFun Except.map_id _).symm fun _ _ => ?_
    refine Except.bind_image (h := Scheme.later n) ?_ fun scheme _ => ?_
    · have same : (request.later n patience).scheme = request.scheme.map id (Scheme.later n) := rfl
      rw [same]
      cases request.scheme with
      | inl d => rfl
      | inr s => rfl
    · exact Except.bind_image (h := id) (congrFun Except.map_id _).symm fun _ _ => rfl

/-- A later run on a model with the same declaration is launched alike. -/
theorem TrainingRequest.launch_later {request : TrainingRequest α} {session session' : Session α}
    {options : TrainingOptions α} {run : Run α} (h : request.launch session = .ok (options, run))
    (hdecl : session'.model.declaration = session.model.declaration) (n : ℕ)
    (patience : Option ℕ) :
    (request.later n patience).launch session' =
      .ok ({ options with scheme := options.scheme.later n, patience := patience },
        { run with
          session := session', scheme := options.scheme.later n, patience := patience }) := by
  obtain ⟨_, hcheck, hrest⟩ := Except.bind_eq_ok.1 h
  obtain ⟨_, hseed, hrest⟩ := Except.bind_eq_ok.1 hrest
  obtain ⟨_, hstart, hrest⟩ := Except.bind_eq_ok.1 hrest
  cases hrest
  have checked : TrainingOptions.check ((request.later n patience).withLimit .null) =
      .ok { options with scheme := options.scheme.later n, patience := patience } := by
    rw [show (request.later n patience).withLimit .null =
        (request.withLimit .null).later n patience from rfl,
      TrainingRequest.check_later, hcheck]
    rfl
  exact Except.bind_eq_ok.2 ⟨_, checked, Except.bind_eq_ok.2 ⟨⟨⟩, hseed, Except.bind_eq_ok.2
    ⟨_, (Run.start_of_declaration_eq hdecl options _ _).trans (by rw [hstart]; rfl), rfl⟩⟩⟩

variable (solver) in
/-- The scenarios that a training run samples. -/
def trainScenarios (budget : ℕ) (request : TrainingRequest α) (session : Session α) :
    List (Scenario α) :=
  match (do let o ← TrainingOptions.check request; return (o, ← o.allRules)) with
  | .error _ => []
  | .ok (options, rules) =>
    match (do options.requireTimerAndSeed; Run.start session options) with
    | .error _ => []
    | .ok run =>
      match Training.commence options (.ofRun run) with
      | .error _ _ => []
      | .ok start t => Training.scenarios solver options rules start budget t

variable (solver) in
theorem trainScenarios_withLimit {request : TrainingRequest α} {session : Session α}
    {options : TrainingOptions α}
    {run : Run α} {start : Datum α} {t : Training α} {limit : ℕ} (hlimit : 1 ≤ limit) (budget : ℕ)
    (h : request.launch session = .ok (options, run))
    (hstart : Training.commence options (.ofRun run) = .ok start t) :
    trainScenarios solver budget (request.withLimit (.int limit)) session =
      Training.scenarios solver { options with iterationLimit := .int limit }
        [.iterations limit] start budget t := by
  obtain ⟨_, hcheck, hrest⟩ := Except.bind_eq_ok.1 h
  obtain ⟨_, hseed, hrest⟩ := Except.bind_eq_ok.1 hrest
  obtain ⟨_, hrun, hrest⟩ := Except.bind_eq_ok.1 hrest
  cases hrest
  have checked :
      (do let o ← TrainingOptions.check (request.withLimit (.int limit)); return (o, ← o.allRules) :
      Except (Failure α) (TrainingOptions α × List (StoppingRule α))) =
        .ok ({ options with iterationLimit := .int limit }, [.iterations limit]) := by
    rw [request.check_withLimit hlimit, hcheck]
    exact Except.bind_eq_ok.2
      ⟨_, rfl, Except.bind_eq_ok.2 ⟨_, request.allRules_withLimit hcheck hlimit, rfl⟩⟩
  have started : (do
      TrainingOptions.requireTimerAndSeed { options with iterationLimit := .int limit }
      Run.start session { options with iterationLimit := .int limit }) = .ok run :=
    Except.bind_eq_ok.2 ⟨_, hseed, hrun⟩
  have commenced : Training.commence { options with iterationLimit := .int limit } (.ofRun run) =
      .ok start t :=
    hstart
  unfold trainScenarios
  rw [checked]
  simp only
  rw [started]
  simp only
  rw [commenced]

/-- A run ends as the second of two runs does, leaves the same model and the same draws, and logs
the values that they log. -/
structure TrainingReport.Joins (whole first second : TrainingReport α) : Prop where
  outcome : whole.outcome = second.outcome
  model : whole.session.model = second.session.model
  draws : whole.session.draws = second.session.draws
  logged : Training.Follows first.log second.log whole.log

/-- What a launched run starts with. -/
theorem TrainingRequest.launch_eq_ok {request : TrainingRequest α} {session : Session α}
    {options : TrainingOptions α} {run : Run α} (h : request.launch session = .ok (options, run)) :
    run.session = session ∧ run.scheme = options.scheme ∧ run.timer = Timer.empty ∧
      ∀ index states, run.starting.get? index = some states → states = [] := by
  obtain ⟨_, -, hrest⟩ := Except.bind_eq_ok.1 h
  obtain ⟨_, -, hrest⟩ := Except.bind_eq_ok.1 hrest
  obtain ⟨_, hstart, hrest⟩ := Except.bind_eq_ok.1 hrest
  cases hrest
  obtain ⟨measures, -, hrest⟩ := Except.bind_eq_ok.1 hstart
  obtain ⟨distance, -, hrest⟩ := Except.bind_eq_ok.1 hrest
  cases hrest
  refine ⟨rfl, rfl, rfl, fun index states hstates => ?_⟩
  rw [Dict.get?_mapValues] at hstates
  obtain ⟨n, -, rfl⟩ := Option.map_eq_some_iff.1 hstates
  rfl

/-- A run whose scenarios were not cut short agrees with the one that is launched after it. -/
theorem Training.apart_of_steps {request : TrainingRequest α} {session : Session α}
    {options : TrainingOptions α}
    {run : Run α} {journal : List (Event α)} (journal' : List (Event α)) {u : Training α} {a n : ℕ}
    (hlaunch : request.launch session = .ok (options, run))
    (hclock : Clock.Measures session.clock.reading)
    (hwatch : Clock.Measures session.stopwatch.reading) (hn : a ≤ n)
    (hcut : ∀ scenario ∈ scenarios solver { options with iterationLimit := .int a } [.iterations a]
      (session.clock.reading session.clock.reads) n ⟨run.afterReading, 1, [], journal⟩,
      scenario.cutShort = false)
    (h : steps solver options (session.clock.reading session.clock.reads) a
      ⟨run.afterReading, 1, [], journal⟩ = .ok ⟨⟩ u) :
    Apart session.clock.reading session.clock.reading session.stopwatch.reading
      session.stopwatch.reading
      run.settings u.log Set.univ
      ⟨Run.afterReading { run with
          session := u.run.session, scheme := options.scheme.later a, patience := u.run.patience },
        1, [], journal'⟩ u := by
  obtain ⟨rfl, hscheme, htimer, hempty⟩ := TrainingRequest.launch_eq_ok hlaunch
  have running : run.timer.running = [] := by
    rw [htimer]
    rfl
  -- the first run compared with itself keeps its clocks and closes its sections
  have itself :
      Apart run.session.clock.reading run.session.clock.reading run.session.stopwatch.reading
      run.session.stopwatch.reading run.settings [] Set.univ ⟨run.afterReading, 1, [], journal⟩
      ⟨run.afterReading, 1, [], journal⟩ :=
    ⟨⟨⟨rfl, rfl, ⟨⟨hclock, rfl⟩, hclock, rfl⟩, ⟨hwatch, rfl⟩, hwatch, rfl⟩, rfl, rfl, rfl, rfl,
      ⟨running, running⟩, rfl⟩, rfl⟩
  obtain ⟨_, u', hu', hu⟩ :=
    (parallel_steps solver _ options _ _ [] ⟨_, rfl⟩ ⟨_, rfl⟩ a).ok itself h
  cases h.symm.trans hu'
  have carried : u.run.Carries (run.scheme.later a) run.starting run.settings := by
    refine carries_of_steps hempty (Nat.add_comm a 1) hn hcut ⟨rfl, rfl, rfl⟩ ?_
    rw [steps_congr solver options _ { options with iterationLimit := .int a } rfl rfl]
    exact h
  have clock := hu.run.session.times.1.1.2
  have watch := hu.run.session.times.2.1.2
  refine ⟨⟨⟨rfl, rfl, ⟨⟨hclock, clock⟩, hclock, clock⟩, ⟨hwatch, watch⟩, hwatch, watch⟩, rfl,
    carried.settings, ?_,
    carried.starting, ⟨running, hu.run.timer.1⟩, rfl⟩, ?_⟩
  · rw [carried.scheme, hscheme]
    rfl
  · exact (List.append_nil _).symm

/-- A run that goes on with the iterations of a first run joins it with the run that does them
later. -/
theorem TrainingReport.joins_of_apart {options options' : TrainingOptions α}
    {start start' : Datum α} {t t' t₁ t₂ u : Training α} {a b : ℕ} {first : TrainingReport α}
    {clock clock' watch watch' : ℕ → Datum α}
    {settings : PassSettings α} (hstart : Training.commence options t = .ok start t₁)
    (hfirst : Training.steps solver options start a t₁ = .ok ⟨⟩ u)
    (hstart' : Training.commence options' t' = .ok start' t₂)
    (hmeasure : options'.measure = options.measure)
    (hverbosity : options'.verbosity = options.verbosity)
    (h : Training.Apart clock clock' watch watch' settings u.log Set.univ t₂ u)
    (hi : ∃ i, start = clock' i) (hi' : ∃ i, start' = clock i) (hlog : first.log = u.log) :
    (ofResult false (Training.performSteps solver options (a + b) t)).Joins first
      (ofResult false (Training.performSteps solver options' b t')) := by
  have rest := Training.parallel_steps solver settings options watch watch' u.log hi' hi b
  have same : Training.steps solver options' start' b t₂ =
      Training.steps solver options start' b t₂ := by
    rw [Training.steps_congr solver options start' options' hmeasure hverbosity]
  cases hsecond : Training.steps solver options start' b t₂ with
  | ok _ v₂ =>
    obtain ⟨_, v, hv, hagree⟩ := rest.ok h hsecond
    have whole : Training.steps solver options start (a + b) t₁ = .ok ⟨⟩ v := by
      rw [Training.steps_add]
      exact Action.bind_eq_ok.2 ⟨_, u, hfirst, hv⟩
    obtain ⟨journal, performed⟩ := Training.performSteps_eq_ok hstart whole
    obtain ⟨journal', performed'⟩ := Training.performSteps_eq_ok hstart' (same.trans hsecond)
    rw [performed, performed']
    exact ⟨rfl, hagree.run.session.model.symm, hagree.run.session.draws, hlog ▸ hagree.logged⟩
  | error e v₂ =>
    obtain ⟨_, v, hv, rfl, hagree⟩ := rest.error h hsecond
    have whole : Training.steps solver options start (a + b) t₁ = .error e v := by
      rw [Training.steps_add]
      exact Action.bind_eq_error.2 (.inr ⟨_, u, hfirst, hv⟩)
    obtain ⟨outcome, session, log⟩ := ofResult_of_error solver hstart whole
    obtain ⟨outcome', session', log'⟩ := ofResult_of_error solver hstart' (same.trans hsecond)
    refine ⟨outcome.trans outcome'.symm, ?_, ?_, ?_⟩
    · rw [session, session']
      exact hagree.run.session.model.symm
    · rw [session, session']
      exact hagree.run.session.draws
    · rw [log, log', hlog]
      exact hagree.logged

/-- Let differences of times be numbers. If no scenario of a run with a limit on its iterations is
cut short, it can be gone on with in a second run: when the first run comes to its limit, both
together do what a single run does with the sum of the limits; otherwise the single run does what
the first one does. -/
theorem train_resumed (solver : Solver α) (request : TrainingRequest α) (session : Session α)
    {a b n₁ n₂ n : ℕ} (ha : 1 ≤ a) (hb : 1 ≤ b) (hn₁ : a ≤ n₁) (hn₂ : b ≤ n₂) (hn : a + b ≤ n)
    (hclock : Clock.Measures session.clock.reading)
    (hwatch : Clock.Measures session.stopwatch.reading)
    (hcut : ∀ scenario ∈ trainScenarios solver n₁ (request.withLimit (.int a)) session,
      scenario.cutShort = false) :
    let first := train solver n₁ (request.withLimit (.int a)) session
    let second :=
      train solver n₂ ((request.later a first.patience).withLimit (.int b)) first.session
    let whole := train solver n (request.withLimit (.int (a + b : ℕ))) session
    (first.outcome = .ok "iteration_limit" → whole.Joins first second) ∧
      (first.outcome ≠ .ok "iteration_limit" → whole = first) := by
  intro first second whole
  have firstRun : first = _ := train_withLimit solver request session ha hn₁
  have wholeRun : whole = _ := train_withLimit solver request session (by omega) hn
  have declared : first.session.model.declaration = session.model.declaration :=
    Session.declaration_afterAll session [.train n₁ (request.withLimit (.int a))]
  cases hlaunch : request.launch session with
  | error cause =>
    rw [hlaunch] at firstRun wholeRun
    refine ⟨fun h => ?_, fun _ => wholeRun.trans firstRun.symm⟩
    rw [firstRun] at h
    cases h
  | ok launched =>
    obtain ⟨options, run⟩ := launched
    rw [hlaunch] at firstRun wholeRun
    simp only at firstRun wholeRun
    obtain ⟨rfl, -⟩ := TrainingRequest.launch_eq_ok hlaunch
    obtain ⟨journal, hstart⟩ := Training.exists_commence options (.ofRun run)
    rw [trainScenarios_withLimit solver ha n₁ hlaunch hstart] at hcut
    cases hfirst : Training.steps solver options
      (run.session.clock.reading run.session.clock.reads) a
        ⟨run.afterReading, 1, [], journal⟩ with
    | error e u =>
      have failed :
          Training.steps solver options (run.session.clock.reading run.session.clock.reads) (a + b)
          ⟨run.afterReading, 1, [], journal⟩ = .error e u := by
        rw [Training.steps_add]
        exact Action.bind_eq_error.2 (.inl hfirst)
      have same : whole = first := by
        rw [wholeRun, firstRun, Training.performSteps_of_error hstart failed,
          Training.performSteps_of_error hstart hfirst]
      refine ⟨fun h => absurd h ?_, fun _ => same⟩
      rw [firstRun, (TrainingReport.ofResult_of_error solver hstart hfirst).1]
      exact e.outcome_ne_limit
    | ok _ u =>
      obtain ⟨journal₁, performed⟩ := Training.performSteps_eq_ok hstart hfirst
      rw [performed] at firstRun
      rw [firstRun] at declared
      have declared : u.run.session.model.declaration = run.session.model.declaration := declared
      refine ⟨fun _ => ?_, fun h => absurd (by rw [firstRun]; rfl) h⟩
      have secondRun : second = _ :=
        train_withLimit solver (request.later a first.patience) first.session hb hn₂
      rw [show first.session = u.run.session by rw [firstRun]; rfl,
        show first.patience = u.run.patience by rw [firstRun]; rfl,
        TrainingRequest.launch_later hlaunch declared a] at secondRun
      obtain ⟨journal₂, hstart₂⟩ := Training.exists_commence
        { options with scheme := options.scheme.later a, patience := u.run.patience }
        (.ofRun { run with
          session := u.run.session, scheme := options.scheme.later a, patience := u.run.patience })
      have apart := Training.apart_of_steps journal₂ hlaunch hclock hwatch hn₁ hcut hfirst
      have clock : u.run.session.clock.reading = run.session.clock.reading :=
        apart.run.session.times.1.2.2
      rw [wholeRun, secondRun]
      exact TrainingReport.joins_of_apart hstart hfirst hstart₂ rfl rfl apart ⟨_, rfl⟩
        ⟨u.run.session.clock.reads, congrFun clock _⟩ (by rw [firstRun]; rfl)

/-- Training on two stages that cost ten and eleven, one iteration and then another: together the
runs do what a run of two iterations does. -/
theorem resumed_of_two_stages :
    ∃ (graph : Graph ℚ) (m : Model ℚ),
      Graph.ofEdges (.int 0) [.int 1, .int 2]
        [(.int 0, .int 1, .real 1), (.int 1, .int 2, .real 1)] [] = .ok graph ∧
      Model.build graph ⟨.finite 0, .posInf, 0⟩ (.text "min")
        ⟨[([.int 2], carrying 11)], carrying 10⟩ = .ok m ∧
      (let request : TrainingRequest ℚ := { options := .standard }
      let session : Session ℚ :=
        ⟨m, List.replicate 8 0, .ofReadings fun n => .int n, .ofReadings fun n => .int n⟩
      let first := train carryingSolver 1 (request.withLimit (.int (1 : ℕ))) session
      first.outcome = .ok "iteration_limit" ∧
        (train carryingSolver 2 (request.withLimit (.int (1 + 1 : ℕ))) session).Joins first
          (train carryingSolver 1 ((request.later 1 first.patience).withLimit (.int (1 : ℕ)))
            first.session)) := by
  let request : TrainingRequest ℚ := { options := .standard }
  let start (m : Model ℚ) : Session ℚ :=
    ⟨m, List.replicate 8 0, .ofReadings fun n => .int n, .ofReadings fun n => .int n⟩
  have check : (do
      let graph ← Graph.ofEdges (.int 0) [.int 1, .int 2]
        [(.int 0, .int 1, .real 1), (.int 1, .int 2, .real 1)] []
      let m ← Model.build graph ⟨.finite 0, .posInf, 0⟩ (.text "min")
        ⟨[([.int 2], carrying 11)], carrying 10⟩
      let status ← (train carryingSolver 1 (request.withLimit (.int (1 : ℕ))) (start m)).outcome
      if status = "iteration_limit" ∧ ∀ scenario ∈
          trainScenarios carryingSolver 1 (request.withLimit (.int (1 : ℕ))) (start m),
          scenario.cutShort = false then
        return ()
      else .error .missingKey : Except (Failure ℚ) Unit).toBool = true := by
    decide +kernel
  simp only [Except.toBool_bind, Except.toBool_ite] at check
  obtain ⟨graph, hgraph, m, hm, status, hstatus, rfl, hcut⟩ := check
  have measures : Clock.Measures fun n => (.int n : Datum ℚ) :=
    fun i j => ⟨.int (i - j), _, rfl, rfl⟩
  have resumed :=
    train_resumed carryingSolver request (start m) le_rfl le_rfl le_rfl le_rfl le_rfl measures
    measures hcut
  exact ⟨graph, m, hgraph, hm, hstatus, resumed.1 hstatus⟩

end Multistage
