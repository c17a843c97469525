import Multistage.Proofs.Training.Mirror
import Multistage.Proofs.Training.Keeping
import Multistage.Proofs.Training.Passes

/-!
# Training of the other sense

Training a model of the other sense goes through the same scenarios and states, ends for the same
reason, and logs the negative bounds and values at the same times.

## Main definitions

- `LogRecord.mirror`, `Training.mirror`, `TrainingReport.mirror`: a training run of the other sense.

## Main statements

- `StoppingRule.converged_mirror`: the stopping rules other than custom ones decide in the same way.
- `train_mirror`, `trainPasses_mirror`: training and its forward passes.
-/

namespace Multistage

open Multistage.Action (Ensures Mirrors Twin)

/-! ### Stopping rules -/

/-- The record with negative bound and simulation value. -/
def LogRecord.mirror (r : LogRecord ℚ) : LogRecord ℚ :=
  { r with bound := r.bound.negated, simulation := r.simulation.negated }

namespace Datum

theorem integer?_negated (d : Datum ℚ) : d.negated.integer? = d.integer?.map (-·) := by
  cases d <;> rfl

theorem isNumeric_negated (d : Datum ℚ) : d.negated.isNumeric = d.isNumeric := by
  cases d <;> rfl

theorem asNumber_negated (d : Datum ℚ) : d.negated.asNumber = d.asNumber.map (-·) := by
  cases hd : d.neg with
  | ok d' =>
    obtain ⟨-, -, x, -, hx, -, hx'⟩ := neg_eq_ok hd
    simp only [negated, hd, hx, hx']
    rfl
  | error e =>
    simp only [negated, hd]
    cases d <;> first | rfl | cases hd

/-- Negative numbers are as far from each other as the numbers. -/
theorem abs_sub_negated (a b : Datum ℚ) :
    (a.negated.sub b.negated >>= abs) = (a.sub b >>= abs : Except (Failure ℚ) (Datum ℚ)) := by
  have scalars : ∀ x y : Except (Failure ℚ) ℚ,
      ((x.map (-·) >>= fun u => y.map (-·) >>= fun v => .ok (real (u - v))) >>= abs) =
        ((x >>= fun u => y >>= fun v => .ok (real (u - v))) >>= abs) := by
    intro x y
    cases x with
    | error e => rfl
    | ok x =>
      cases y with
      | error e => rfl
      | ok y =>
        have gap : Scalar.abs (-x - -y) = Scalar.abs (x - y) := by
          rw [Scalar.abs_rat, Scalar.abs_rat, neg_sub_neg, abs_sub_comm]
        exact congrArg (fun z : ℚ => Except.ok (real z)) gap
  have numbers : ((if a.isNumeric && b.isNumeric then a.asNumber.map (-·) >>= fun u =>
        b.asNumber.map (-·) >>= fun v => .ok (real (u - v)) else .error .wrongKind) >>= abs) =
      ((if a.isNumeric && b.isNumeric then a.asNumber >>= fun u =>
        b.asNumber >>= fun v => .ok (real (u - v)) else .error .wrongKind) >>= abs :
          Except (Failure ℚ) (Datum ℚ)) := by
    split
    · exact scalars _ _
    · rfl
  unfold sub combine
  simp only [integer?_negated, isNumeric_negated, asNumber_negated]
  cases a.integer? with
  | none => exact numbers
  | some m =>
    cases b.integer? with
    | none => exact numbers
    | some n =>
      have gap : (-m - -n).natAbs = (m - n).natAbs := by omega
      exact congrArg (fun k : ℕ => Except.ok (int k)) gap

end Datum

namespace StoppingRule

/-- The rule is a limit on the iterations or on the time, or waits for the bound to stall. -/
def IsStandard : StoppingRule ℚ → Prop
  | custom _ _ => False
  | _ => True

theorem steady_mirror (tolerance : ℚ) :
    ∀ log : List (LogRecord ℚ), steady tolerance (log.map LogRecord.mirror) = steady tolerance log
  | [] => rfl
  | [_] => rfl
  | a :: b :: rest => by
    have moved := Datum.abs_sub_negated b.bound a.bound
    have unfolded : ∀ (a b : LogRecord ℚ) rest, steady tolerance (a :: b :: rest) =
        (b.bound.sub a.bound >>= Datum.abs) >>= fun d => d.atMost (.real tolerance) >>= fun still =>
          if still then steady tolerance (b :: rest) else .ok false := fun a b rest => by
      rw [steady]
      cases b.bound.sub a.bound <;> rfl
    rw [List.map_cons, List.map_cons, unfolded, unfolded, ← List.map_cons,
      steady_mirror tolerance (b :: rest)]
    exact congrArg (· >>= _) moved

/-- Rules other than custom ones decide in the same way. -/
theorem converged_mirror {rule : StoppingRule ℚ} (h : rule.IsStandard) (log : List (LogRecord ℚ)) :
    rule.converged (log.map LogRecord.mirror) = rule.converged log := by
  have last : (log.map LogRecord.mirror).getLast? = log.getLast?.map LogRecord.mirror :=
    List.getLast?_map
  cases rule with
  | iterations limit =>
    unfold converged
    rw [last]
    cases log.getLast? <;> rfl
  | time limit =>
    unfold converged
    rw [last]
    cases log.getLast? <;> rfl
  | stalling count tolerance =>
    unfold converged
    simp only [List.length_map, ← List.map_drop, steady_mirror]
  | custom status test => exact h.elim

end StoppingRule

theorem firstConverged_mirror {rules : List (StoppingRule ℚ)} (h : ∀ rule ∈ rules, rule.IsStandard)
    (log : List (LogRecord ℚ)) :
    firstConverged (log.map LogRecord.mirror) rules = firstConverged log rules := by
  induction rules with
  | nil => rfl
  | cons rule rest ih =>
    unfold firstConverged
    rw [StoppingRule.converged_mirror (h rule List.mem_cons_self),
      ih fun r hr => h r (List.mem_cons_of_mem _ hr)]

/-! ### Iterations -/

/-- The event of the other sense. -/
def Event.mirror : Event ℚ → Event ℚ
  | .iteration record => .iteration record.mirror
  | event => event

/-- The training run of the other sense. -/
def Training.mirror (t : Training ℚ) : Training ℚ :=
  { run := t.run.mirror
    number := t.number
    log := t.log.map LogRecord.mirror
    journal := t.journal.map Event.mirror }

/-- What training leaves behind for the other sense. -/
def TrainingReport.mirror (r : TrainingReport ℚ) : TrainingReport ℚ :=
  { r with
    session := r.session.mirror
    log := r.log.map LogRecord.mirror
    journal := r.journal.map Event.mirror }

namespace Training

variable {o : Opposites} {β : Type} {h : β → β} {R : β → Prop}

/-- The value terms of all nodes are reserved in the run. -/
def Reserves (o : Opposites) (t : Training ℚ) : Prop := t.run.Reserves o

theorem twin_onRun {act act' : Action ℚ (Run ℚ) β}
    (hact : Twin Run.mirror h (Run.Reserves o) R act act') :
    Twin mirror h (Reserves o) R (onRun act) (onRun act') :=
  .focus hact (fun _ => id) (fun _ _ _ => id) (fun _ _ => rfl) fun _ _ _ => rfl

theorem twin_report (event : Event ℚ) :
    Twin mirror id (Reserves o) (fun _ => True) (report event) (report event.mirror) := by
  refine .modify (fun _ => id) fun t _ => ?_
  simp only [mirror, List.map_append, List.map_singleton]

theorem twin_forward :
    Twin mirror ForwardResult.mirror (Reserves o) (fun _ => True) (forwardPass o.solver)
      (forwardPass o.opposite) :=
  twin_onRun (Run.twin_timed _ Run.twin_forward)

theorem twin_iteration (measure : Measure ℚ) (start : Datum ℚ) :
    Twin mirror id (Reserves o) (fun _ => True) (iteration o.solver measure start)
      (iteration o.opposite measure start) := by
  refine .bind twin_forward fun forward _ => ?_
  refine .bind (twin_onRun (Run.twin_timed _ (Run.twin_backward forward.path forward.states)))
    fun _ _ => ?_
  refine .bind (twin_onRun (Run.twin_timed _ (Run.twin_bound measure))) fun bound _ => ?_
  refine .bind (twin_onRun Run.twin_heed) fun _ _ => ?_
  refine .bind (twin_onRun (Run.twin_onSession Session.twin_readClock)) fun now _ => ?_
  refine .bind (h := id) (R := fun _ => True)
    (.ofExcept (congrFun Except.map_id _).symm fun _ _ => trivial)
    fun time _ => .modify (fun _ => id) fun t _ => ?_
  simp only [mirror, List.map_append, List.map_singleton]
  rfl

theorem twin_reportIteration (options : TrainingOptions ℚ) :
    Twin mirror id (Reserves o) (fun _ => True) (reportIteration options)
      (reportIteration options) := by
  refine .ite (fun _ => .bind .get fun t _ => ?_) fun _ => .pure (h := id) trivial
  have last : t.mirror.log.getLast? = t.log.getLast?.map LogRecord.mirror := List.getLast?_map
  rw [last]
  cases t.log.getLast? with
  | none => exact .pure (h := id) trivial
  | some record =>
    have checked : ∀ d : Datum ℚ, (discard (Action.ofExcept d.negated.asNumber) :
        Action ℚ (Training ℚ) Unit) = discard (Action.ofExcept d.asNumber) := fun d => by
      rw [Datum.asNumber_negated]
      cases d.asNumber <;> rfl
    have same : ([record.mirror.bound, record.mirror.simulation, record.mirror.time].forM fun d =>
          discard (Action.ofExcept d.asNumber) : Action ℚ (Training ℚ) PUnit) =
        [record.bound, record.simulation, record.time].forM fun d =>
        discard (Action.ofExcept d.asNumber) := by
      simp only [LogRecord.mirror, List.forM_eq_forM, List.forM_cons, checked]
    refine .bind (h := id) (R := fun _ => True) ?_ fun _ _ => twin_report (.iteration record)
    refine same ▸ .forM fun d _ => .bind (h := id) (R := fun _ => True)
      (.ofExcept (congrFun Except.map_id _).symm fun _ _ => trivial) fun _ _ =>
      .pure (h := id) trivial

theorem twin_round (options : TrainingOptions ℚ) {rules : List (StoppingRule ℚ)}
    (hrules : ∀ rule ∈ rules, rule.IsStandard) (start : Datum ℚ) :
    Twin mirror id (Reserves o) (fun _ => True) (round o.solver options rules start)
      (round o.opposite options rules start) := by
  refine .bind (twin_iteration _ start) fun _ _ => .bind (twin_onRun Run.twin_heed) fun _ _ =>
    .bind .get fun t _ => ?_
  refine .bind (h := id) (R := fun _ => True) (.ofExcept ?_ fun _ _ => trivial) fun verdict _ =>
    .bind (twin_onRun Run.twin_heed) fun _ _ => .bind (twin_reportIteration options) fun _ _ =>
      .bind (.modify (fun _ => id) fun _ _ => rfl) fun _ _ => .pure (h := id) trivial
  exact (firstConverged_mirror hrules t.log).trans (congrFun Except.map_id _).symm

/-- Iterations of both senses go on until the same rule ends them. -/
theorem twin_iterate (options : TrainingOptions ℚ) {rules : List (StoppingRule ℚ)}
    (hrules : ∀ rule ∈ rules, rule.IsStandard) (start : Datum ℚ) (budget : ℕ) :
    Twin mirror id (Reserves o) (fun _ => True) (iterate o.solver options rules start budget)
      (iterate o.opposite options rules start budget) := by
  induction budget with
  | zero => exact .throw
  | succ budget ih =>
    refine .bind (twin_round options hrules start) fun verdict _ => ?_
    cases verdict with
    | some status => exact .pure (h := id) trivial
    | none => exact ih

theorem twin_settle {S : String → Prop} {act act' : Action ℚ (Training ℚ) String}
    (hact : Twin mirror id (Reserves o) S act act') :
    Twin mirror id (Reserves o) (fun _ => True) (settle act) (settle act') := by
  refine ⟨ensures_settle (fun _ _ => id) hact.keeps, fun t ht => ?_⟩
  unfold settle
  rw [hact.mirrors t ht]
  cases act t with
  | ok status u => rfl
  | error e u =>
    cases e with
    | unsolved node termination primal dual =>
      simp only [Action.imageOf, mirror, List.map_append, List.map_singleton]
      rfl
    | _ => rfl

/-! ### Runs -/

theorem twin_commence (options : TrainingOptions ℚ) :
    Twin mirror id (Reserves o) (fun _ => True) (commence options) (commence options) := by
  have read : Twin mirror id (Reserves o) (fun _ => True) (onRun (Run.onSession Session.readClock))
      (onRun (Run.onSession Session.readClock)) :=
      twin_onRun (Run.twin_onSession Session.twin_readClock)
  refine .ite (fun _ => .bind .get fun t _ => ?_) fun _ => read
  have size : t.mirror.run.session.model.nodes.size = t.run.session.model.nodes.size :=
    List.length_map ..
  rw [size]
  exact .bind (twin_report _) fun _ _ => .bind (twin_report _) fun _ _ => read

theorem twin_conclude (options : TrainingOptions ℚ) (status : String) :
    Twin mirror id (Reserves o) (fun _ => True) (conclude options status)
      (conclude options status) := by
  have ended : Twin mirror id (Reserves o) (fun _ => True)
      (do report (.ended status (← get).log.length); return status)
      (do report (.ended status (← get).log.length); return status) := by
    refine .bind .get fun t _ => ?_
    have count : t.mirror.log.length = t.log.length := List.length_map ..
    rw [count]
    exact .bind (twin_report _) fun _ _ => .pure (h := id) trivial
  exact .ite (fun _ => .bind .get fun t _ =>
    .bind (twin_report (.times t.run.timer)) fun _ _ => ended)
    fun _ => ended

theorem twin_perform (options : TrainingOptions ℚ) {rules : List (StoppingRule ℚ)}
    (hrules : ∀ rule ∈ rules, rule.IsStandard) (budget : ℕ) :
    Twin mirror id (Reserves o) (fun _ => True) (perform o.solver options rules budget)
      (perform o.opposite options rules budget) := by
  rw [perform_eq, perform_eq]
  exact .bind (twin_commence options) fun start _ =>
    .bind (twin_settle (twin_iterate options hrules start budget)) fun status _ =>
      twin_conclude options status

/-- The forward passes of the other sense visit the same nodes and leave the same states. -/
theorem passes_mirror (options : TrainingOptions ℚ) {rules : List (StoppingRule ℚ)}
    (hrules : ∀ rule ∈ rules, rule.IsStandard) (start : Datum ℚ) (budget : ℕ) {t : Training ℚ}
    (ht : t.Reserves o) :
    passes o.opposite options rules start budget t.mirror =
      (passes o.solver options rules start budget t).map ForwardResult.mirror := by
  induction budget generalizing t with
  | zero => rfl
  | succ budget ih =>
    have rounds := twin_round (o := o) options hrules start
    unfold passes
    rw [twin_forward.mirrors t ht, rounds.mirrors t ht]
    cases forwardPass o.solver t with
    | error e v => rfl
    | ok forward v =>
      refine congrArg (_ :: ·) ?_
      cases hr : round o.solver options rules start t with
      | error e u => rfl
      | ok verdict u =>
        cases verdict with
        | some status => rfl
        | none => exact ih (rounds.keeps.ok ht hr).1

theorem performed_mirror (options : TrainingOptions ℚ) {rules : List (StoppingRule ℚ)}
    (hrules : ∀ rule ∈ rules, rule.IsStandard) (budget : ℕ) {t : Training ℚ} (ht : t.Reserves o) :
    performed o.opposite options rules budget t.mirror =
      (performed o.solver options rules budget t).map ForwardResult.mirror := by
  have commenced := twin_commence (o := o) options
  unfold performed
  rw [commenced.mirrors t ht]
  cases hr : commence options t with
  | error e u => rfl
  | ok start u => exact passes_mirror options hrules start budget (commenced.keeps.ok ht hr).1

end Training

/-! ### Requests -/

/-- A session of the other sense starts a run of the other sense. -/
theorem Run.start_mirror (session : Session ℚ) (options : TrainingOptions ℚ) :
    Run.start session.mirror options = (Run.start session options).map Run.mirror := by
  have keys : session.mirror.model.nodes.keys = session.model.nodes.keys := Dict.keys_mapValues _ _
  have transitions :
      transitionMap session.mirror.model.nodes = transitionMap session.model.nodes := by
    unfold transitionMap Session.mirror Model.mirror Dict.mapValues
    rw [List.flatMap_map]
    rfl
  have similar : session.mirror.model.similar = session.model.similar := by
    unfold Model.similar Session.mirror Model.mirror Dict.mapValues
    simp only [List.map_map, List.filter_map, Function.comp_def]
    rfl
  have starting : (session.mirror.model.nodes.mapValues fun _ _ => ([] : List (State ℚ))) =
      session.model.nodes.mapValues fun _ _ => [] := congrArg Dict.mk (List.map_map ..)
  unfold Run.start
  simp only [keys, transitions, similar, starting]
  refine Except.bind_image (h := id) (congrFun Except.map_id _).symm fun measures _ => ?_
  exact Except.bind_image (h := id) (congrFun Except.map_id _).symm fun distance _ => rfl

namespace TrainingRequest

/-- The request has only stopping rules that do not see the sense, and scenarios that are given run
through noise terms that may be met. -/
structure Suits (o : Opposites) (request : TrainingRequest ℚ) : Prop where
  scheme : ∀ s, request.scheme = .inr s → s.Meets o
  rules : ∀ rule, .inr rule ∈ request.rules → rule.IsStandard

variable {o : Opposites} {request : TrainingRequest ℚ} {options : TrainingOptions ℚ}

theorem Suits.meets (h : request.Suits o) (hcheck : TrainingOptions.check request = .ok options) :
    options.scheme.Meets o := by
  obtain ⟨scheme, rules, hscheme, -, rfl⟩ := TrainingOptions.check_eq_ok hcheck
  refine h.scheme scheme ?_
  cases hs : request.scheme with
  | inl d =>
    rw [hs] at hscheme
    cases hscheme
  | inr s =>
    rw [hs] at hscheme
    cases hscheme
    rfl

/-- The rules of a limit do not see the sense. -/
theorem isStandard_of_limitRule {rule? : Datum ℚ → Except (Failure ℚ) (StoppingRule ℚ)}
    {d : Datum ℚ}
    (h : ∀ d rule, rule? d = .ok rule → rule.IsStandard) {rules : List (StoppingRule ℚ)}
    (hrules : TrainingOptions.limitRule rule? d = .ok rules) : ∀ rule ∈ rules, rule.IsStandard := by
  unfold TrainingOptions.limitRule at hrules
  split at hrules
  · cases hrules
    exact nofun
  · obtain ⟨rule, hrule, rfl⟩ := Except.map_eq_ok.1 hrules
    intro r hr
    rw [List.mem_singleton.1 hr]
    exact h _ _ hrule

/-- None of the rules of a run sees the sense. -/
theorem Suits.isStandard (h : request.Suits o) {rules : List (StoppingRule ℚ)}
    (hcheck : TrainingOptions.check request = .ok options) (hrules : options.allRules = .ok rules) :
    ∀ rule ∈ rules, rule.IsStandard := by
  obtain ⟨scheme, given, -, hgiven, rfl⟩ := TrainingOptions.check_eq_ok hcheck
  obtain ⟨iterations, hiterations, hrules⟩ := Except.bind_eq_ok.1 hrules
  obtain ⟨time, htime, hrules⟩ := Except.bind_eq_ok.1 hrules
  cases hrules
  intro rule hrule
  rcases List.mem_append.1 hrule with hrule | hrule
  · rcases List.mem_append.1 hrule with hrule | hrule
    · obtain ⟨r, hmem, hr⟩ := Except.exists_of_mem_mapM hgiven hrule
      cases r with
      | inl d => cases hr
      | inr r =>
        cases hr
        exact h.rules rule hmem
    · refine isStandard_of_limitRule (fun d rule hd => ?_) hiterations rule hrule
      obtain ⟨low, -, hd⟩ := Except.bind_eq_ok.1 hd
      split at hd
      · cases hd
      · obtain ⟨_, -, hd⟩ := Except.bind_eq_ok.1 hd
        cases hd
        trivial
  · refine isStandard_of_limitRule (fun d rule hd => ?_) htime rule hrule
    obtain ⟨low, -, hd⟩ := Except.bind_eq_ok.1 hd
    split at hd
    · cases hd
    · obtain ⟨_, -, hd⟩ := Except.bind_eq_ok.1 hd
      cases hd
      trivial

end TrainingRequest

variable {o : Opposites} {session : Session ℚ} {request : TrainingRequest ℚ}

/-- The options and rules of a request that suits, from which a run starts. -/
theorem TrainingRequest.Suits.started (hr : request.Suits o) (hs : session.Reserves o)
    {options : TrainingOptions ℚ} {rules : List (StoppingRule ℚ)}
    (hchecked : (do let o ← TrainingOptions.check request; return (o, ← o.allRules) :
      Except (Failure ℚ) (TrainingOptions ℚ × List (StoppingRule ℚ))) = .ok (options, rules)) :
    (∀ rule ∈ rules, rule.IsStandard) ∧
      (do options.requireTimerAndSeed; Run.start session.mirror options : Except
        (Failure ℚ) (Run ℚ)) =
        (do options.requireTimerAndSeed; Run.start session options : Except (Failure ℚ) (Run ℚ)).map
          Run.mirror ∧
      ∀ run, (do options.requireTimerAndSeed; Run.start session options : Except
        (Failure ℚ) (Run ℚ)) = .ok run → run.Reserves o := by
  obtain ⟨options, hoptions, hrules⟩ := Except.bind_eq_ok.1 hchecked
  obtain ⟨rules, hrules, hpair⟩ := Except.bind_eq_ok.1 hrules
  cases hpair
  refine ⟨hr.isStandard hoptions hrules, ?_, fun run hrun => ?_⟩
  · exact Except.bind_image (h := id) (congrFun Except.map_id _).symm fun _ _ =>
      Run.start_mirror session options
  · obtain ⟨_, -, hrun⟩ := Except.bind_eq_ok.1 hrun
    obtain ⟨_, -, hrun⟩ := Except.bind_eq_ok.1 hrun
    obtain ⟨_, -, hrun⟩ := Except.bind_eq_ok.1 hrun
    cases hrun
    exact ⟨hs, hr.meets hoptions⟩

/-- Training sessions of both senses ends with the same status after the same number of records,
with negative bounds, values and cuts. -/
theorem train_mirror (hs : session.Reserves o) (hr : request.Suits o) (budget : ℕ) :
    train o.opposite budget request session.mirror =
      (train o.solver budget request session).mirror ∧
      (train o.solver budget request session).session.Reserves o := by
  unfold train
  cases hchecked : (do let o ← TrainingOptions.check request; return (o, ← o.allRules) :
      Except (Failure ℚ) (TrainingOptions ℚ × List (StoppingRule ℚ))) with
  | error cause => exact ⟨rfl, hs⟩
  | ok checked =>
    obtain ⟨options, rules⟩ := checked
    obtain ⟨hrules, hmirror, hreserves⟩ := hr.started hs hchecked
    simp only [hmirror]
    cases hrun : (do options.requireTimerAndSeed; Run.start session options :
        Except (Failure ℚ) (Run ℚ)) with
    | error cause => exact ⟨rfl, hs⟩
    | ok run =>
      have performed := Training.twin_perform (o := o) options hrules budget
      have ht : Training.Reserves o (.ofRun run) := hreserves run hrun
      have mirrored := performed.mirrors _ ht
      simp only [Except.map]
      rw [show Training.ofRun run.mirror = (Training.ofRun run).mirror from rfl, mirrored]
      cases hp : Training.perform o.solver options rules budget (.ofRun run) with
      | ok status t => exact ⟨rfl, (performed.keeps.ok ht hp).1.1⟩
      | error cause t => exact ⟨rfl, (performed.keeps.error ht hp).1⟩

/-- Training sessions of both senses goes through the same scenarios and states. -/
theorem trainPasses_mirror (hs : session.Reserves o) (hr : request.Suits o) (budget : ℕ) :
    trainPasses o.opposite budget request session.mirror =
      (trainPasses o.solver budget request session).map ForwardResult.mirror := by
  unfold trainPasses
  cases hchecked : (do let o ← TrainingOptions.check request; return (o, ← o.allRules) :
      Except (Failure ℚ) (TrainingOptions ℚ × List (StoppingRule ℚ))) with
  | error cause => rfl
  | ok checked =>
    obtain ⟨options, rules⟩ := checked
    obtain ⟨hrules, hmirror, hreserves⟩ := hr.started hs hchecked
    simp only [hmirror]
    cases hrun : (do options.requireTimerAndSeed; Run.start session options :
        Except (Failure ℚ) (Run ℚ)) with
    | error cause => rfl
    | ok run =>
      exact Training.performed_mirror (t := .ofRun run) options hrules budget (hreserves run hrun)

end Multistage
