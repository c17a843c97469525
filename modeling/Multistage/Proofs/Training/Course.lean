import Multistage.Proofs.Scalar.Extended
import Multistage.Proofs.Training.Passes
import Mathlib.Algebra.Order.Ring.Rat
import Mathlib.Algebra.Order.Ring.Cast
import Mathlib.Logic.Relation

/-!
# The course of training

A training run is announced, and then goes on round by round until a rule ends it or a round fails.
A round computes a bound, logs it, asks the rules and counts itself. The user may stop a round in
any of these.

## Main definitions

- `Training.evaluate`, `Training.record`, `Training.judge`: an iteration up to its bound, and what
  follows.
- `Training.Moment`, `Training.Stopped`: where the user stops a round.
- `Training.GoesOn`: a round that no rule ends.
- `Training.Begins`: the state in which a run does its first iteration.
- `TrainingReport.ofResult`: the report of a run that ends.

## Main statements

- `Training.round_eq_ok`: what a round logs.
- `Training.stopped_iff`: the rounds that the user stops.
- `Training.exists_last_of_ok`, `Training.exists_last_of_error`: every run has a last round.
- `train_eq`: a run is refused, or performed.
- `Training.Begins.perform`: a run that begins iterates and is summed up.
-/

namespace Multistage

variable {α : Type} [Scalar α] (solver : Solver α)

namespace Datum

/-- A datum that is no number fails to be one, but it never asks to stop. -/
theorem asNumber_ne_interrupted (d : Datum α) : d.asNumber ≠ .error .interrupted := by
  cases d with
  | int n =>
    simp only [asNumber, scalarOfInt]
    split <;> nofun
  | _ => nofun

theorem sub_ne_interrupted (a b : Datum α) : a.sub b ≠ .error .interrupted := by
  unfold sub combine
  split
  · nofun
  · split
    · intro h
      rcases Except.bind_eq_error.1 h with ha | ⟨x, -, hrest⟩
      · exact a.asNumber_ne_interrupted ha
      · rcases Except.bind_eq_error.1 hrest with hb | ⟨y, -, hanswer⟩
        · exact b.asNumber_ne_interrupted hb
        · cases hanswer
    · nofun

theorem atMost_int (a b : ℤ) : (Datum.int a : Datum α).atMost (.int b) = .ok (decide (a ≤ b)) :=
  congrArg Except.ok (Extended.le_intCast a b)

end Datum

namespace Training

/-! ### Rounds -/

/-- An iteration up to its bound. -/
def evaluate (measure : Measure α) : Action α (Training α) (ForwardResult α × α) := do
  let forward ← forwardPass solver
  onRun (Run.timed .backwardPass (Run.backward solver forward.path forward.states))
  let bound ← onRun (Run.timed .bound (Run.bound solver measure))
  return (forward, bound)

/-- Log the record of an iteration. -/
def write (start : Datum α) (forward : ForwardResult α) (bound : α) :
    Action α (Training α) Unit := do
  let now ← onRun (Run.onSession Session.readClock)
  let time ← Action.ofExcept (now.sub start)
  modify fun t =>
    { t with log := t.log ++ [⟨.int t.number, .real bound, .real forward.value, time⟩] }

/-- Log the record of an iteration, unless the user stops it. -/
def record (start : Datum α) (forward : ForwardResult α) (bound : α) :
    Action α (Training α) Unit := do
  onRun Run.heed
  write start forward bound

/-- What follows once an iteration is logged. -/
def judge (options : TrainingOptions α) (rules : List (StoppingRule α)) :
    Action α (Training α) (Option String) := do
  onRun Run.heed
  let verdict ← Action.ofExcept (firstConverged (← get).log rules)
  onRun Run.heed
  reportIteration options
  modify fun t => { t with number := t.number + 1 }
  return verdict

theorem iteration_eq (measure : Measure α) (start : Datum α) :
    iteration solver measure start =
      evaluate solver measure >>= fun result => record start result.1 result.2 := by
  simp only [iteration, evaluate, record, write, forwardPass, bind_assoc, pure_bind]

variable {solver} {options : TrainingOptions α} {rules : List (StoppingRule α)} {start : Datum α}
  {t u v : Training α}

/-- The log, and the number of the current iteration. -/
def progress (t : Training α) : List (LogRecord α) × ℕ := (t.log, t.number)

section Progress

variable {p : List (LogRecord α) × ℕ}

omit [Scalar α] in
theorem ensures_onRun_progress {β : Type} (act : Action α (Run α) β) :
    Action.Ensures (fun t : Training α => t.progress = p) (onRun act) fun _ => True :=
  .elsewhere act fun _ _ => id

/-- Nothing is logged before the bound is computed. -/
theorem ensures_evaluate (measure : Measure α) :
    Action.Ensures (fun t : Training α => t.progress = p) (evaluate solver measure) fun _ => True :=
  .bind (ensures_onRun_progress _) fun _ _ => .bind (ensures_onRun_progress _) fun _ _ =>
    .bind (ensures_onRun_progress _) fun _ _ => .pure trivial

theorem ensures_commence_progress (options : TrainingOptions α) :
    Action.Ensures (fun t : Training α => t.progress = p) (commence options) fun _ => True :=
  .ite (fun _ => .bind .get fun _ _ => .bind (.modify fun _ => id) fun _ _ =>
    .bind (.modify fun _ => id) fun _ _ => ensures_onRun_progress _) fun _ =>
      ensures_onRun_progress _

theorem ensures_reportIteration_progress :
    Action.Ensures (fun t : Training α => t.progress = p) (reportIteration options)
      fun _ => True := by
  refine .ite (fun _ => .bind .get fun t _ => ?_) fun _ => .pure trivial
  split
  · refine .bind (.forM fun d _ => ?_) fun _ _ => .modify fun _ => id
    exact (Action.Ensures.ofExcept (R := fun _ => True) fun _ _ => trivial).bind fun _ _ =>
      .pure trivial
  · exact .pure trivial

end Progress

/-- An iteration that answers has computed its bound, and it logs it with the current number. -/
theorem iteration_eq_ok {measure : Measure α} (h : iteration solver measure start t = .ok ⟨⟩ u) :
    ∃ forward bound w time, evaluate solver measure t = .ok (forward, bound) w ∧
      u.log = t.log ++ [⟨.int t.number, .real bound, .real forward.value, time⟩] ∧
      u.number = t.number := by
  rw [iteration_eq] at h
  obtain ⟨⟨forward, bound⟩, w, hevaluate, hrecord⟩ := Action.bind_eq_ok.1 h
  obtain ⟨_, x, hheed, hrest⟩ := Action.bind_eq_ok.1 hrecord
  obtain ⟨now, y, hread, hrest⟩ := Action.bind_eq_ok.1 hrest
  obtain ⟨time, z, htime, hlog⟩ := Action.bind_eq_ok.1 hrest
  obtain ⟨-, rfl⟩ := Action.ofExcept_eq_ok.1 htime
  have evaluated : w.progress = t.progress := ((ensures_evaluate measure).ok rfl hevaluate).1
  have heeded : x.progress = w.progress := ((ensures_onRun_progress _).ok rfl hheed).1
  have kept : z.progress = t.progress :=
    ((ensures_onRun_progress _).ok rfl hread).1.trans (heeded.trans evaluated)
  obtain ⟨logged, number⟩ := Prod.mk.inj kept
  cases hlog
  exact ⟨forward, bound, w, time, hevaluate, by rw [← logged, ← number], number⟩

/-- A round that answers logs its iteration with the current number, and the next one has the next
number; its verdict is that of the rules. -/
theorem round_eq_ok {verdict : Option String}
    (h : round solver options rules start t = .ok verdict u) :
    ∃ forward bound w time, evaluate solver options.rootMeasure t = .ok (forward, bound) w ∧
      u.log = t.log ++ [⟨.int t.number, .real bound, .real forward.value, time⟩] ∧
      u.number = t.number + 1 ∧ firstConverged u.log rules = .ok verdict := by
  obtain ⟨_, x, hiteration, hjudge⟩ := Action.bind_eq_ok.1 h
  obtain ⟨forward, bound, w, time, hevaluate, hlog, hnumber⟩ := iteration_eq_ok hiteration
  obtain ⟨_, _, hheed, hask⟩ := Action.bind_eq_ok.1 hjudge
  rw [Action.get_bind_eq] at hask
  obtain ⟨answer, y, hverdict, htell⟩ := Action.bind_eq_ok.1 hask
  obtain ⟨hconverged, rfl⟩ := Action.ofExcept_eq_ok.1 hverdict
  obtain ⟨_, z, hheed', htold⟩ := Action.bind_eq_ok.1 htell
  obtain ⟨_, v, hreport, hanswer⟩ := Action.bind_eq_ok.1 htold
  have before : y.progress = x.progress := ((ensures_onRun_progress _).ok rfl hheed).1
  have between : z.progress = y.progress := ((ensures_onRun_progress _).ok rfl hheed').1
  have after : v.progress = z.progress := (ensures_reportIteration_progress.ok rfl hreport).1
  obtain ⟨logged, number⟩ := Prod.mk.inj (after.trans (between.trans before))
  have judged : v.log = y.log := (Prod.mk.inj (after.trans between)).1
  cases hanswer
  refine ⟨forward, bound, w, time, hevaluate, logged.trans hlog, ?_, ?_⟩
  · exact congrArg (· + 1) (number.trans hnumber)
  · exact judged ▸ hconverged

omit [Scalar α] in
theorem onRun_readClock_ne_error {e : Failure α} :
    onRun (Run.onSession Session.readClock) t ≠ .error e u := by
  intro h
  cases h

/-- Writing the last record down never asks to stop. -/
theorem reportIteration_ne_interrupted : reportIteration options t ≠ .error .interrupted u := by
  have checked : ∀ (ds : List (Datum α)) (w : Training α),
      (forM ds fun d => discard (Action.ofExcept d.asNumber) : Action α (Training α) PUnit) w ≠
        .error .interrupted u := by
    intro ds
    induction ds with
    | nil => exact fun w h => nomatch h
    | cons d ds ih =>
      intro w h
      rw [List.forM_cons] at h
      rcases Action.bind_eq_error.1 h with hd | ⟨_, x, -, hds⟩
      · exact d.asNumber_ne_interrupted
          (Action.ofExcept_eq_error.1 (Action.discard_eq_error.1 hd)).1
      · exact ih x hds
  intro h
  unfold reportIteration at h
  split at h
  · rcases Action.bind_eq_error.1 h with hget | ⟨_, _, hget, hrest⟩
    · cases hget
    · cases hget
      cases hlast : t.log.getLast? with
      | none =>
        rw [hlast] at hrest
        cases hrest
      | some last =>
        rw [hlast] at hrest
        rcases Action.bind_eq_error.1 hrest with hwrite | ⟨_, x, -, hreport⟩
        · exact checked _ _ hwrite
        · cases hreport
  · cases h

omit [Scalar α] in
theorem onRun_heed_eq_error {e : Failure α} :
    onRun Run.heed t = .error e u ↔ t.run.patience = some 0 ∧ e = .interrupted ∧ u = t := by
  unfold onRun
  rw [Action.focus_eq_error]
  constructor
  · rintro ⟨r, hheed, rfl⟩
    obtain ⟨hpatience, rfl, rfl⟩ := Run.heed_eq_error.1 hheed
    exact ⟨hpatience, rfl, rfl⟩
  · rintro ⟨hpatience, rfl, rfl⟩
    exact ⟨u.run, Run.heed_eq_error.2 ⟨hpatience, rfl, rfl⟩, rfl⟩

/-! ### Rounds that the user stops -/

/-- Where the user stops a round. -/
inductive Moment where
  /-- In one of its passes, or while its bound is computed. -/
  | evaluating
  /-- At the clock, when the bound is computed and the iteration is not logged. -/
  | recording
  /-- When the iteration is logged: before the rules are asked, or through one of them. -/
  | judging
  /-- When the rules have been asked and the iteration is not reported. -/
  | reporting

variable (solver options rules start) in
/-- The user stops a round at a moment, and leaves a state. -/
inductive Stopped (t : Training α) : Moment → Training α → Prop
  | evaluating {u : Training α}
    (h : evaluate solver options.rootMeasure t = .error .interrupted u) : Stopped t .evaluating u
  | recording {forward : ForwardResult α} {bound : α} {u : Training α}
    (h : evaluate solver options.rootMeasure t = .ok (forward, bound) u)
    (hpatience : u.run.patience = some 0) : Stopped t .recording u
  | judging {u : Training α}
    (hlogged : iteration solver options.rootMeasure start t = .ok ⟨⟩ u)
    (hpatience : u.run.patience = some 0) : Stopped t .judging u
  | asking {v u : Training α}
    (hlogged : iteration solver options.rootMeasure start t = .ok ⟨⟩ v)
    (hheed : onRun Run.heed v = .ok ⟨⟩ u)
    (h : firstConverged u.log rules = .error .interrupted) : Stopped t .judging u
  | reporting {v u : Training α} {verdict : Option String}
    (hlogged : iteration solver options.rootMeasure start t = .ok ⟨⟩ v)
    (hheed : onRun Run.heed v = .ok ⟨⟩ u)
    (h : firstConverged u.log rules = .ok verdict)
    (hpatience : u.run.patience = some 0) : Stopped t .reporting u

/-- A record is only interrupted at the clock: times that cannot be subtracted fail for another
cause. -/
theorem record_eq_interrupted {forward : ForwardResult α} {bound : α} :
    record start forward bound t = .error .interrupted u ↔ t.run.patience = some 0 ∧ u = t := by
  constructor
  · intro h
    rcases Action.bind_eq_error.1 h with hheed | ⟨_, w, -, hrest⟩
    · obtain ⟨hpatience, -, rfl⟩ := onRun_heed_eq_error.1 hheed
      exact ⟨hpatience, rfl⟩
    rcases Action.bind_eq_error.1 hrest with hread | ⟨now, x, -, hrest⟩
    · exact absurd hread onRun_readClock_ne_error
    rcases Action.bind_eq_error.1 hrest with htime | ⟨time, y, -, hlog⟩
    · exact absurd (Action.ofExcept_eq_error.1 htime).1 (now.sub_ne_interrupted start)
    · cases hlog
  · rintro ⟨hpatience, rfl⟩
    exact Action.bind_eq_error.2 (.inl (onRun_heed_eq_error.2 ⟨hpatience, rfl, rfl⟩))

/-- What follows a logged iteration is stopped before the rules, through one of them, or before the
report. -/
theorem judge_eq_interrupted :
    judge options rules t = .error .interrupted u ↔
      t.run.patience = some 0 ∧ u = t ∨ onRun Run.heed t = .ok ⟨⟩ u ∧
        (firstConverged u.log rules = .error .interrupted ∨
          (∃ verdict, firstConverged u.log rules = .ok verdict) ∧ u.run.patience = some 0) := by
  constructor
  · intro h
    rcases Action.bind_eq_error.1 h with hheed | ⟨_, v, hheed, hask⟩
    · obtain ⟨hpatience, -, rfl⟩ := onRun_heed_eq_error.1 hheed
      exact .inl ⟨hpatience, rfl⟩
    rw [Action.get_bind_eq] at hask
    rcases Action.bind_eq_error.1 hask with hverdict | ⟨verdict, w, hverdict, htell⟩
    · obtain ⟨hconverged, rfl⟩ := Action.ofExcept_eq_error.1 hverdict
      exact .inr ⟨hheed, .inl hconverged⟩
    obtain ⟨hconverged, rfl⟩ := Action.ofExcept_eq_ok.1 hverdict
    rcases Action.bind_eq_error.1 htell with hheed' | ⟨_, x, -, htold⟩
    · obtain ⟨hpatience, -, rfl⟩ := onRun_heed_eq_error.1 hheed'
      exact .inr ⟨hheed, .inr ⟨⟨verdict, hconverged⟩, hpatience⟩⟩
    rcases Action.bind_eq_error.1 htold with hreport | ⟨_, y, -, hanswer⟩
    · exact absurd hreport reportIteration_ne_interrupted
    · cases hanswer
  · rintro (⟨hpatience, rfl⟩ | ⟨hheed, hverdict | ⟨⟨verdict, hverdict⟩, hpatience⟩⟩)
    · exact Action.bind_eq_error.2 (.inl (onRun_heed_eq_error.2 ⟨hpatience, rfl, rfl⟩))
    all_goals
      refine Action.bind_eq_error.2 (.inr ⟨⟨⟩, u, hheed, ?_⟩)
      rw [Action.get_bind_eq]
    · exact Action.bind_eq_error.2 (.inl (Action.ofExcept_eq_error.2 ⟨hverdict, rfl⟩))
    · refine Action.bind_eq_error.2 (.inr ⟨verdict, u, Action.ofExcept_eq_ok.2 ⟨hverdict, rfl⟩, ?_⟩)
      exact Action.bind_eq_error.2 (.inl (onRun_heed_eq_error.2 ⟨hpatience, rfl, rfl⟩))

/-- A round ends as interrupted iff the user stops it at one of the moments. -/
theorem stopped_iff :
    (∃ moment, Stopped solver options rules start t moment u) ↔
      round solver options rules start t = .error .interrupted u := by
  have split : round solver options rules start t = .error .interrupted u ↔
      iteration solver options.rootMeasure start t = .error .interrupted u ∨
        ∃ v, iteration solver options.rootMeasure start t = .ok ⟨⟩ v ∧
          judge options rules v = .error .interrupted u :=
    Action.bind_eq_error.trans (or_congr_right ⟨fun ⟨_, v, h⟩ => ⟨v, h⟩, fun ⟨v, h⟩ => ⟨⟨⟩, v, h⟩⟩)
  rw [split, iteration_eq, Action.bind_eq_error, ← iteration_eq]
  constructor
  · rintro ⟨_, h | ⟨h, hpatience⟩ | ⟨hlogged, hpatience⟩ | ⟨hlogged, hheed, h⟩ |
      ⟨hlogged, hheed, h, hpatience⟩⟩
    · exact .inl (.inl h)
    · exact .inl (.inr ⟨_, u, h, record_eq_interrupted.2 ⟨hpatience, rfl⟩⟩)
    · exact .inr ⟨u, hlogged, judge_eq_interrupted.2 (.inl ⟨hpatience, rfl⟩)⟩
    · exact .inr ⟨_, hlogged, judge_eq_interrupted.2 (.inr ⟨hheed, .inl h⟩)⟩
    · exact .inr ⟨_, hlogged, judge_eq_interrupted.2 (.inr ⟨hheed, .inr ⟨⟨_, h⟩, hpatience⟩⟩)⟩
  · rintro ((h | ⟨⟨forward, bound⟩, w, h, hrecord⟩) | ⟨v, hlogged, hjudge⟩)
    · exact ⟨_, .evaluating h⟩
    · obtain ⟨hpatience, rfl⟩ := record_eq_interrupted.1 hrecord
      exact ⟨_, .recording h hpatience⟩
    · rcases judge_eq_interrupted.1 hjudge with ⟨hpatience, rfl⟩ | ⟨hheed, h | ⟨⟨_, h⟩, hpatience⟩⟩
      · exact ⟨_, .judging hlogged hpatience⟩
      · exact ⟨_, .asking hlogged hheed h⟩
      · exact ⟨_, .reporting hlogged hheed h hpatience⟩

/-! ### Rounds one after the other -/

/-- A round that no rule ends leads from one state to another. -/
def GoesOn (solver : Solver α) (options : TrainingOptions α) (rules : List (StoppingRule α))
    (start : Datum α) (t u : Training α) : Prop :=
  round solver options rules start t = .ok none u

/-- A run that a rule ends has a last round, after rounds that no rule ended. -/
theorem exists_last_of_ok {budget : ℕ} {status : String}
    (h : iterate solver options rules start budget t = .ok status u) :
    ∃ v, Relation.ReflTransGen (GoesOn solver options rules start) t v ∧
      round solver options rules start v = .ok (some status) u := by
  induction budget generalizing t with
  | zero => cases h
  | succ budget ih =>
    rw [iterate_succ] at h
    cases hr : round solver options rules start t with
    | error e w =>
      rw [hr] at h
      cases h
    | ok verdict w =>
      rw [hr] at h
      cases verdict with
      | some answer =>
        cases h
        exact ⟨t, .refl, hr⟩
      | none =>
        obtain ⟨v, hv, hlast⟩ := ih h
        exact ⟨v, .head hr hv, hlast⟩

/-- A run that fails while its budget lasts has a last round, which fails for the same reason. -/
theorem exists_last_of_error {budget : ℕ} {e : Failure α} (he : e ≠ .unfinished)
    (h : iterate solver options rules start budget t = .error e u) :
    ∃ v, Relation.ReflTransGen (GoesOn solver options rules start) t v ∧
      round solver options rules start v = .error e u := by
  induction budget generalizing t with
  | zero =>
    cases h
    exact absurd rfl he
  | succ budget ih =>
    rw [iterate_succ] at h
    cases hr : round solver options rules start t with
    | error e' w =>
      rw [hr] at h
      cases h
      exact ⟨t, .refl, hr⟩
    | ok verdict w =>
      rw [hr] at h
      cases verdict with
      | some answer => cases h
      | none =>
        obtain ⟨v, hv, hlast⟩ := ih h
        exact ⟨v, .head hr hv, hlast⟩

/-- Only one round is the last. -/
theorem eq_of_last {v' : Training α}
    (hv : Relation.ReflTransGen (GoesOn solver options rules start) t v)
    (hv' : Relation.ReflTransGen (GoesOn solver options rules start) t v')
    (hlast : ∀ w, ¬GoesOn solver options rules start v w)
    (hlast' : ∀ w, ¬GoesOn solver options rules start v' w) : v = v' := by
  have unique : Relator.RightUnique (GoesOn solver options rules start) := fun a b c hb hc => by
    unfold GoesOn at hb hc
    rw [hb] at hc
    cases hc
    rfl
  rcases Relation.ReflTransGen.total_of_right_unique unique hv hv' with h | h
  · rcases Relation.ReflTransGen.cases_head h with h | ⟨w, hw, -⟩
    · exact h
    · exact absurd hw (hlast w)
  · rcases Relation.ReflTransGen.cases_head h with h | ⟨w, hw, -⟩
    · exact h.symm
    · exact absurd hw (hlast' w)

/-! ### Runs -/

omit [Scalar α] in
/-- A run has the status that a rule gave it, or it is stopped by the user. -/
theorem settle_eq_ok {act : Action α (Training α) String} {status : String} :
    settle act t = .ok status u ↔
      act t = .ok status u ∨ act t = .error .interrupted u ∧ status = interruptedStatus := by
  unfold settle
  cases act t with
  | ok answer w => simp
  | error e w => cases e <;> simp [and_comm, eq_comm]

omit [Scalar α] in
/-- What fails for another cause than the wish to stop still fails for it. -/
theorem settle_of_error {act : Action α (Training α) String} {e : Failure α}
    (h : act t = .error e u) (hne : e ≠ .interrupted) :
    ∃ journal, settle act t = .error e { u with journal := journal } := by
  unfold settle
  rw [h]
  cases e with
  | interrupted => exact absurd rfl hne
  | _ => exact ⟨_, rfl⟩

/-- The run of a request on a session has options and rules, and after its announcement it starts at
a time from a state. -/
structure Begins (request : TrainingRequest α) (session : Session α) (options : TrainingOptions α)
    (rules : List (StoppingRule α)) (start : Datum α) (t : Training α) : Prop where
  checked : TrainingOptions.check request = .ok options
  ruled : options.allRules = .ok rules
  begun : ∃ run, (do options.requireTimerAndSeed; Run.start session options) = .ok run ∧
    commence options (.ofRun run) = .ok start t

/-- A run is summed up without a failure, and only its journal changes. -/
theorem exists_conclude (status : String) :
    ∃ journal, conclude options status t = .ok status { t with journal := journal } := by
  unfold conclude
  split
  · exact ⟨_, rfl⟩
  · exact ⟨_, rfl⟩

variable (solver) in
/-- A run that begins ends as its iterations do, and leaves what they leave. -/
theorem Begins.perform {request : TrainingRequest α} {session : Session α}
    (h : Begins request session options rules start t) (budget : ℕ) :
    (train solver budget request session).outcome =
        ((settle (iterate solver options rules start budget)).answer t).map Prod.fst ∧
      (train solver budget request session).log =
        ((settle (iterate solver options rules start budget)).final t).log ∧
      (train solver budget request session).session =
        ((settle (iterate solver options rules start budget)).final t).run.session := by
  obtain ⟨run, hrun, hstart⟩ := h.begun
  have checked : (do let o ← TrainingOptions.check request; return (o, ← o.allRules) :
      Except (Failure α) (TrainingOptions α × List (StoppingRule α))) = .ok (options, rules) := by
    rw [h.checked]
    exact congrArg (fun x => x >>= fun r => .ok (options, r)) h.ruled
  unfold train
  rw [checked]
  simp only
  rw [hrun]
  simp only
  rw [perform_eq]
  have begun : (commence options >>= fun start =>
      settle (iterate solver options rules start budget) >>= conclude options) (.ofRun run) =
        (settle (iterate solver options rules start budget) >>= conclude options) t := by
    show EStateM.bind _ _ _ = _
    simp only [EStateM.bind, hstart]
  rw [begun]
  unfold Action.final Action.answer
  cases hsettle : settle (iterate solver options rules start budget) t with
  | ok status u =>
    obtain ⟨journal, hconclude⟩ : ∃ journal, conclude options status u =
        .ok status { u with journal := journal } := exists_conclude status
    rw [Action.bind_eq_ok.2 ⟨status, u, hsettle, hconclude⟩]
    exact ⟨rfl, rfl, rfl⟩
  | error e u =>
    rw [Action.bind_eq_error.2 (.inl hsettle)]
    exact ⟨rfl, rfl, rfl⟩

end Training

/-- The report of a run that ends in a state. -/
def TrainingReport.ofResult (lacksRules : Bool) : EStateM.Result (Failure α) (Training α) String →
    TrainingReport α
  | .ok status t =>
    ⟨.ok status, t.run.session, t.log, t.journal, t.run.timer, t.run.patience, lacksRules⟩
  | .error cause t =>
    ⟨.error cause, t.run.session, t.log, t.journal, t.run.timer, t.run.patience, lacksRules⟩

/-- Training is refused, or it performs a run and reports how it ends. -/
theorem train_eq (budget : ℕ) (request : TrainingRequest α) (session : Session α) :
    train solver budget request session =
      match (do let o ← TrainingOptions.check request; return (o, ← o.allRules)) with
      | .error cause => .refused session cause false
      | .ok (options, rules) =>
        match (do options.requireTimerAndSeed; Run.start session options) with
        | .error cause => .refused session cause rules.isEmpty
        | .ok run =>
            .ofResult rules.isEmpty
              (Training.perform solver options rules budget (.ofRun run)) := by
  unfold train
  cases (do let o ← TrainingOptions.check request; return (o, ← o.allRules) :
      Except (Failure α) (TrainingOptions α × List (StoppingRule α))) with
  | error cause => rfl
  | ok checked =>
    obtain ⟨options, rules⟩ := checked
    simp only
    cases (do options.requireTimerAndSeed; Run.start session options : Except (Failure α)
      (Run α)) with
    | error cause => rfl
    | ok run =>
      simp only
      cases Training.perform solver options rules budget (.ofRun run) <;> rfl

end Multistage
