import Multistage.Proofs.Training.Course

/-!
# Training with a limit on the iterations

A run whose only rule is a limit on its iterations does as many iterations as the limit says, unless
one of them fails.

## Main definitions

- `Training.close`: what follows a logged iteration whatever the rules say.
- `Training.step`, `Training.steps`: an iteration with its report, and a number of them.
- `TrainingRequest.withLimit`, `TrainingRequest.launch`: a request without other rules, and the run
  that it starts.

## Main statements

- `Training.iterate_of_limit`: the iterations of a run with a limit.
- `train_withLimit`: a run with a limit is announced, does its iterations and is summed up.
-/

namespace Multistage

variable {α : Type} [Scalar α] (solver : Solver α)

namespace Training

/-! ### Iterations one after the other -/

section

variable (options : TrainingOptions α) (start : Datum α)

/-- What follows a logged iteration, but for the rules: it is reported and counted. -/
def close : Action α (Training α) Unit := do
  onRun Run.heed
  onRun Run.heed
  reportIteration options
  modify fun t => { t with number := t.number + 1 }

/-- An iteration with its report. -/
def step : Action α (Training α) Unit := do
  iteration solver options.rootMeasure start
  close options

/-- A number of iterations with their reports. -/
def steps : ℕ → Action α (Training α) Unit
  | 0 => pure ()
  | n + 1 => do
    step solver options start
    steps n

theorem steps_add (m n : ℕ) :
    steps solver options start (m + n) =
      steps solver options start m >>= fun _ => steps solver options start n := by
  induction m with
  | zero => rw [Nat.zero_add]; rfl
  | succ m ih =>
    rw [Nat.add_right_comm]
    simp only [steps, ih, bind_assoc]

/-- Iterations depend on the measures and on what is reported. -/
theorem steps_congr (options' : TrainingOptions α) (hmeasure : options'.measure = options.measure)
    (hverbosity : options'.verbosity = options.verbosity) (n : ℕ) :
    steps solver options' start n = steps solver options start n := by
  have same : step solver options' start = step solver options start := by
    unfold step close reportIteration TrainingOptions.reportsAbove TrainingOptions.rootMeasure
    rw [hmeasure, hverbosity]
  induction n with
  | zero => rfl
  | succ n ih => simp only [steps, same, ih]

end

variable {solver} {options : TrainingOptions α} {start : Datum α} {t u : Training α}

/-- An iteration that is done is counted. -/
theorem number_of_step (h : step solver options start t = .ok ⟨⟩ u) : u.number = t.number + 1 := by
  obtain ⟨_, v, hiteration, hclose⟩ := Action.bind_eq_ok.1 h
  obtain ⟨-, -, -, -, -, -, number⟩ := iteration_eq_ok hiteration
  obtain ⟨_, w, hheed, hrest⟩ := Action.bind_eq_ok.1 hclose
  obtain ⟨_, x, hheed', hrest⟩ := Action.bind_eq_ok.1 hrest
  obtain ⟨_, y, hreport, hcount⟩ := Action.bind_eq_ok.1 hrest
  have before : w.progress = v.progress := ((ensures_onRun_progress _).ok rfl hheed).1
  have between : x.progress = w.progress := ((ensures_onRun_progress _).ok rfl hheed').1
  have after : y.progress = x.progress := (ensures_reportIteration_progress.ok rfl hreport).1
  cases hcount
  have same : y.number = v.number := congrArg Prod.snd (after.trans (between.trans before))
  exact congrArg (· + 1) (same.trans number)

/-- A limit is reached by the log whose last record has its number. -/
theorem firstConverged_of_limit {log : List (LogRecord α)} {record : LogRecord α} {k limit : ℤ}
    (h : record.iteration = .int k) :
    firstConverged (log ++ [record]) [.iterations limit] =
      .ok (if limit ≤ k then some "iteration_limit" else none) := by
  have converged :
      (StoppingRule.iterations limit).converged (log ++ [record]) = .ok (decide (limit ≤ k)) := by
    unfold StoppingRule.converged
    rw [List.getLast?_concat]
    show Datum.atMost _ record.iteration = _
    rw [h, Datum.atMost_int]
  unfold firstConverged
  rw [converged]
  by_cases hk : limit ≤ k
  · rw [decide_eq_true hk, if_pos hk]
    rfl
  · rw [decide_eq_false hk, if_neg hk]
    rfl

/-- Rules that agree on a verdict leave what follows a logged iteration as it is. -/
theorem judge_of_ok {verdict : Option String} (h : firstConverged t.log rules = .ok verdict) :
    judge options rules t = (close options >>= fun _ => pure verdict) t := by
  unfold judge close
  simp only [bind_assoc]
  cases hheed : onRun Run.heed t with
  | error e u => rw [Action.bind_eq_error.2 (.inl hheed), Action.bind_eq_error.2 (.inl hheed)]
  | ok b u =>
    have kept : u.progress = t.progress := ((ensures_onRun_progress _).ok rfl hheed).1
    have logged : u.log = t.log := congrArg Prod.fst kept
    rw [Action.bind_of_ok hheed, Action.bind_of_ok hheed, Action.get_bind_eq, logged, h]
    rfl

/-- A round with a limit is an iteration with its report; it is the last one if it reaches the
limit. -/
theorem round_of_limit (limit : ℤ) :
    round solver options [.iterations limit] start t =
      match step solver options start t with
      | .ok _ u => .ok (if limit ≤ t.number then some "iteration_limit" else none) u
      | .error e u => .error e u := by
  show (iteration solver options.rootMeasure start >>= fun _ => judge options _) t = _
  unfold step
  cases hiteration : iteration solver options.rootMeasure start t with
  | error e w =>
    rw [Action.bind_eq_error.2 (.inl hiteration), Action.bind_eq_error.2 (.inl hiteration)]
  | ok b w =>
    obtain ⟨forward, bound, x, time, -, hlog, -⟩ := iteration_eq_ok hiteration
    have verdict : firstConverged w.log [.iterations limit] =
        .ok (if limit ≤ t.number then some "iteration_limit" else none) := by
      rw [hlog]
      exact firstConverged_of_limit rfl
    rw [Action.bind_of_ok hiteration, Action.bind_of_ok hiteration, judge_of_ok verdict]
    cases hclose : close options w with
    | error e y => rw [Action.bind_eq_error.2 (.inl hclose)]
    | ok c y =>
      rw [Action.bind_of_ok hclose]
      rfl

/-- A run with a limit does the iterations that are missing to it. -/
theorem iterate_of_limit {limit missing budget : ℕ} (hlimit : limit = t.number + missing)
    (hbudget : missing < budget) :
    iterate solver options [.iterations limit] start budget t =
      (steps solver options start (missing + 1) >>= fun _ => pure "iteration_limit") t := by
  induction missing generalizing t budget with
  | zero =>
    obtain ⟨budget, rfl⟩ := Nat.exists_eq_add_one.2 hbudget
    rw [iterate_succ, round_of_limit]
    show _ = ((step solver options start >>= fun _ => pure ()) >>= fun _ =>
        pure "iteration_limit") t
    rw [bind_assoc]
    cases hstep : step solver options start t with
    | error e u => rw [Action.bind_eq_error.2 (.inl hstep)]
    | ok b u =>
      rw [Action.bind_of_ok hstep]
      simp only
      rw [if_pos (by omega)]
      rfl
  | succ missing ih =>
    obtain ⟨budget, rfl⟩ := Nat.exists_eq_add_one.2 (Nat.zero_lt_of_lt hbudget)
    rw [iterate_succ, round_of_limit]
    show _ = ((step solver options start >>= fun _ => steps solver options start (missing + 1)) >>=
      fun _ => pure "iteration_limit") t
    rw [bind_assoc]
    cases hstep : step solver options start t with
    | error e u => rw [Action.bind_eq_error.2 (.inl hstep)]
    | ok b u =>
      have counted : u.number = t.number + 1 := number_of_step hstep
      rw [Action.bind_of_ok hstep]
      simp only
      rw [if_neg (by omega)]
      exact ih (by omega) (by omega)

/-- A run with a limit: it is announced, iterates as often as the limit says and is summed up. -/
def performSteps (solver : Solver α) (options : TrainingOptions α) (limit : ℕ) :
    Action α (Training α) String := do
  let start ← commence options
  let status ← settle (do steps solver options start limit; return "iteration_limit")
  conclude options status

/-- What a run does with a limit as its only rule. -/
theorem perform_of_limit (solver : Solver α) (options : TrainingOptions α) (run : Run α)
    {limit budget : ℕ} (hlimit : 1 ≤ limit) (hbudget : limit ≤ budget) :
    perform solver { options with iterationLimit := .int limit } [.iterations limit] budget
      (.ofRun run) = performSteps solver options limit (.ofRun run) := by
  obtain ⟨missing, rfl⟩ := Nat.exists_eq_add_one.2 hlimit
  rw [perform_eq]
  show (commence options >>= _) (ofRun run) = (commence options >>= _) (ofRun run)
  cases hstart : commence options (ofRun run) with
  | error e u => rw [Action.bind_eq_error.2 (.inl hstart), Action.bind_eq_error.2 (.inl hstart)]
  | ok start u =>
    have begun : u.progress = ([], 1) := ((ensures_commence_progress options).ok rfl hstart).1
    have first : u.number = 1 := congrArg Prod.snd begun
    rw [Action.bind_of_ok hstart, Action.bind_of_ok hstart]
    have iterated : iterate solver { options with iterationLimit := .int (missing + 1 : ℕ) }
        [.iterations (missing + 1 : ℕ)] start budget u =
          (steps solver { options with iterationLimit := .int (missing + 1 : ℕ) } start
            (missing + 1) >>=
            fun _ => pure "iteration_limit") u :=
      iterate_of_limit (by omega) hbudget
    rw [steps_congr solver options start
      { options with iterationLimit := .int (missing + 1 : ℕ) } rfl rfl]
      at iterated
    show EStateM.bind _ _ u = EStateM.bind _ _ u
    unfold EStateM.bind settle
    rw [iterated]
    rfl

variable {start : Datum α} {t₁ u : Training α} {n : ℕ}

/-- A run whose iterations are all done has reached its limit. -/
theorem performSteps_eq_ok (hstart : commence options t = .ok start t₁)
    (h : steps solver options start n t₁ = .ok ⟨⟩ u) :
    ∃ journal, performSteps solver options n t =
      .ok "iteration_limit" { u with journal := journal } := by
  have settled : settle (do steps solver options start n; return "iteration_limit") t₁ =
      .ok "iteration_limit" u :=
    settle_eq_ok.2 (.inl (Action.bind_eq_ok.2 ⟨⟨⟩, u, h, rfl⟩))
  obtain ⟨journal, hconclude⟩ : ∃ journal, conclude options "iteration_limit" u =
      .ok "iteration_limit" { u with journal := journal } := exists_conclude _
  exact ⟨journal,
    Action.bind_eq_ok.2 ⟨start, t₁, hstart, Action.bind_eq_ok.2 ⟨_, u, settled, hconclude⟩⟩⟩

/-- How a run ends one of whose iterations fails. -/
theorem performSteps_of_error {e : Failure α} (hstart : commence options t = .ok start t₁)
    (h : steps solver options start n t₁ = .error e u) :
    performSteps solver options n t = (settle (fun _ => .error e u) >>= conclude options) t₁ := by
  have failed :
      (do steps solver options start n; return "iteration_limit" : Action α
        (Training α) String) t₁ =
      .error e u := Action.bind_eq_error.2 (.inl h)
  unfold performSteps
  rw [Action.bind_of_ok hstart]
  show EStateM.bind _ _ t₁ = EStateM.bind _ _ t₁
  unfold EStateM.bind settle
  rw [failed]

end Training

/-! ### Requests -/

theorem Datum.less_one {limit : ℕ} (h : 1 ≤ limit) :
    (Datum.int limit : Datum α).less (.int 1) = .ok false := by
  have atLeast : ¬((limit : ℤ) : ℚ) < ((1 : ℤ) : ℚ) := by
    rw [Int.cast_lt]
    omega
  exact congrArg Except.ok (decide_eq_false atLeast)

/-- How a run ends that one of its iterations ends. -/
def Failure.outcome : Failure α → Except (Failure α) String
  | .interrupted => .ok Training.interruptedStatus
  | e => .error e

omit [Scalar α] in
theorem Failure.outcome_ne_limit (e : Failure α) : e.outcome ≠ .ok "iteration_limit" := by
  cases e with
  | interrupted =>
    intro h
    have differ : Training.interruptedStatus ≠ "iteration_limit" := by decide
    exact differ (Except.ok.inj h)
  | _ => nofun

/-- The report of a run one of whose iterations fails. -/
theorem TrainingReport.ofResult_of_error {options : TrainingOptions α} {start : Datum α}
    {t t₁ u : Training α}
    {n : ℕ} {e : Failure α} (hstart : Training.commence options t = .ok start t₁)
    (h : Training.steps solver options start n t₁ = .error e u) :
    (ofResult false (Training.performSteps solver options n t)).outcome = e.outcome ∧
      (ofResult false (Training.performSteps solver options n t)).session = u.run.session ∧
      (ofResult false (Training.performSteps solver options n t)).log = u.log := by
  rw [Training.performSteps_of_error hstart h]
  by_cases hstop : e = .interrupted
  · subst hstop
    obtain ⟨journal, hconclude⟩ : ∃ journal,
        Training.conclude options Training.interruptedStatus u =
        .ok Training.interruptedStatus { u with journal := journal } := Training.exists_conclude _
    have ended :
        (Training.settle (fun _ => .error .interrupted u) >>= Training.conclude options) t₁ =
        .ok Training.interruptedStatus { u with journal := journal } :=
      Action.bind_eq_ok.2 ⟨_, u, rfl, hconclude⟩
    rw [ended]
    exact ⟨rfl, rfl, rfl⟩
  · have failed :
        ∃ journal, (Training.settle (fun _ => .error e u) >>= Training.conclude options) t₁ =
        .error e { u with journal := journal } := by
      cases e with
      | interrupted => exact absurd rfl hstop
      | _ => exact ⟨_, Action.bind_eq_error.2 (.inl rfl)⟩
    obtain ⟨journal, failed⟩ := failed
    rw [failed]
    refine ⟨?_, rfl, rfl⟩
    cases e with
    | interrupted => exact absurd rfl hstop
    | _ => rfl

namespace TrainingRequest

/-- The request with a limit on the iterations, or null, and without other rules. -/
def withLimit (request : TrainingRequest α) (limit : Datum α) : TrainingRequest α :=
  { request with
    options := { request.options with iterationLimit := limit, timeLimit := .null }
    rules := [] }

/-- The options of a request without rules, and the run that they start. -/
def launch (request : TrainingRequest α) (session : Session α) :
    Except (Failure α) (TrainingOptions α × Run α) := do
  let options ← TrainingOptions.check (request.withLimit .null)
  options.requireTimerAndSeed
  return (options, ← Run.start session options)

variable (request : TrainingRequest α) {limit : ℕ}

theorem launch_eq_error {session : Session α} {cause : Failure α}
    (h : TrainingOptions.check (request.withLimit .null) = .error cause) :
    request.launch session = .error cause := by
  unfold launch
  rw [h]
  rfl

theorem launch_eq {session : Session α} {options : TrainingOptions α}
    (h : TrainingOptions.check (request.withLimit .null) = .ok options) :
    request.launch session =
      (do options.requireTimerAndSeed; Run.start session options : Except (Failure α) (Run α)).map
        fun run => (options, run) := by
  unfold launch
  rw [h]
  show (options.requireTimerAndSeed >>= _) = (options.requireTimerAndSeed >>= _).map _
  cases options.requireTimerAndSeed with
  | error e => rfl
  | ok _ => cases Run.start session options <;> rfl

/-- A limit of at least one passes the checks. -/
theorem check_withLimit (h : 1 ≤ limit) :
    TrainingOptions.check (request.withLimit (.int limit)) =
      (TrainingOptions.check (request.withLimit .null)).map fun o =>
      { o with iterationLimit := .int limit } := by
  have admitted : ∀ failure : Failure α,
      TrainingOptions.refuseLimit (.int limit) (·.less (.int 1)) failure =
        .ok () := fun failure => by
    show (Datum.less _ _ >>= fun b => if b then .error failure else pure ()) = _
    rw [Datum.less_one h]
    rfl
  unfold TrainingOptions.check withLimit
  simp only [admitted]
  cases request.unknown.isEmpty with
  | false => rfl
  | true =>
    show (TrainingOptions.refuse _ _ >>= _) = (TrainingOptions.refuse _ _ >>= _).map _
    cases TrainingOptions.refuse (request.options.distance.less (.int 0)) .optionDistance with
    | error e => rfl
    | ok _ =>
      show (TrainingOptions.refuse _ _ >>= _) = (TrainingOptions.refuse _ _ >>= _).map _
      cases TrainingOptions.refuse (request.options.verbosity.less (.int 0)) .optionVerbosity with
      | error e => rfl
      | ok _ => cases request.scheme <;> rfl

/-- The only rule of a request with a limit is the limit. -/
theorem allRules_withLimit {options : TrainingOptions α}
    (h : TrainingOptions.check (request.withLimit .null) = .ok options) (hlimit : 1 ≤ limit) :
    TrainingOptions.allRules { options with iterationLimit := .int limit } =
      .ok [.iterations limit] := by
  obtain ⟨scheme, rules, -, hrules, rfl⟩ := TrainingOptions.check_eq_ok h
  cases hrules
  have rule : StoppingRule.iterations? (.int limit : Datum α) = .ok (.iterations limit) := by
    unfold StoppingRule.iterations?
    rw [Datum.less_one hlimit]
    rfl
  show (Except.map _ (StoppingRule.iterations? (.int limit : Datum α)) >>= _) = _
  rw [rule]
  rfl

end TrainingRequest

/-- A run with a limit does its iterations if it is launched. -/
theorem train_withLimit (request : TrainingRequest α) (session : Session α) {limit budget : ℕ}
    (hlimit : 1 ≤ limit) (hbudget : limit ≤ budget) :
    train solver budget (request.withLimit (.int limit)) session =
      match request.launch session with
      | .error cause => .refused session cause false
      | .ok (options, run) =>
          .ofResult false (Training.performSteps solver options limit (.ofRun run)) := by
  rw [train_eq]
  cases hcheck : TrainingOptions.check (request.withLimit .null) with
  | error cause =>
    have checked : (do
          let o ← TrainingOptions.check (request.withLimit (.int limit))
          return (o, ← o.allRules) :
        Except (Failure α) (TrainingOptions α × List (StoppingRule α))) = .error cause := by
      rw [request.check_withLimit hlimit, hcheck]
      rfl
    rw [checked, request.launch_eq_error hcheck]
  | ok options =>
    have checked : (do
          let o ← TrainingOptions.check (request.withLimit (.int limit))
          return (o, ← o.allRules) :
        Except (Failure α) (TrainingOptions α × List (StoppingRule α))) =
          .ok ({ options with iterationLimit := .int limit }, [.iterations limit]) := by
      rw [request.check_withLimit hlimit, hcheck]
      exact Except.bind_eq_ok.2
        ⟨_, rfl, Except.bind_eq_ok.2 ⟨_, request.allRules_withLimit hcheck hlimit, rfl⟩⟩
    rw [checked, request.launch_eq hcheck]
    simp only
    have same : (do
        TrainingOptions.requireTimerAndSeed { options with iterationLimit := .int limit }
        Run.start session { options with iterationLimit := .int limit }) =
          (do options.requireTimerAndSeed; Run.start session options : Except (Failure α)
            (Run α)) := rfl
    rw [same]
    cases (do options.requireTimerAndSeed; Run.start session options : Except (Failure α)
      (Run α)) with
    | error cause => rfl
    | ok run =>
      simp only [Except.map]
      rw [Training.perform_of_limit solver options run hlimit hbudget]
      rfl

end Multistage
