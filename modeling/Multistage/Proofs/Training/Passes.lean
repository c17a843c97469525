import Multistage.Proofs.Training.Keeping

/-!
# The forward passes of training

Training answers with its log, which has the values of the forward passes but not the scenarios that
they went through. The passes themselves are those with which its iterations begin.

## Main definitions

- `Training.passes`, `trainPasses`: the forward passes of iterations, and of a training run.

## Main statements

- `Training.perform_eq`: a run is announced, iterated and summed up.
- `Training.exists_valued_iterate`, `exists_values_train`: the log has the values of the forward
  passes in their order, also if training fails before it comes to the last.
-/

namespace Multistage

variable {α : Type} [Scalar α] (solver : Solver α)

namespace Training

/-- The forward pass of an iteration. -/
def forwardPass : Action α (Training α) (ForwardResult α) :=
  onRun (Run.timed .forwardPass (Run.forward solver))

variable (options : TrainingOptions α) (rules : List (StoppingRule α)) (start : Datum α)

/-- The forward passes of the iterations within a budget. -/
def passes : (budget : ℕ) → Training α → List (ForwardResult α)
  | 0, _ => []
  | budget + 1, t =>
    match forwardPass solver t with
    | .error _ _ => []
    | .ok forward _ =>
      forward :: match round solver options rules start t with
        | .ok none u => passes budget u
        | _ => []

/-- After what was logged in a state, the values of forward passes were logged. -/
def Valued (t : Training α) (logged : List (ForwardResult α)) (u : Training α) : Prop :=
  u.log.map (·.simulation) = t.log.map (·.simulation) ++ logged.map fun f => .real f.value

variable {t : Training α}

omit [Scalar α] in
theorem valued_self : t.Valued [] t := (List.append_nil _).symm

omit [Scalar α] in
theorem Valued.trans {u v : Training α} {logged logged' : List (ForwardResult α)}
    (h : t.Valued logged u) (h' : u.Valued logged' v) : t.Valued (logged ++ logged') v := by
  unfold Valued at *
  rw [h', h, List.map_append, List.append_assoc]

omit [Scalar α] in
theorem ensures_valued {β : Type} {logged : List (ForwardResult α)} (act : Action α (Run α) β) :
    Action.Ensures (t.Valued logged) (onRun act) fun _ => True :=
  .elsewhere act fun _ _ => id

/-- An iteration logs the value of its forward pass, or fails before. -/
theorem triple_iteration (measure : Measure α) :
    Action.Triple (· = t) (iteration solver measure start)
      (fun _ u => ∃ f v, forwardPass solver t = .ok f v ∧ t.Valued [f] u) (t.Valued []) := by
  have ran : ∀ {β : Type} (act : Action α (Run α) β),
      Action.Triple (t.Valued []) (onRun act) (fun _ => t.Valued []) (t.Valued []) := fun act =>
    (ensures_valued act).consequence (fun _ => id) (fun _ _ => And.left) fun _ => id
  have forth : Action.Triple (· = t) (forwardPass solver)
      (fun f u => (∃ v, forwardPass solver t = .ok f v) ∧ t.Valued [] u) (t.Valued []) :=
    .of_cases (by rintro _ f u rfl h; exact ⟨⟨u, h⟩, ((ensures_valued _).ok valued_self h).1⟩)
      (by rintro _ e u rfl h; exact (ensures_valued _).error valued_self h)
  refine .bind forth fun f => .of_forall fun u ⟨⟨v, hf⟩, hu⟩ => ?_
  refine Action.Triple.startingAt (P := t.Valued []) ?_ hu
  refine .bind (ran _) fun _ => .bind (ran _) fun bound => .bind (ran _) fun _ =>
    .bind (ran _) fun now => ?_
  refine .ofExcept_bind (fun time _ => .modify fun u hu => ⟨f, v, hf, ?_⟩) fun _ => id
  simp only [Valued, List.map_append, List.map_singleton, List.map_nil, List.append_nil] at hu ⊢
  rw [hu]

/-- A round logs the value of its forward pass, unless it fails before. -/
theorem triple_round :
    Action.Triple (· = t) (round solver options rules start)
      (fun _ u => ∃ f v, forwardPass solver t = .ok f v ∧ t.Valued [f] u)
      fun u => t.Valued [] u ∨ ∃ f v, forwardPass solver t = .ok f v ∧ t.Valued [f] u := by
  refine .bind ((triple_iteration solver start _).consequence (fun _ => id) (fun _ _ => id)
    fun _ => .inl) fun _ => .of_forall fun u ⟨f, v, hf, hu⟩ => ?_
  have told : Action.Ensures (t.Valued [f]) (reportIteration options) fun _ => True := by
    refine .ite (fun _ => .bind .get fun w _ => ?_) fun _ => .pure trivial
    split
    · refine .bind (.forM fun d _ => ?_) fun _ _ => .modify fun _ => id
      exact (Action.Ensures.ofExcept (R := fun _ => True) fun _ _ => trivial).bind fun _ _ =>
        .pure trivial
    · exact .pure trivial
  have judged : Action.Ensures (t.Valued [f]) (do
      onRun Run.heed
      let verdict ← Action.ofExcept (firstConverged (← get).log rules)
      onRun Run.heed
      reportIteration options
      modify fun t => { t with number := t.number + 1 }
      return verdict) fun _ => True :=
    .bind (ensures_valued _) fun _ _ => .bind .get fun w _ =>
      .bind (.ofExcept fun _ _ => trivial) fun verdict _ => .bind (ensures_valued _) fun _ _ =>
        .bind told fun _ _ => .bind (.modify fun _ => id) fun _ _ => .pure trivial
  exact (judged.startingAt hu).consequence (fun _ => id) (fun _ _ hw => ⟨f, v, hf, hw.1⟩)
    fun _ hw => .inr ⟨f, v, hf, hw⟩

/-- Iterations log the values of their forward passes, in the order of the passes; if they fail, the
value of the last one may not be logged. -/
theorem exists_valued_iterate (budget : ℕ) :
    ∃ logged, logged <+: passes solver options rules start budget t ∧
    t.Valued logged ((iterate solver options rules start budget).final t) := by
  induction budget generalizing t with
  | zero => exact ⟨[], List.nil_prefix, valued_self⟩
  | succ budget ih =>
    have ended : ∀ u, (t.Valued [] u ∨ ∃ f v, forwardPass solver t = .ok f v ∧ t.Valued [f] u) →
        ∃ logged, logged <+: passes solver options rules start (budget + 1) t ∧
          t.Valued logged u := by
      rintro u (hu | ⟨f, v, hf, hu⟩)
      · exact ⟨[], List.nil_prefix, hu⟩
      · refine ⟨[f], ?_, hu⟩
        unfold passes
        rw [hf]
        exact List.prefix_append [f] _
    unfold Action.final
    rw [iterate_succ]
    cases hr : round solver options rules start t with
    | error e u => exact ended u ((triple_round solver options rules start).error rfl hr)
    | ok verdict u =>
      have once := (triple_round solver options rules start).ok rfl hr
      cases verdict with
      | some status => exact ended u (.inr once)
      | none =>
        obtain ⟨f, v, hf, hu⟩ := once
        obtain ⟨logged, hlogged, hrest⟩ := @ih u
        refine ⟨f :: logged, ?_, hu.trans hrest⟩
        unfold passes
        rw [hf, hr]
        exact (List.prefix_cons_inj f).2 hlogged

/-- What a run does before its first iteration: it is announced, and the time is read. -/
def commence : Action α (Training α) (Datum α) := do
  if options.reportsAbove 0 then
    report (.started (← get).run.session.model.nodes.size)
    report .headings
  onRun (Run.onSession Session.readClock)

/-- A run is summed up after its last iteration. -/
def conclude (status : String) : Action α (Training α) String := do
  if options.reportsAbove 1 then report (.times (← get).run.timer)
  report (.ended status (← get).log.length)
  return status

theorem perform_eq (budget : ℕ) : perform solver options rules budget =
    (commence options >>= fun start =>
      settle (iterate solver options rules start budget) >>= conclude options) := by
  unfold perform commence
  cases options.reportsAbove 0 with
  | true => rfl
  | false => rfl

/-- The forward passes of a run that is announced first. -/
def performed (budget : ℕ) (t : Training α) : List (ForwardResult α) :=
  match commence options t with
  | .error _ _ => []
  | .ok start u => passes solver options rules start budget u

/-- A run logs the values of its forward passes. -/
theorem exists_valued_perform (budget : ℕ) :
    ∃ logged, logged <+: performed solver options rules budget t ∧
      t.Valued logged ((perform solver options rules budget).final t) := by
  have report : ∀ logged event, Action.Ensures (t.Valued logged) (report event) fun _ => True :=
    fun logged event => .modify fun _ => id
  have commenced : Action.Ensures (t.Valued []) (commence options) fun _ => True :=
    .ite (fun _ => .bind .get fun _ _ => .bind (report _ _) fun _ _ => .bind (report _ _) fun _ _ =>
      ensures_valued _) fun _ => ensures_valued _
  let Logged (u : Training α) : Prop :=
    ∃ logged, logged <+: performed solver options rules budget t ∧ t.Valued logged u
  suffices h :
      Action.Triple (· = t) (perform solver options rules budget) (fun _ => Logged) Logged by
    unfold Action.final
    cases hr : perform solver options rules budget t with
    | ok status u => exact h.ok rfl hr
    | error e u => exact h.error rfl hr
  rw [perform_eq]
  refine .bind (Q := fun start u => commence options t = .ok start u ∧ t.Valued [] u) ?_
    fun start => ?_
  · refine .of_cases ?_ ?_
    · rintro _ start u rfl hr
      exact ⟨hr, (commenced.ok valued_self hr).1⟩
    · rintro _ e u rfl hr
      exact ⟨[], List.nil_prefix, commenced.error valued_self hr⟩
  refine .of_forall fun u ⟨hstart, hu⟩ => ?_
  have iterated : ∀ w, w = (iterate solver options rules start budget).final u → Logged w := by
    rintro _ rfl
    obtain ⟨logged, hlogged, hvalued⟩ :=
      exists_valued_iterate (t := u) solver options rules start budget
    refine ⟨logged, ?_, hu.trans hvalued⟩
    unfold performed
    rwa [hstart]
  refine .bind (Q := fun _ => Logged) (triple_settle (fun _ _ => id) (.of_cases ?_ ?_))
    fun status => ?_
  · rintro _ status w rfl hr
    exact iterated w (by rw [Action.final_of_ok hr])
  · rintro _ e w rfl hr
    exact iterated w (by unfold Action.final; rw [hr])
  · have ended : Action.Ensures Logged (conclude options status) fun _ => True := by
      refine .ite (fun _ => .bind .get fun _ _ => .bind (.modify fun _ => id) fun _ _ => ?_)
        fun _ => ?_
      all_goals exact .bind .get fun _ _ => .bind (.modify fun _ => id) fun _ _ => .pure trivial
    exact ended.consequence (fun _ => id) (fun _ _ => And.left) fun _ => id

end Training

/-- The forward passes of a training run. -/
def trainPasses (budget : ℕ) (request : TrainingRequest α) (session : Session α) :
    List (ForwardResult α) :=
  match (do let o ← TrainingOptions.check request; return (o, ← o.allRules)) with
  | .error _ => []
  | .ok (options, rules) =>
    match (do options.requireTimerAndSeed; Run.start session options) with
    | .error _ => []
    | .ok run => Training.performed solver options rules budget (.ofRun run)

/-- Training logs the values of its forward passes in their order; if it fails or is interrupted,
the value of the last one may not be logged. -/
theorem exists_values_train (budget : ℕ) (request : TrainingRequest α) (session : Session α) :
    ∃ logged, logged <+: trainPasses solver budget request session ∧
      (train solver budget request session).log.map (·.simulation) =
        logged.map fun f => .real f.value := by
  unfold train trainPasses
  cases (do let o ← TrainingOptions.check request; return (o, ← o.allRules) :
      Except (Failure α) (TrainingOptions α × List (StoppingRule α))) with
  | error cause => exact ⟨[], List.nil_prefix, rfl⟩
  | ok checked =>
    obtain ⟨options, rules⟩ := checked
    simp only
    cases (do options.requireTimerAndSeed; Run.start session options : Except (Failure α)
      (Run α)) with
    | error cause => exact ⟨[], List.nil_prefix, rfl⟩
    | ok run =>
      obtain ⟨logged, hlogged, hvalued⟩ :=
        Training.exists_valued_perform (t := .ofRun run) solver options rules budget
      refine ⟨logged, hlogged, ?_⟩
      unfold Action.final at hvalued
      simp only
      cases hr : Training.perform solver options rules budget (.ofRun run) with
      | ok status t =>
        rw [hr] at hvalued
        exact hvalued
      | error cause t =>
        rw [hr] at hvalued
        exact hvalued

end Multistage
