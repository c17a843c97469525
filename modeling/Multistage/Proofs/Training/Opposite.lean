import Multistage.Proofs.Linear.Certified
import Multistage.Proofs.Model.Opposite
import Multistage.Proofs.Session.Calls
import Multistage.Proofs.Training.Rounds

/-!
# Duality of the senses

A model and the model of the other sense, which is built from negated objectives with exchanged and
negated bounds, answer every call in the same way up to the sign of values: they draw the same
scenarios, leave the same states, record negative cuts with the same bookkeeping, and stop for the
same reason.

## Main definitions

- `Call.Opposes`: the same call of both models.
- `Cut.Opposes`, `Node.Opposes`, `Session.Opposes`: the same up to the sign of values.
- `LogRecord.Opposes`, `TrainingReport.Opposes`: the same for training.

## Main statements

- `Session.afterAll_mirror`: calls of the session of the other sense.
- `Session.opposes_of_build`: the duality of the senses.
-/

namespace Multistage

open Multistage.Action (Twin)

/-! ### Calls -/

/-- The same call of both models: training with stopping rules that do not see the sense, and
recorders that record the same of both subproblems up to the sign. -/
inductive Call.Opposes (o : Opposites) : Call ℚ → Call ℚ → Prop
  | train (budget : ℕ) {request : TrainingRequest ℚ} (h : request.Suits o) :
      Opposes o (.train budget request) (.train budget request)
  | bound (state : State ℚ) (measure : Measure ℚ) : Opposes o (.bound state measure)
    (.bound state measure)
  | simulate (names turned : List Name) {recorders recorders' : List (Name × Recorder ℚ)}
      (h : List.Forall₂ (Recorder.Opposes turned) recorders recorders') (replications : ℕ)
      {scheme : Scheme ℚ} (hscheme : scheme.Meets o) :
      Opposes o (.simulate names recorders replications scheme)
        (.simulate names recorders' replications scheme)
  | prune (index : Datum ℚ) : Opposes o (.prune index) (.prune index)

namespace Session

variable {o : Opposites} {s : Session ℚ} {call call' : Call ℚ}

theorem twin_prune (index : Datum ℚ) :
    Twin mirror id (Reserves o) (fun _ => True) (onModel (Model.onNode index Node.prune))
      (onModel (Model.onNode index Node.prune)) := twin_onModel (Model.twin_prune index)

/-- A call leaves the session of the other sense as the session of the other sense. -/
theorem after_mirror (h : call.Opposes o call') (hs : s.Reserves o) :
    after o.opposite s.mirror call' = (after o.solver s call).mirror ∧
    (after o.solver s call).Reserves o := by
  have final : ∀ {β : Type} {k : β → β} {R : β → Prop} {act act' : Action ℚ (Session ℚ) β},
      Twin mirror k (Reserves o) R act act' →
        act'.final s.mirror = (act.final s).mirror ∧ (act.final s).Reserves o := by
    intro β k R act act' htwin
    refine ⟨?_, htwin.keeps.final hs⟩
    unfold Action.final
    rw [htwin.mirrors s hs]
    cases act s <;> rfl
  cases h with
  | train budget h =>
    obtain ⟨hmirror, hreserves⟩ := train_mirror hs h budget
    exact ⟨congrArg TrainingReport.session hmirror, hreserves⟩
  | bound state measure => exact final (twin_bound state measure)
  | simulate names turned h replications hscheme =>
    exact final (twin_simulate names h replications hscheme)
  | prune index => exact final (twin_prune index)

/-- Calls leave the session of the other sense as the session of the other sense. -/
theorem afterAll_mirror {calls calls' : List (Call ℚ)}
    (h : List.Forall₂ (Call.Opposes o) calls calls') (hs : s.Reserves o) :
    afterAll o.opposite s.mirror calls' = (afterAll o.solver s calls).mirror ∧
      (afterAll o.solver s calls).Reserves o := by
  induction h generalizing s with
  | nil => exact ⟨rfl, hs⟩
  | cons hcall _ ih =>
    obtain ⟨hmirror, hreserves⟩ := after_mirror hcall hs
    unfold afterAll
    rw [List.foldl_cons, List.foldl_cons, hmirror]
    exact ih hreserves

end Session

/-! ### The same up to the sign -/

/-- The cuts are negative to each other and have the same bookkeeping. -/
structure Cut.Opposes (c c' : Cut ℚ) : Prop where
  intercept : c'.intercept = -c.intercept
  coefficients : c'.coefficients = c.coefficients.mapValues fun _ a => -a
  constraint : c'.constraint? = c.constraint?
  count : c'.count = c.count
  removed : c'.removed = c.removed

/-- The nodes have opposite cuts, installed by constraints that take part in solves of both or of
none. -/
structure Node.Opposes (n n' : Node ℚ) : Prop where
  cuts : List.Forall₂ Cut.Opposes n.cuts.pool.cuts n'.cuts.pool.cuts
  active : n'.stage.subproblem.constraints.map (·.active) =
    n.stage.subproblem.constraints.map (·.active)

/-- The sessions have opposite nodes, and will read the same times and draw the same numbers. -/
structure Session.Opposes (s s' : Session ℚ) : Prop where
  nodes : List.Forall₂
    (fun e e' => e'.1 = e.1 ∧ e.2.Opposes e'.2) s.model.nodes.entries s'.model.nodes.entries
  sense : s'.model.sense = s.model.sense.flip
  draws : s'.draws = s.draws
  clock : s'.clock = s.clock
  stopwatch : s'.stopwatch = s.stopwatch

/-- The records have negative bounds and values of the same iteration at the same time. -/
structure LogRecord.Opposes (r r' : LogRecord ℚ) : Prop where
  iteration : r'.iteration = r.iteration
  time : r'.time = r.time
  bound : r'.bound = r.bound.negated
  simulation : r'.simulation = r.simulation.negated

/-- The runs ended in the same way, with opposite records, and left opposite sessions. -/
structure TrainingReport.Opposes (r r' : TrainingReport ℚ) : Prop where
  outcome : r'.outcome = r.outcome
  log : List.Forall₂ LogRecord.Opposes r.log r'.log
  session : r.session.Opposes r'.session

theorem Node.opposes_mirror (n : Node ℚ) : n.Opposes n.mirror where
  cuts := List.forall₂_map_right_iff.2 (List.forall₂_same.2 fun _ _ => ⟨rfl, rfl, rfl, rfl, rfl⟩)
  active := by
    refine (List.map_map ..).trans (List.map_congr_left fun c _ => ?_)
    show (c.mirror _).active = c.active
    unfold Constraint.mirror
    split <;> rfl

theorem Session.opposes_mirror (s : Session ℚ) : s.Opposes s.mirror where
  nodes := List.forall₂_map_right_iff.2 (List.forall₂_same.2 fun e _ => ⟨rfl, e.2.opposes_mirror⟩)
  sense := rfl
  draws := rfl
  clock := rfl
  stopwatch := rfl

theorem TrainingReport.opposes_mirror (r : TrainingReport ℚ) : r.Opposes r.mirror where
  outcome := rfl
  log := List.forall₂_map_right_iff.2 (List.forall₂_same.2 fun _ _ => ⟨rfl, rfl, rfl, rfl⟩)
  session := r.session.opposes_mirror

namespace Session

variable {o : Opposites} {s : Session ℚ}

/-- Both sessions answer with opposite answers. -/
theorem answer_mirror {β : Type} {k : β → β} {R : β → Prop} {act act' : Action ℚ (Session ℚ) β}
    (h : Twin mirror k (Reserves o) R act act') (hs : s.Reserves o) :
    (act'.answer s.mirror).map (·.1) = (act.answer s).map fun a => k a.1 := by
  unfold Action.answer
  rw [h.mirrors s hs]
  cases act s <;> rfl

/-- Duality of the senses. From negated objectives, with the bounds of value terms exchanged and
negated, the model of the other sense is built, and after any calls of both models their cuts are
negative to each other with the same counts and installed alike. Training then ends in the same way
after as many records at the same times, with negative bounds and values, through the same scenarios
and states; and bounds, simulations and prunings answer alike. -/
theorem opposes_of_build {graph : Graph ℚ} {settings : CutSettings ℚ} {sense : Sense}
    {plans : StagePlans ℚ}
    {m : Model ℚ} (hbuild : Model.build graph settings (.text sense.word) plans = .ok m)
    (hm : m.Opposable o) :
    ∃ m', Model.build graph settings.mirror (.text sense.flip.word) plans.mirror = .ok m' ∧
      ∀ (draws : Draws ℚ) (clock stopwatch : Clock (Datum ℚ)) (calls calls' : List (Call ℚ)),
        List.Forall₂ (Call.Opposes o) calls calls' → ∀ s s',
          s = afterAll o.solver ⟨m, draws, clock, stopwatch⟩ calls →
          s' = afterAll o.opposite ⟨m', draws, clock, stopwatch⟩ calls' →
            s.Opposes s' ∧
            (∀ budget request, request.Suits o →
              (train o.solver budget request s).Opposes (train o.opposite budget request s') ∧
              trainPasses o.opposite budget request s' =
                (trainPasses o.solver budget request s).map fun f => ⟨f.path, f.states, -f.value⟩) ∧
            (∀ (state : State ℚ) measure, ((bound o.opposite state measure).answer s').map (·.1) =
              ((bound o.solver state measure).answer s).map fun a => -a.1) ∧
            (∀ names turned recorders recorders' replications scheme,
              List.Forall₂ (Recorder.Opposes turned) recorders recorders' → scheme.Meets o →
              ((simulate o.opposite names recorders' replications scheme).answer s').map (·.1) =
                ((simulate o.solver names recorders replications scheme).answer s).map fun a =>
                  a.1.map (List.map (VisitRecord.mirror names (recorders.map (·.1)) turned))) ∧
            ∀ index, ((onModel (Model.onNode index Node.prune)).answer s').map (·.1) =
              ((onModel (Model.onNode index Node.prune)).answer s).map (·.1) := by
  refine ⟨m.mirror, Model.build_mirror hbuild fun e he => (hm e he).negatable, ?_⟩
  rintro draws clock stopwatch calls calls' hcalls s _ rfl rfl
  have start : Reserves o ⟨m, draws, clock, stopwatch⟩ := Model.reserves_of_build hbuild hm
  obtain ⟨hmirror, hs⟩ := afterAll_mirror hcalls start
  rw [show (⟨m.mirror, draws, clock, stopwatch⟩ : Session ℚ) =
    mirror ⟨m, draws, clock, stopwatch⟩ from rfl,
    hmirror]
  refine ⟨opposes_mirror _, fun budget request hr => ⟨?_, trainPasses_mirror hs hr budget⟩,
    fun state measure => answer_mirror (twin_bound state measure) hs, ?_, fun index =>
      answer_mirror (twin_prune index) hs⟩
  · rw [(train_mirror hs hr budget).1]
    exact TrainingReport.opposes_mirror _
  · intro names turned recorders recorders' replications scheme hrecorders hscheme
    exact answer_mirror (twin_simulate names hrecorders replications hscheme) hs

end Session

/-! ### The solver of the other sense -/

/-- The answers of a solver to programs with a variable exchanged for its negative. -/
def Solver.reflected (j : ℕ) (solver : Solver ℚ) : Solver ℚ :=
    fun p => (solver (p.reflect j)).reflect j

theorem Outcome.reflect_reflect (j : ℕ) (out : Outcome ℚ) : (out.reflect j).reflect j = out := by
  cases out with
  | optimal point value marginals =>
    have twice : (point.modify j (-·)).modify j (-·) = point := by
      refine List.ext_getElem? fun i => ?_
      rw [List.getElem?_modify, List.getElem?_modify]
      cases point[i]? with
      | none => rfl
      | some x => by_cases hi : j = i <;> simp [hi]
    simp only [reflect, twice]
  | _ => rfl

theorem Solver.reflects_reflected (j : ℕ) (solver : Solver ℚ) :
    (solver.reflected j).Reflects solver j :=
  fun _ _ _ => (Outcome.reflect_reflect j _).symm

namespace Session

/-- Two stages that earn minus ten and minus eleven. The bound is minus twenty-one, and twenty-one
for the stages of the other sense. -/
theorem opposes_of_two_stages :
    ∃ (graph : Graph ℚ) (m m' : Model ℚ) (s s' : Session ℚ) (o : Opposites)
      (request : TrainingRequest ℚ),
      Graph.ofEdges (.int 0) [.int 1, .int 2]
        [(.int 0, .int 1, .real 1), (.int 1, .int 2, .real 1)] [] = .ok graph ∧
      Model.build graph ⟨.negInf, .finite 0, 0⟩ (.text "max")
        (StagePlans.mirror ⟨[([.int 2], carrying 11)], carrying 10⟩) = .ok m ∧
      m.Opposable o ∧ request.Suits o ∧
      Model.build graph (CutSettings.mirror ⟨.negInf, .finite 0, 0⟩) (.text "min")
        (StagePlans.mirror (StagePlans.mirror ⟨[([.int 2], carrying 11)], carrying 10⟩)) = .ok m' ∧
      s.model = m ∧ s'.model = m' ∧
      ((train o.solver 2 request s).log.map (·.bound)).mapM Datum.asNumber = .ok [-21, -21] ∧
      ((train o.opposite 2 request s').log.map (·.bound)).mapM Datum.asNumber = .ok [21, 21] := by
  let clock : Clock (Datum ℚ) := .ofReadings fun _ => .int 0
  let request : TrainingRequest ℚ :=
    { options := { TrainingOptions.standard with iterationLimit := .int 2 } }
  let o : Opposites :=
    ⟨carryingSolver.reflected 3, carryingSolver, fun _ _ => True, fun _ _ _ => rfl⟩
  have check : (do
      let graph ← Graph.ofEdges (.int 0) [.int 1, .int 2]
        [(.int 0, .int 1, .real 1), (.int 1, .int 2, .real 1)] []
      let m ← Model.build graph ⟨.negInf, .finite 0, 0⟩ (.text "max")
        (StagePlans.mirror ⟨[([.int 2], carrying 11)], carrying 10⟩)
      let report := train o.solver 2 request ⟨m, List.replicate 8 0, clock, clock⟩
      let logged ← (report.log.map (·.bound)).mapM Datum.asNumber
      if logged = [-21, -21] ∧ ∀ e ∈ m.nodes.entries, e.2.stage.objective.neg.toBool = true ∧
          e.2.stage.edits.isEmpty = true ∧ e.2.cuts.term.index = 3 then return ()
        else .error .missingKey : Except (Failure ℚ) Unit).toBool = true := by
    decide +kernel
  simp only [Except.toBool_bind, Except.toBool_ite] at check
  obtain ⟨graph, hgraph, m, hm, logged, hlogged, rfl, hnodes⟩ := check
  have opposable : m.Opposable o := by
    intro e he
    obtain ⟨hneg, hedits, hterm⟩ := hnodes e he
    have none : e.2.stage.edits = [] := List.isEmpty_iff.1 hedits
    refine ⟨Except.exists_of_toBool hneg, fun value hvalue => ?_, fun _ _ => trivial, ?_⟩
    · rw [none] at hvalue
      cases hvalue
    · rw [hterm]
      exact Solver.reflects_reflected 3 carryingSolver
  have suits : request.Suits o := by
    refine ⟨fun scheme hscheme => ?_, nofun⟩
    cases hscheme
    trivial
  have built : Model.build graph ⟨.negInf, .finite 0, 0⟩ (.text Sense.max.word)
      (StagePlans.mirror ⟨[([.int 2], carrying 11)], carrying 10⟩) = .ok m := hm
  obtain ⟨m', hm', dual⟩ := opposes_of_build built opposable
  obtain ⟨-, trained, -⟩ := dual (List.replicate 8 0) clock clock [] [] .nil _ _ rfl rfl
  refine ⟨graph, m, m', _, ⟨m', List.replicate 8 0, clock, clock⟩, o, request, hgraph, hm,
    opposable, suits,
    hm', rfl, rfl, hlogged, ?_⟩
  have bounds :
      (train o.opposite 2 request ⟨m', List.replicate 8 0, clock, clock⟩).log.map (·.bound) =
      ((train o.solver 2 request ⟨m, List.replicate 8 0, clock, clock⟩).log.map (·.bound)).map
        Datum.negated := by
    have opposed := (trained 2 request suits).1.log
    rw [List.map_map, ← List.forall₂_eq_eq_eq, List.forall₂_map_left_iff,
      List.forall₂_map_right_iff]
    exact opposed.flip.imp fun _ _ h => h.bound
  rw [bounds]
  refine Except.mapM_map_of_ok (g := (-·)) hlogged fun d _ x _ hx => ?_
  rw [Datum.asNumber_negated, hx]
  rfl

end Session

end Multistage
