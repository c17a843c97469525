import Multistage.Proofs.Node.Alike
import Multistage.Proofs.Node.Seating

/-!
# Solves do not depend on earlier ones

A node is refined, pruned and solved again and again, for whatever states and realizations of the
noise. What is solved next depends on the cuts that are installed, and on nothing else that was done
before: the program is the same but for the order of its rows.

## Main definitions

- `Node.Answering`: the nodes that refinements, pruning and solves that answer lead to.
- `Node.Submits`: the program that a solve gives to the solver.

## Main statements

- `Node.solve_congr`: a solve uses the solver for this program only.
- `Node.solve_independent`: two histories with the same installed cuts.
-/

namespace Multistage

namespace Node

/-- The nodes that refinements and pruning lead to, whether they fail or not, and solves that
answer, with any solvers. -/
inductive Answering (sense : Sense) (start : Node ℚ) : Node ℚ → Prop
  | start : Answering sense start start
  | refined {n : Node ℚ} (before : Answering sense start n) (measure : Measure ℚ) (x : State ℚ)
      (duals : List (State ℚ)) (probabilities objectives : List ℚ) :
      Answering sense start ((refine sense measure x duals probabilities objectives).final n)
  | pruned {n : Node ℚ} (before : Answering sense start n) : Answering sense start (prune.final n)
  | solved {solver : Solver ℚ} {n n' : Node ℚ} {x : State ℚ} {noise : Datum ℚ} {needsDuals : Bool}
      {answer : Solution ℚ} (before : Answering sense start n)
      (run : solve solver sense x noise needsDuals n = .ok answer n') : Answering sense start n'

/-- A solve for a state and a realization of the noise gives the program to the solver. -/
def Submits (sense : Sense) (x : State ℚ) (noise : Datum ℚ) (n : Node ℚ) (q : Program ℚ) : Prop :=
  ∃ m, pose sense x noise n = .ok () m ∧ m.stage.subproblem.program = .ok q

variable {sense : Sense} {start n n' : Node ℚ} {x : State ℚ} {noise : Datum ℚ}
  {solver solver' : Solver ℚ}
  {needsDuals : Bool} {q : Program ℚ}

/-! ### What is submitted -/

/-- A solve uses the solver for the program that it gives to the solver only. -/
theorem solve_congr (h : ∀ q, n.Submits sense x noise q → solver q = solver' q) :
    solve solver sense x noise needsDuals n = solve solver' sense x noise needsDuals n := by
  rw [solve_eq, solve_eq]
  show EStateM.bind _ _ n = EStateM.bind _ _ n
  unfold EStateM.bind
  cases posed : pose sense x noise n with
  | ok _ m =>
    generalize hp : m.stage.subproblem = p
    have optimized : Subproblem.optimize solver p = Subproblem.optimize solver' p := by
      show EStateM.bind (Action.ofExcept p.program) (fun q => set (p.withOutcome (solver q))) p =
        EStateM.bind (Action.ofExcept p.program) (fun q => set (p.withOutcome (solver' q))) p
      cases hq : p.program with
      | ok q =>
        show EStateM.Result.ok PUnit.unit (p.withOutcome (solver q)) =
            .ok PUnit.unit (p.withOutcome (solver' q))
        rw [h q ⟨m, posed, hp ▸ hq⟩]
      | error e => rfl
    have solved : onSubproblem (Subproblem.optimize solver) m =
        onSubproblem (Subproblem.optimize solver') m := by
      rw [onSubproblem_eq, onSubproblem_eq, hp, optimized]
    show EStateM.bind _ _ m = EStateM.bind _ _ m
    unfold EStateM.bind
    rw [solved]
  | error e m => rfl

/-- A solve that answers gave a program to the solver. -/
theorem exists_submits {answer : Solution ℚ}
    (hrun : solve solver sense x noise needsDuals n = .ok answer n') :
    ∃ q, n.Submits sense x noise q := by
  rw [solve_eq] at hrun
  obtain ⟨_, m, posed, hrun⟩ := Action.bind_eq_ok.1 hrun
  obtain ⟨_, _, solved, -⟩ := Action.bind_eq_ok.1 hrun
  rw [onSubproblem_eq] at solved
  cases optimized : Subproblem.optimize solver m.stage.subproblem with
  | ok _ p =>
    obtain ⟨q, hq, -⟩ := Subproblem.optimize_eq_ok optimized
    exact ⟨q, m, posed, hq⟩
  | error e p =>
    rw [optimized] at solved
    cases solved

theorem not_submits {m : Node ℚ} {e : Failure ℚ} (posed : pose sense x noise n = .ok () m)
    (h : m.stage.subproblem.program = .error e) (q : Program ℚ) : ¬n.Submits sense x noise q := by
  rintro ⟨_, posed', hq⟩
  cases posed.symm.trans posed'
  cases h.symm.trans hq

/-! ### Histories -/

/-- What holds of a node whose solves answered. -/
structure Kempt (sense : Sense) (start n : Node ℚ) : Prop where
  used : Used sense start [] n
  backed : Backed sense start.rowCount n
  seated : Seated sense n
  posed : n.stage.objectiveInstalled = true → start.Poses

theorem Answering.kempt (hb : start.Blank) (h : Answering sense start n) : Kempt sense start n := by
  induction h with
  | start =>
    refine ⟨used_of_blank hb, backed_of_blank hb, seated_of_blank hb, fun hi => ?_⟩
    rw [hb.tidy.installed] at hi
    cases hi
  | refined before measure x duals probabilities objectives ih =>
    have flag : Action.Ensures (fun n : Node ℚ => n.stage.objectiveInstalled = true → start.Poses)
        (refine sense measure x duals probabilities objectives) fun _ => True :=
      ensures_refine fun c height _ => ensures_addCut (fun _ _ _ h _ _ => h) (fun _ _ h _ => h)
        fun _ _ _ _ h _ _ _ => h
    exact ⟨(used_refine _ _ _ _ _).final ih.used, (backed_refine _ _ _ _ _).final ih.backed,
      (seated_refine _ _ _ _ _).final ih.seated, flag.final ih.posed⟩
  | pruned before ih =>
    have flag : Action.Ensures
        (fun n : Node ℚ => n.stage.objectiveInstalled = true → start.Poses) prune
        fun _ => True := ensures_prune fun _ _ _ _ h _ _ => h
    exact ⟨used_prune.final ih.used, backed_prune.final ih.backed, seated_prune.final ih.seated,
      flag.final ih.posed⟩
  | solved before run ih =>
    obtain ⟨⟨used, same⟩, -⟩ := (triple_solve hb ih.used _).ok rfl run
    rw [solve_eq] at run
    obtain ⟨_, m, posed, -⟩ := Action.bind_eq_ok.1 run
    exact ⟨used, ih.backed.of_sameCuts ih.used used same, ih.seated.of_sameCuts ih.used used same,
      fun _ => poses_of_pose hb ih.used ih.posed posed⟩

/-- Two histories that leave the same cuts installed. -/
theorem Kempt.paired (h : Kempt sense start n) (h' : Kempt sense start n')
    (hperm : n'.installed.Perm n.installed) : Paired sense start n n' where
  left := h.used
  right := h'.used
  backed := h.backed
  rows := later_perm h.used h'.used h.backed h'.backed h.seated h'.seated hperm
  installed := fun hnot => by
    rw [Bool.eq_false_iff.2 (mt h.posed hnot), Bool.eq_false_iff.2 (mt h'.posed hnot)]

/-- After any two histories that leave the same cuts installed, the next solve for the same state
and the same realization of the noise gives the solver the same program but for the order of its
rows, or none at all. A solver that ignores this order gives the same answer, or both solves
fail. -/
theorem solve_independent {graph : Graph ℚ} {settings : CutSettings ℚ} {plans : StagePlans ℚ}
    {index : Datum ℚ} (hbuilt : Model.BuiltNode graph settings plans index start)
    (h : Answering sense start n) (h' : Answering sense start n')
    (hcuts : n'.installed.Perm n.installed) (x : State ℚ) (noise : Datum ℚ) :
    ((∃ q q', n.Submits sense x noise q ∧ n'.Submits sense x noise q' ∧ q.Rearranges q' ∧
        ∀ z, q'.Admits z ↔ q.Admits z) ∨
      (∀ q, ¬n.Submits sense x noise q) ∧ ∀ q, ¬n'.Submits sense x noise q) ∧
    ∀ solver : Solver ℚ, solver.IgnoresOrder → ∀ (needsDuals : Bool) (answer : Solution ℚ),
      (∃ r, solve solver sense x noise needsDuals n = .ok answer r) ↔
        ∃ r, solve solver sense x noise needsDuals n' = .ok answer r := by
  have hb := (Model.blank_of_built hbuilt).1
  have paired := (h.kempt hb).paired (h'.kempt hb) hcuts
  refine ⟨?_, fun solver hsolver needsDuals answer => ⟨?_, ?_⟩⟩
  · cases posed : pose sense x noise n with
    | ok _ m =>
      obtain ⟨_, m', posed', ready, ready', paired⟩ :=
        (paired.parallel_pose hb x noise).ok ⟨rfl, rfl⟩ posed
      rcases (ready.rearranges ready' hb paired.backed paired.rows).program_cases with
        ⟨e, he, he'⟩ | ⟨q, q', hq, hq', rearranges, -⟩
      · exact .inr ⟨not_submits posed he, not_submits posed' he'⟩
      · exact .inl ⟨q, q', ⟨m, posed, hq⟩, ⟨m', posed', hq'⟩, rearranges, rearranges.admits_iff⟩
    | error e m =>
      obtain ⟨_, _, posed', -⟩ := (paired.parallel_pose hb x noise).error ⟨rfl, rfl⟩ posed
      refine .inr ⟨?_, ?_⟩
      · rintro q ⟨_, hm, -⟩
        cases posed.symm.trans hm
      · rintro q ⟨_, hm, -⟩
        cases posed'.symm.trans hm
  · rintro ⟨r, run⟩
    obtain ⟨_, r', run', rfl, -⟩ :=
      (paired.parallel_solve hsolver hb x noise needsDuals).ok ⟨rfl, rfl⟩ run
    exact ⟨r', run'⟩
  · rintro ⟨r', run'⟩
    cases run : solve solver sense x noise needsDuals n with
    | ok answer' r =>
      obtain ⟨_, _, same, rfl, -⟩ :=
        (paired.parallel_solve hsolver hb x noise needsDuals).ok ⟨rfl, rfl⟩ run
      cases run'.symm.trans same
      exact ⟨r, rfl⟩
    | error e r =>
      obtain ⟨_, _, failed, -⟩ :=
        (paired.parallel_solve hsolver hb x noise needsDuals).error ⟨rfl, rfl⟩ run
      cases run'.symm.trans failed

/-- One installed cut with the height eleven everywhere. -/
theorem installed_eq
    (h : n.cuts.pool.cuts.map
      (fun c => (c.constraint?.isSome, c.intercept, c.coefficients.keys.map Datum.identity,
      c.coefficients.values)) = [(true, 11, ["x"].map .text, [0])]) :
    n.installed = [(11, Dict.get? (⟨[(.text "x", 0)]⟩ : Dict Name ℚ))] := by
  obtain ⟨c, hcuts, hc⟩ := List.map_eq_singleton_iff.1 h
  obtain ⟨hinstalled, hintercept, hkeys, hvalues⟩ := by simpa only [Prod.mk.injEq] using hc
  have coefficients : c.coefficients = ⟨[(.text "x", 0)]⟩ :=
    congrArg Dict.mk (List.zip_of_prod (Datum.eq_texts_of_identities_eq hkeys) hvalues)
  rw [installed, hcuts, List.filter_singleton, hinstalled, cond_true, List.map_singleton,
    Cut.function, hintercept,
    coefficients]

/-- A node that was refined is solved with the same answer as one that was solved before that. -/
theorem solve_independent_of_one_refinement :
    ∃ (graph : Graph ℚ) (start n n' r r' : Node ℚ) (answer : Solution ℚ) (q q' : Program ℚ),
      Model.BuiltNode graph ⟨.finite 0, .posInf, 0⟩ ⟨[], carrying 10⟩ (.int 1) start ∧
      Answering .min start n ∧ Answering .min start n' ∧ n'.installed.Perm n.installed ∧
      n.stage.objectiveInstalled = true ∧ n'.stage.objectiveInstalled = false ∧
      steadySolver.IgnoresOrder ∧
      n.Submits .min (⟨[(.text "x", 1)]⟩ : State ℚ) .null q ∧
      n'.Submits .min (⟨[(.text "x", 1)]⟩ : State ℚ) .null q' ∧ q.Rearranges q' ∧
      solve steadySolver .min (⟨[(.text "x", 1)]⟩ : State ℚ) .null true n = .ok answer r ∧
      solve steadySolver .min (⟨[(.text "x", 1)]⟩ : State ℚ) .null true n' = .ok answer r' ∧
      answer.objective = 21 := by
  let x : State ℚ := ⟨[(.text "x", 1)]⟩
  let zero : State ℚ := ⟨[(.text "x", 0)]⟩
  let cuts (n : Node ℚ) : List (Bool × ℚ × List Datum.Identity × List ℚ) :=
    n.cuts.pool.cuts.map fun c =>
    (c.constraint?.isSome, c.intercept, c.coefficients.keys.map Datum.identity,
      c.coefficients.values)
  have check : (do
      let graph ← Graph.ofEdges (.int 0) [.int 1, .int 2]
        [(.int 0, .int 1, .real 1), (.int 1, .int 2, .real 1)] []
      let stage ← Stage.build (.int 1) 0 (StagePlans.of ⟨[], carrying 10⟩ (.int 1))
      let k ← ofStage ⟨.finite 0, .posInf, 0⟩ (Edge.ofPairs (graph.nodes.getD (.int 1) [])) stage
      let start ← k.observed graph.partition ⟨[]⟩ (.int 1)
      let solved ← (solve steadySolver .min x .null false).answer start
      let refined ← (refine .min .expectation x [zero] [1] [11]).answer solved.2
      let refined' ← (refine .min .expectation x [zero] [1] [11]).answer start
      let again ← (solve steadySolver .min x .null true).answer refined.2
      if cuts refined.2 = [(true, 11, ["x"].map .text, [0])] ∧
          cuts refined'.2 = [(true, 11, ["x"].map .text, [0])] ∧
          refined.2.stage.objectiveInstalled = true ∧ refined'.2.stage.objectiveInstalled = false ∧
          again.1.objective = 21 then
        return () else .error .missingKey : Except (Failure ℚ) Unit).toBool = true := by
    decide +kernel
  simp only [Except.toBool_bind, Except.toBool_ite, Action.answer_eq_ok, Prod.exists] at check
  obtain ⟨graph, -, stage, hstage, k, hk, start, hstart, answer₁, n₁, hsolved, _, n, hrefined,
    _, n', hrefined', answer, r, run, hcuts, hcuts', hi, hi', hobjective⟩ := check
  have hbuilt : Model.BuiltNode graph ⟨.finite 0, .posInf, 0⟩ ⟨[], carrying 10⟩ (.int 1) start :=
    ⟨0, stage, k, ⟨[]⟩, hstage, hk, hstart⟩
  have solved : Answering .min start n₁ := .solved .start hsolved
  have refined : Answering .min start n := by
    have refined : Answering .min start _ := .refined solved .expectation x [zero] [1] [11]
    rwa [Action.final_of_ok hrefined] at refined
  have refined' : Answering .min start n' := by
    have refined' : Answering .min start _ := .refined .start .expectation x [zero] [1] [11]
    rwa [Action.final_of_ok hrefined'] at refined'
  have same : n'.installed.Perm n.installed :=
    .of_eq ((installed_eq hcuts').trans (installed_eq hcuts).symm)
  obtain ⟨submitted, answered⟩ := solve_independent hbuilt refined refined' same x .null
  obtain ⟨r', run'⟩ := (answered steadySolver Solver.ignoresOrder_steady true answer).1 ⟨r, run⟩
  rcases submitted with ⟨q, q', hq, hq', rearranges, -⟩ | ⟨none, -⟩
  · exact ⟨graph, start, n, n', r, r', answer, q, q', hbuilt, refined, refined', same, hi, hi',
      Solver.ignoresOrder_steady, hq, hq', rearranges, run, run', hobjective⟩
  · obtain ⟨q, hq⟩ := exists_submits run
    exact absurd hq (none q)

end Node

end Multistage
