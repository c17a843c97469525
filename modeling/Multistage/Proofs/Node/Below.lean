import Multistage.Proofs.Node.Operating
import Multistage.Proofs.Node.Pruning
import Multistage.Proofs.Node.StepValue

/-!
# Nodes whose cuts are at most values

Recording a cut that is at most the values, installing cuts and taking them out leaves a node whose
cuts are at most the values. What it solves is at most the value of the step.

## Main definitions

- `Node.Below`: a node in use whose cuts are at most values.
- `Node.Underestimates`: a solution that is at most the value of the step.

## Main statements

- `Node.below_refine`, `Node.below_prune`, `Node.below_solve`: the three operations.
-/

namespace Multistage

namespace Node

/-- The node is in use, and its cuts are at most the values. -/
structure Below (sense : Sense) (start : Node ℚ) (W : (Name → ℝ) → EReal) (n : Node ℚ) : Prop where
  used : Used sense start [] n
  backed : Backed sense start.rowCount n
  cuts : CutsAtMost sense W n

/-- The solution is at most the values `V` of the step, there where it was solved and, if duals were
asked for, also where it is moved to along them. -/
structure Underestimates (sense : Sense) (V : (Name → ℝ) → EReal) (needsDuals : Bool) (x : State ℚ)
    (s : Solution ℚ) : Prop where
  outgoing : s.outgoing.Distinct
  objective : sense.AtMost ((s.objective : ℝ) : EReal) (V x.profile)
  moved : needsDuals = true → x.Distinct → ∀ y, Consistent y →
    sense.AtMost (((s.objective : ℝ) + x.moved s.duals y : ℝ) : EReal) (V y)

variable {sense : Sense} {start n : Node ℚ} {W : (Name → ℝ) → EReal} {solver : Solver ℚ} {c : Cut ℚ}

theorem below_of_blank (h : start.Blank) : Below sense start W start := by
  refine ⟨used_of_blank h, backed_of_blank h, fun c hc => ?_⟩
  rw [h.pool_eq] at hc
  cases hc

/-- One more cut that is at most the values. -/
theorem CutsAtMost.record (h : CutsAtMost sense W n) {m : Node ℚ} {pool : CutPool ℚ ℚ}
    (hpool : n.Records c pool)
    (hc : ∀ y, Consistent y → sense.AtMost ((c.value y : ℝ) : EReal) (W y)) :
    CutsAtMost sense W (m.withPool pool) := by
  rw [Records, ← List.map_singleton, ← List.map_append] at hpool
  intro d hd y hy
  obtain ⟨d', hd', heq⟩ := exists_mem_of_map_eq hpool hd
  rw [value_eq_of_uncounted_eq heq]
  rcases List.mem_append.1 hd' with hd' | hd'
  · exact h d' hd' y hy
  · rw [List.mem_singleton.1 hd']
    exact hc y hy

theorem cutsAtMost_addCut (x given : State ℚ) (height : ℚ)
    (hc : ∀ y, Consistent y → sense.AtMost ((c.value y : ℝ) : EReal) (W y)) :
    Action.Ensures (CutsAtMost sense W) (addCut sense x given c height) fun _ => True := by
  refine ensures_addCut (fun n k pool h _ hpool => h.record hpool hc)
    (fun n pool h hpool => h.record hpool hc) fun n place d k h hplace _ _ e he => ?_
  rcases List.mem_or_eq_of_mem_set he with he | rfl
  · exact h e he
  · exact h d (List.mem_of_getElem? hplace)

theorem cutsAtMost_prune : Action.Ensures (CutsAtMost sense W) prune fun _ => True := by
  refine .of_forall fun n h => (triple_prune n).consequence (fun _ => id) ?_ fun _ => False.elim
  rintro _ n' ⟨-, hpool⟩
  refine ⟨fun c hc y hy => ?_, trivial⟩
  rw [hpool] at hc
  obtain ⟨d, hd, rfl⟩ := List.mem_map.1 hc
  rw [Cut.value_pruned]
  exact h d hd y hy

/-- A refinement whose cut is at most the values. -/
theorem below_refine {measure : Measure ℚ} {x : State ℚ} {duals : List (State ℚ)}
    {probabilities objectives : List ℚ}
    (h : ∀ c height, newCut sense measure x duals probabilities objectives = .ok (c, height) →
      ∀ y, Consistent y → sense.AtMost ((c.value y : ℝ) : EReal) (W y)) :
    Action.Ensures (Below sense start W) (refine sense measure x duals probabilities objectives)
      fun _ => True := by
  have cuts : Action.Ensures (CutsAtMost sense W)
      (refine sense measure x duals probabilities objectives) fun _ => True :=
    ensures_refine fun c height hcut => cutsAtMost_addCut x x height (h c height hcut)
  exact (((used_refine _ _ _ _ _).and (backed_refine _ _ _ _ _)).and cuts).consequence
    (fun _ h => ⟨⟨h.used, h.backed⟩, h.cuts⟩)
    (fun _ _ h => ⟨⟨h.1.1.1, h.1.1.2, h.1.2⟩, trivial⟩) fun _ h => ⟨h.1.1, h.1.2, h.2⟩

theorem below_prune : Action.Ensures (Below sense start W) prune fun _ => True :=
  ((used_prune.and backed_prune).and cutsAtMost_prune).consequence
    (fun _ h => ⟨⟨h.used, h.backed⟩, h.cuts⟩)
    (fun _ _ h => ⟨⟨h.1.1.1, h.1.1.2, h.1.2⟩, trivial⟩) fun _ h => ⟨h.1.1, h.1.2, h.2⟩

/-- A node is left in a state that has a value for every name once. -/
theorem keys_outgoing {x : State ℚ} (h : n.outgoing = .ok x) : x.keys = n.stage.states.keys := by
  obtain ⟨entries, hentries, h⟩ := Except.bind_eq_ok.1 h
  cases h
  refine Except.map_eq_of_mapM hentries fun s _ e he => ?_
  obtain ⟨_, -, he⟩ := Except.bind_eq_ok.1 he
  obtain ⟨_, -, he⟩ := Except.bind_eq_ok.1 he
  obtain ⟨_, -, he⟩ := Except.bind_eq_ok.1 he
  cases he
  rfl

/-- A solve is at most the value of the step, and it keeps the cuts. -/
theorem below_solve (hsolver : solver.Sound) (hb : start.Blank)
    (hfree : ∀ e ∈ start.stage.states.entries, ¬start.stage.Assignable (.fixed e.2.incoming.index))
    (hW : Values sense start W) (x : State ℚ) (noise : Datum ℚ) (needsDuals : Bool) :
    Action.Ensures (Below sense start W) (solve solver sense x noise needsDuals)
      (Underestimates sense (fun y => stepValue sense start W y noise) needsDuals x) := by
  refine .of_forall fun n h => ?_
  have kept : ∀ n', Used sense start [] n' → SameCuts start n n' → Below sense start W n' :=
    fun n' hn' same => ⟨hn', h.backed.of_sameCuts h.used hn' same, by
      unfold CutsAtMost
      rw [same.cuts]
      exact h.cuts⟩
  refine (triple_solve hb h.used needsDuals).consequence (fun _ => id) ?_ fun n' h' =>
    kept n' h'.1 h'.2
  rintro s n' ⟨⟨hn', same⟩, m, ready, same', solved⟩
  have at_m := kept m ready.toUsed same'
  refine ⟨kept n' hn' same, ?_, ?_, fun hduals hx y hy => ?_⟩
  · refine hb.tidy.distinct.of_keys_eq ((keys_outgoing solved.outgoing).trans ?_)
    rw [hn'.states_eq]
  · exact ready.objective_atMost_stepValue hsolver hb at_m.backed hfree hW at_m.cuts solved
  · exact ready.moved_atMost_stepValue hsolver hb at_m.backed hfree hW at_m.cuts solved hduals hx hy

end Node

end Multistage
