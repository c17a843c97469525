import Multistage.Proofs.Node.Ready

/-!
# Nodes that are operated

A session refines, prunes and solves nodes, in any order and with any arguments, and it goes on when
such an operation fails.

## Main definitions

- `Node.Operating`: the nodes that operations lead to.
- `Node.Refined`: those that refinements lead to.
- `Node.Grows`: cuts were added, and nothing was solved.

## Main statements

- `Node.Operating.used_backed`: what every run keeps.
- `Node.Grows.estimate`: refinements only improve the estimate.
-/

namespace Multistage

namespace Node

/-- The nodes that operations lead to, whether they fail or not. -/
inductive Operating (solver : Solver ℚ) (sense : Sense) (start : Node ℚ) : Node ℚ → Prop
  | start : Operating solver sense start start
  | refined {n : Node ℚ} (before : Operating solver sense start n) (measure : Measure ℚ)
      (x : State ℚ) (duals : List (State ℚ)) (probabilities objectives : List ℚ) :
      Operating solver sense start ((refine sense measure x duals probabilities objectives).final n)
  | pruned {n : Node ℚ} (before : Operating solver sense start n) :
      Operating solver sense start (prune.final n)
  | solved {n : Node ℚ} (before : Operating solver sense start n) (x : State ℚ) (noise : Datum ℚ)
      (needsDuals : Bool) :
      Operating solver sense start ((solve solver sense x noise needsDuals).final n)

/-- The nodes that refinements lead to, whether they fail or not. -/
inductive Refined (sense : Sense) (start : Node ℚ) : Node ℚ → Prop
  | start : Refined sense start start
  | refined {n : Node ℚ} (before : Refined sense start n) (measure : Measure ℚ) (x : State ℚ)
      (duals : List (State ℚ)) (probabilities objectives : List ℚ) :
      Refined sense start ((refine sense measure x duals probabilities objectives).final n)

variable {solver : Solver ℚ} {sense : Sense} {start n n' : Node ℚ} {rows : List (Constraint ℚ)}

/-- A solve keeps what is used and backed, whether it fails or not. -/
theorem ensures_solve (hb : start.Blank) (x : State ℚ) (noise : Datum ℚ) (needsDuals : Bool) :
    Action.Ensures (fun n => Used sense start [] n ∧ Backed sense start.rowCount n)
      (solve solver sense x noise needsDuals) fun _ => True :=
  Action.Triple.of_forall fun _ hn => (triple_solve hb hn.1 needsDuals).consequence (fun _ => id)
    (fun _ _ h => ⟨⟨h.1.1, hn.2.of_sameCuts hn.1 h.1.1 h.1.2⟩, trivial⟩)
    fun _ h => ⟨h.1, hn.2.of_sameCuts hn.1 h.1 h.2⟩

theorem Operating.used_backed (hb : start.Blank) (h : Operating solver sense start n) :
    Used sense start [] n ∧ Backed sense start.rowCount n := by
  induction h with
  | start => exact ⟨used_of_blank hb, backed_of_blank hb⟩
  | refined before measure x duals probabilities objectives ih =>
    exact ((used_refine _ _ _ _ _).and (backed_refine _ _ _ _ _)).final ih
  | pruned before ih => exact (used_prune.and backed_prune).final ih
  | solved before x noise needsDuals ih => exact (ensures_solve hb x noise needsDuals).final ih

/-! ### Growing -/

/-- The installed cuts are still installed, and the last solve is the same. -/
structure Grows (n n' : Node ℚ) : Prop where
  settings : n'.cuts.settings = n.cuts.settings
  optimum : n'.stage.subproblem.optimum? = n.stage.subproblem.optimum?
  cuts : ∀ c ∈ n.cuts.pool.cuts, c.constraint?.isSome = true →
    ∃ d ∈ n'.cuts.pool.cuts, d.constraint?.isSome = true ∧ d.value = c.value

theorem Grows.refl (n : Node ℚ) : Grows n n := ⟨rfl, rfl, fun c hc hi => ⟨c, hc, hi, rfl⟩⟩

/-- The estimate only becomes better. -/
theorem Grows.estimate (h : Grows n n') (sense : Sense) (y : Name → ℝ) :
    sense.AtMost (n.cuts.estimate sense y) (n'.cuts.estimate sense y) := by
  obtain ⟨hbound, hcuts⟩ := CutModel.estimate_atMost_iff.1
    (Sense.AtMost.refl sense (n'.cuts.estimate sense y))
  refine CutModel.estimate_atMost_iff.2 ⟨h.settings ▸ hbound, fun c hc hi => ?_⟩
  obtain ⟨d, hd, hdi, hvalue⟩ := h.cuts c hc hi
  rw [← hvalue]
  exact hcuts d hd hdi

theorem value_eq_of_uncounted_eq {c d : Cut ℚ} (h : c.uncounted = d.uncounted) :
    c.value = d.value := by
  funext y
  rw [Cut.value, Cut.value, show c.intercept = d.intercept from congrArg (·.intercept) h,
    show c.coefficients = d.coefficients from congrArg (·.coefficients) h]

/-- Adding a cut takes nothing away. -/
theorem grows_addCut (x given : State ℚ) (c : Cut ℚ) (height : ℚ) :
    Action.Ensures (Grows start) (addCut sense x given c height) fun _ => True := by
  have recorded : ∀ {n m : Node ℚ} {c : Cut ℚ} {pool : CutPool ℚ ℚ}, Grows start n →
      m.cuts = n.cuts → m.stage.subproblem.optimum? = n.stage.subproblem.optimum? →
      n.Records c pool → Grows start (m.withPool pool) := by
    intro n m c pool h hcuts hoptimum hpool
    refine ⟨?_, hoptimum.trans h.optimum, fun d hd hi => ?_⟩
    · rw [← h.settings, ← hcuts]
      rfl
    · obtain ⟨d', hd', hi', hvalue⟩ := h.cuts d hd hi
      rw [Records, ← List.map_singleton, ← List.map_append] at hpool
      obtain ⟨e, he, heq⟩ := exists_mem_of_map_eq hpool.symm (List.mem_append_left _ hd')
      refine ⟨e, he, ?_, (value_eq_of_uncounted_eq heq.symm).trans hvalue⟩
      rw [← show d'.constraint? = e.constraint? from congrArg (·.constraint?) heq]
      exact hi'
  refine ensures_addCut (fun n k pool h _ hpool => recorded h rfl rfl hpool)
    (fun n pool h hpool => recorded h rfl rfl hpool) fun n place d k h hplace _ _ => ?_
  refine ⟨h.settings, h.optimum, fun e he hi => ?_⟩
  obtain ⟨e', he', hi', hvalue⟩ := h.cuts e he hi
  obtain ⟨j, hj⟩ := List.getElem?_of_mem he'
  by_cases hjp : place = j
  · subst hjp
    cases hplace.symm.trans hj
    have hlt : place < n.cuts.pool.cuts.length := (List.getElem?_eq_some_iff.1 hplace).1
    exact ⟨_, List.mem_of_getElem? (List.getElem?_set_self hlt), rfl, hvalue⟩
  · exact ⟨e', List.mem_of_getElem? ((List.getElem?_set_ne hjp).trans hj), hi', hvalue⟩

theorem Refined.grows (h : Refined sense n n') : Grows n n' := by
  induction h with
  | start => exact .refl n
  | refined before measure x duals probabilities objectives ih =>
    exact (ensures_refine fun c height _ => grows_addCut x x c height).final ih

end Node

end Multistage
