import Multistage.Proofs.Node.Posing
import Multistage.Proofs.Node.StepValue

/-!
# The optimal value of a node

The linear program of a node, entered in a state under a realization of the noise, has an optimal
value that depends on the constraints of the cuts and on nothing else that was done to the node. A
solution of the node at another state, found before constraints were added, is at most this value
when it is moved along its duals.

## Main definitions

- `Subproblem.HasOptimum`: the optimal value of a subproblem.
- `Node.HasValue`: the optimal value of a node that is posed.

## Main statements

- `Node.HasValue.of_rows`: the value depends on the constraints of the cuts.
- `Node.Ready.moved_atMost`: solutions that are moved are at most the value.
-/

namespace Multistage

/-- The value is that of the objective at a point that the subproblem admits, and no such point has
a better one. -/
structure Subproblem.HasOptimum (p : Subproblem ℚ) (v : ℚ) : Prop where
  attained : ∃ z, p.Admits (fun _ => False) z ∧ (∀ f ∈ p.fixed.entries, z f.1 = f.2) ∧
    p.objective.value z = (v : ℝ)
  best : ∀ z, p.Admits (fun _ => False) z → (∀ f ∈ p.fixed.entries, z f.1 = f.2) →
    p.sense.AtMost (v : ℝ) (p.objective.value z)

/-- A subproblem has one optimal value. -/
theorem Subproblem.HasOptimum.unique {p : Subproblem ℚ} {v v' : ℚ} (h : p.HasOptimum v)
    (h' : p.HasOptimum v') : v = v' := by
  obtain ⟨z, hz, hfixed, hvalue⟩ := h.attained
  obtain ⟨z', hz', hfixed', hvalue'⟩ := h'.attained
  have forth := h.best z' hz' hfixed'
  have back := h'.best z hz hfixed
  rw [hvalue'] at forth
  rw [hvalue] at back
  exact Rat.cast_injective (forth.antisymm back)

namespace Node

/-- The linear program of the node, entered in a state under a realization of the noise, has the
optimal value. -/
def HasValue (sense : Sense) (x : State ℚ) (noise : Datum ℚ) (n : Node ℚ) (v : ℚ) : Prop :=
  ∃ m, pose sense x noise n = .ok () m ∧ m.stage.subproblem.HasOptimum v

variable {sense : Sense} {start n n₁ m m' n' : Node ℚ} {rows rows' : List (Constraint ℚ)}
  {x y : State ℚ} {noise : Datum ℚ} {solver : Solver ℚ} {needsDuals : Bool} {s : Solution ℚ} {v : ℚ}

/-- A solve with a sound solver finds the optimal value. -/
theorem Ready.hasOptimum (hsolver : solver.Sound) (hb : start.Blank)
    (h : Ready sense start rows x noise m) (hs : Solved solver needsDuals m s n') :
    m.stage.subproblem.HasOptimum s.objective := by
  obtain ⟨point, -, -, hadmits, hfixed, hvalue, hbest⟩ := h.exists_point hsolver hb hs
  exact ⟨⟨entryOf point, hadmits, hfixed, hvalue.symm⟩, hbest⟩

/-- A solve that answers finds the optimal value. -/
theorem HasValue.of_solve (hsolver : solver.Sound) (hb : start.Blank) (h : Used sense start rows n)
    (hrun : solve solver sense x noise needsDuals n = .ok s n') :
    n.HasValue sense x noise s.objective := by
  rw [solve_eq] at hrun
  obtain ⟨_, m, posed, hrun⟩ := Action.bind_eq_ok.1 hrun
  obtain ⟨ready, -⟩ := (triple_pose hb h).ok rfl posed
  exact ⟨m, posed,
    ready.hasOptimum hsolver hb ((triple_conclude ready.toUsed needsDuals).ok rfl hrun).2⟩

/-- A node has one optimal value. -/
theorem HasValue.unique {v' : ℚ} (h : n.HasValue sense x noise v)
    (h' : n.HasValue sense x noise v') :
    v = v' := by
  obtain ⟨m, posed, hv⟩ := h
  obtain ⟨m', posed', hv'⟩ := h'
  cases posed.symm.trans posed'
  exact hv.unique hv'

/-- The points with the values of the fixed variables are the same. -/
theorem Ready.fixed_iff (h : Ready sense start rows x noise m)
    (h' : Ready sense start rows' x noise m')
    {z : ℕ → ℝ} (hz : ∀ f ∈ m.stage.subproblem.fixed.entries, z f.1 = f.2) :
    ∀ f ∈ m'.stage.subproblem.fixed.entries, z f.1 = f.2 := by
  intro f hf
  have found := (Dict.get?_eq_some_iff h'.distinct).2 ⟨f, hf, BEq.rfl, rfl⟩
  obtain ⟨f', hf', hindex, hentry⟩ :=
    (Dict.get?_eq_some_iff h.distinct).1 ((h'.fixed_eq h f.1).trans found)
  rw [← eq_of_beq hindex, ← hentry]
  exact hz f' hf'

/-- The optimal value depends on the constraints of the cuts. -/
theorem Ready.hasOptimum_of_rows (h : Ready sense start rows x noise m)
    (h' : Ready sense start rows' x noise m')
    (hrows : m'.stage.subproblem.constraints.drop start.rowCount =
      m.stage.subproblem.constraints.drop start.rowCount)
    (hv : m.stage.subproblem.HasOptimum v) : m'.stage.subproblem.HasOptimum v := by
  obtain ⟨hsense, hobjective⟩ := h.objective_eq h'
  obtain ⟨z, hz, hfixed, hvalue⟩ := hv.attained
  have forth : m'.stage.subproblem.Admits (fun _ => False) z :=
    h'.admits_of_prefix h (hrows ▸ List.prefix_rfl) hz
  refine ⟨⟨z, forth, h.fixed_iff h' hfixed, hobjective ▸ hvalue⟩, fun z hz hfixed => ?_⟩
  rw [hsense, hobjective]
  exact hv.best z (h.admits_of_prefix h' (hrows ▸ List.prefix_rfl) hz) (h'.fixed_iff h hfixed)

/-- A solve finds the value of every node that has the same constraints for its cuts. -/
theorem HasValue.of_solved (hsolver : solver.Sound) (hb : start.Blank) (hposes : start.Poses)
    (h : Ready sense start rows x noise m) (hs : Solved solver needsDuals m s n')
    (hn : Used sense start rows' n)
    (hrows : n.stage.subproblem.constraints.drop start.rowCount =
      m.stage.subproblem.constraints.drop start.rowCount) : n.HasValue sense x noise
        s.objective := by
  obtain ⟨m', posed⟩ := exists_pose hb hposes hn h
  obtain ⟨h', same⟩ := (triple_pose hb hn).ok rfl posed
  exact ⟨m', posed, h.hasOptimum_of_rows h' (same.rows.trans hrows) (h.hasOptimum hsolver hb hs)⟩

/-- The value depends on the constraints of the cuts. -/
theorem HasValue.of_rows (hb : start.Blank) (hposes : start.Poses) (hn : Used sense start rows n)
    (hn₁ : Used sense start rows' n₁)
    (hrows : n₁.stage.subproblem.constraints.drop start.rowCount =
      n.stage.subproblem.constraints.drop start.rowCount)
    (h : n.HasValue sense x noise v) : n₁.HasValue sense x noise v := by
  obtain ⟨m, posed, hv⟩ := h
  obtain ⟨ready, same⟩ := (triple_pose hb hn).ok rfl posed
  obtain ⟨m₁, posed₁⟩ := exists_pose hb hposes hn₁ ready
  obtain ⟨ready₁, same₁⟩ := (triple_pose hb hn₁).ok rfl posed₁
  exact ⟨m₁, posed₁, ready.hasOptimum_of_rows ready₁
    (same₁.rows.trans (hrows.trans same.rows.symm)) hv⟩

/-- A solution, moved along its duals to the state in which the node is entered later, is at most
the value that the node has then. -/
theorem Ready.moved_atMost (hsolver : solver.Sound) (hb : start.Blank) (hposes : start.Poses)
    (hfree : ∀ e ∈ start.stage.states.entries, ¬start.stage.Assignable (.fixed e.2.incoming.index))
    (h : Ready sense start rows x noise m) (hs : Solved solver true m s n') (hx : x.Distinct)
    (hn : Used sense start (m.stage.subproblem.constraints.drop start.rowCount) n)
    (hv : n.HasValue sense y noise v) :
    sense.AtMost ((s.objective : ℝ) + x.moved s.duals y.profile) (v : ℝ) := by
  obtain ⟨m', posed, hv⟩ := hv
  obtain ⟨h', same⟩ := (triple_pose hb hn).ok rfl posed
  obtain ⟨z, hz, hfixed, hvalue⟩ := hv.attained
  obtain ⟨describe, e, he, hsense, -⟩ := h.exists_affine hposes
  obtain ⟨-, hobjective⟩ := h.objective_eq h'
  obtain ⟨hlower, hupper⟩ := h.lengths hb
  obtain ⟨optimum, hoptimum, hbest⟩ :=
    Subproblem.optimum_atMost hsolver hs.optimize hs.primal hlower
    hupper h.distinct (h.fixed_lt_names hb) (h.objective_lt hb)
  cases hoptimum.symm.trans hs.objective
  have bound := hbest z (h.admits_of_prefix h' h'.rows hz)
  -- the point has the later state at the incoming copies
  have held : ∀ {i u}, m'.stage.subproblem.fixed.get? i = some u → z i = u := fun {i u} hu => by
    obtain ⟨f, hf, hi, rfl⟩ := Dict.exists_mem_of_get? hu
    rw [← eq_of_beq hi]
    exact hfixed f hf
  have entering : ∀ e ∈ start.stage.states.entries, z e.2.incoming.index = y.profile e.1 := by
    intro e he
    obtain ⟨u, hu⟩ := h'.incoming e he
    rw [held ((h'.fixed_incoming hb he (hfree e he)).trans hu), State.profile, Dict.getD, hu]
    rfl
  have stays : ∀ i u, (∀ e ∈ start.stage.states.entries, i ≠ e.2.incoming.index) →
      m.stage.subproblem.fixed.get? i = some u → z i = u := by
    intro i u hother hu
    refine held ((Content.number.inj (h.content_eq h' (f := .fixed i) trivial ?_)).trans hu)
    rw [contentFrom_of_ne fun e he heq => hother e he (Field.fixed.inj heq),
      contentFrom_of_ne fun e he heq => hother e he (Field.fixed.inj heq)]
  have consistent : Consistent y.profile := fun a b hab => by
    rw [State.profile, State.profile, Dict.getD, Dict.getD, Dict.get?_congr hab]
  rw [h.sum_fixedDuals hb hfree entering stays fun i => n'.stage.subproblem.fixedDuals.getD i 0,
    ← h.moved_eq hb hs rfl hx consistent, hsense, ← hobjective, hvalue] at bound
  exact bound

end Node

end Multistage
