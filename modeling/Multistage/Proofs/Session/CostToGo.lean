import Multistage.Proofs.Session.Below

/-!
# The cost to go

In a model in which no path is longer than some number of steps, what follows each node costs what
backward induction finds: nothing after a node without children, and at every other node what its
measure makes of the best steps to the children. These are values on which no step improves.

## Main definitions

- `Model.costToGo`: backward induction over a number of steps.
- `Model.EndsWithin`: no path from a node is longer than a number of steps.

## Main statements

- `Model.costToGo_succ`: further steps change nothing where paths have ended.
- `Model.dominates_costToGo`: no step improves on the cost to go.
-/

namespace Multistage

variable {m : Model ℚ} {F : Datum ℚ → Measure ℚ} {W W' : Datum ℚ → (Name → ℝ) → EReal} {k : ℕ}

/-! ### Costs that are not negative -/

namespace Node

variable {start : Node ℚ}

/-- The stage of a node minimises a variable that is not negative and neither the value term nor an
incoming copy, and the noise edits nothing. -/
def costsSomething (n : Node ℚ) : Bool :=
  n.stage.edits.isEmpty && match n.stage.objective with
    | .decision v => v.index != n.cuts.term.index &&
        n.stage.states.entries.all (fun e => v.index != e.2.incoming.index) &&
        match n.stage.subproblem.lower[v.index]? with
        | some (.finite l) => decide (0 ≤ l)
        | _ => false
    | _ => false

theorem nonneg_stepValue (hb : start.Blank) (hcosts : start.costsSomething = true)
    {W : (Name → ℝ) → EReal} (hW : ∀ y, 0 ≤ W y) (noise : Datum ℚ) (y : Name → ℝ) :
    Sense.min.AtMost 0 (stepValue .min start W y noise) := by
  refine Sense.atMost_best_iff.2 ?_
  rintro _ ⟨s, z, e, hs, hz, he, rfl⟩
  obtain ⟨hedits, hcosts⟩ := Bool.and_eq_true_iff.1 hcosts
  -- the noise leaves the stage as it is
  have hs : start.stage.edits.forM (Stage.applyEdit noise) start.stage = .ok () s := hs
  rw [List.isEmpty_iff.1 hedits] at hs
  cases hs
  split at hcosts
  next v hv =>
    obtain ⟨hplace, hbound⟩ := Bool.and_eq_true_iff.1 hcosts
    obtain ⟨hterm, hincoming⟩ := Bool.and_eq_true_iff.1 hplace
    split at hbound
    next l hl =>
      rw [hv] at he
      cases he
      rw [Affine.value_ofVariable]
      -- the bound of the variable holds at every point of the step
      have bound := hz.admits.lower_le v.index
        (fun h => h.elim (bne_iff_ne.1 hterm) fun ⟨e, he, heq⟩ =>
          bne_iff_ne.1 (List.all_eq_true.1 hincoming e he) heq)
        (by rw [hb.tidy.fixed_eq]; rfl) l hl
      have nonneg : (0 : ℝ) ≤ l := Rat.cast_nonneg.2 (of_decide_eq_true hbound)
      exact add_nonneg (EReal.coe_nonneg.2 (nonneg.trans bound)) (hW _)
    next => cases hbound
  next => cases hcosts

/-- Values that are not negative can be those of a value term with the bound zero. -/
theorem values_of_nonneg (hlower : start.cuts.settings.lower = .finite 0)
    (hupper : start.cuts.settings.upper = .posInf) {W : (Name → ℝ) → EReal} (hW : ∀ y, 0 ≤ W y)
    (hleaf : start.children.isEmpty = true → ∀ y, W y = 0) : Values .min start W where
  real y _ := ⟨0, hW y⟩
  leaf hempty y _ := hleaf hempty y
  bounded _ y _ := by
    have zero : start.cuts.settings.estimate .min = 0 := by
      rw [CutSettings.estimate, hlower, Extended.toEReal, Rat.cast_zero, EReal.coe_zero]
    exact zero ▸ hW y
  unlimited _ u hu := by
    rw [CutSettings.otherBound, hupper] at hu
    cases hu

end Node

namespace Model

/-- What follows a node within a number of steps costs, if the nodes weigh the steps with
measures. -/
noncomputable def costToGo (m : Model ℚ) (F : Datum ℚ → Measure ℚ) : ℕ → Datum ℚ →
    (Name → ℝ) → EReal
  | 0, _, _ => 0
  | k + 1, index, y =>
    match m.nodes.get? index with
    | some n =>
      if n.children.isEmpty = true then 0
      else (F index).riskOf m.sense (m.weighing (costToGo m F k) (·.probability) n.children y)
    | none => 0

/-- No path from the node has more than a number of steps. -/
def EndsWithin (m : Model ℚ) : ℕ → Datum ℚ → Prop
  | 0, index => ∀ n, m.nodes.get? index = some n → n.children.isEmpty = true
  | k + 1, index => ∀ n, m.nodes.get? index = some n → ∀ e ∈ n.children, m.EndsWithin k e.child

theorem costToGo_of_isEmpty {index : Datum ℚ} {n : Node ℚ} (hn : m.nodes.get? index = some n)
    (h : n.children.isEmpty = true) (y : Name → ℝ) : m.costToGo F k index y = 0 := by
  cases k with
  | zero => rfl
  | succ k => simp only [costToGo, hn, if_pos h]

theorem weighing_congr {weight : Edge ℚ → ℚ} {edges : List (Edge ℚ)} (y : Name → ℝ)
    (h : ∀ e ∈ edges, W e.child = W' e.child) :
    m.weighing W weight edges y = m.weighing W' weight edges y := by
  refine List.flatMap_congr fun e he => List.map_congr_left fun t _ => ?_
  rw [stepValue, stepValue, h e he]

theorem costToGo_congr (hF : ∀ i j, (i == j) = true → F i = F j) {i j : Datum ℚ}
    (hij : (i == j) = true) : m.costToGo F k i = m.costToGo F k j := by
  cases k with
  | zero => rfl
  | succ k =>
    funext y
    rw [costToGo, costToGo, Dict.get?_congr hij, hF i j hij]

/-- Further steps change nothing where paths have ended. -/
theorem costToGo_succ {index : Datum ℚ} (h : m.EndsWithin k index) :
    m.costToGo F (k + 1) index = m.costToGo F k index := by
  induction k generalizing index with
  | zero =>
    funext y
    cases hn : m.nodes.get? index with
    | none => simp only [costToGo, hn]
    | some n => exact costToGo_of_isEmpty hn (h n hn) y
  | succ k ih =>
    funext y
    rw [costToGo, costToGo]
    split
    next n hn => rw [weighing_congr y fun e he => ih (h n hn e he)]
    next => rfl

/-- Steps that cost something make a cost to go that is not negative. -/
theorem nonneg_costToGo (hm : m.Regular) (hsense : m.sense = .min)
    (hcosts : ∀ index n, m.nodes.get? index = some n → n.costsSomething = true)
    (hmeasures : ∀ index n, m.nodes.get? index = some n → (F index).Coherent) (index : Datum ℚ)
    (y : Name → ℝ) : 0 ≤ m.costToGo F k index y := by
  induction k generalizing index y with
  | zero => exact le_rfl
  | succ k ih =>
    rw [costToGo]
    split
    next n hn =>
      split
      · exact le_rfl
      · rw [hsense]
        show Sense.min.AtMost 0 _
        refine (hmeasures index n hn).zero_atMost_riskOf
          (weighing_nonneg (hm.edges_nonneg index n hn) hm.noise_nonneg) fun o ho => ?_
        obtain ⟨e, -, ho⟩ := List.mem_flatMap.1 ho
        obtain ⟨t, -, rfl⟩ := List.mem_map.1 ho
        show Sense.min.AtMost 0 (m.stepValue _ e.child t.term y)
        rw [stepValue, hsense]
        split
        next c hc =>
          exact Node.nonneg_stepValue (hm.blank _ c hc) (hcosts _ c hc) (ih e.child) t.term y
        next => exact le_rfl
    next => exact le_rfl

/-- No step improves on the cost to go. -/
theorem dominates_costToGo (hF : ∀ i j, (i == j) = true → F i = F j)
    (hend : ∀ index, m.EndsWithin k index)
    (hvalues : ∀ index n, m.nodes.get? index = some n → n.Values m.sense (m.costToGo F k index)) :
    m.Dominates F (m.costToGo F k) where
  congr _ _ := costToGo_congr hF
  values := hvalues
  step index n hn hchildren y _ := by
    rw [← costToGo_succ (hend index), costToGo]
    simp only [hn, hchildren]
    exact .refl _ _

end Model

end Multistage
