import Multistage.Proofs.Node.Ready

/-!
# Solves of the same node

Two solves of a node from the same state and for the same realization of the noise solve programs
that differ in the constraints of the cuts only, whatever was done to the node in between. If
constraints were only added, the later optimal value bounds nothing that the earlier one does not.

## Main statements

- `Node.Ready.admits_of_prefix`: more constraints admit fewer points.
- `Node.Ready.objective_atMost`: they make the optimal value worse.
-/

namespace Multistage

/-- Constraints with the same fields hold at the same points. -/
theorem Stage.holds_of_content_eq {s s' : Stage ℚ} {k size : ℕ} {c c' : Constraint ℚ}
    (hc : s.subproblem.constraints[k]? = some c) (hc' : s'.subproblem.constraints[k]? = some c')
    (hkind : c'.kind = c.kind) (hrhs : s'.content (.rhs k) = s.content (.rhs k))
    (hcoefficients : ∀ i, s'.content (.coefficient k i) = s.content (.coefficient k i))
    {z : ℕ → ℝ} (h : c.Holds size z) : c'.Holds size z := by
  have rhs : c'.rhs = c.rhs := by
    rw [content, content, hc, hc'] at hrhs
    exact Option.some.inj (Content.number.inj hrhs)
  have combination : c'.coefficients.combination size z = c.coefficients.combination size z := by
    refine Dict.combination_eq_of_get?_eq fun i => ?_
    have := hcoefficients i
    rw [content, content, hc, hc'] at this
    exact Content.number.inj this
  rw [Constraint.Holds, rhs, combination,
    show c'.relation = c.relation from congrArg Prod.fst hkind]
  exact h

namespace Node.Ready

variable {sense : Sense} {start m m' : Node ℚ} {rows rows' : List (Constraint ℚ)} {x y : State ℚ}
  {noise : Datum ℚ} {solver : Solver ℚ} {needsDuals needsDuals' : Bool}
  {answer answer' : Solution ℚ}
  {n n' : Node ℚ}

section States

variable (h : Ready sense start rows x noise m) (h' : Ready sense start rows' y noise m')

include h h'

/-- The state and the noise say what all fields hold but those of later constraints. -/
theorem content_eq {f : Field} (hf : f.Below start.rowCount)
    (hfrom : start.contentFrom y f = start.contentFrom x f) :
    m'.stage.content f = m.stage.content f := by
  obtain ⟨as, has, hcontent⟩ := h.assigned
  obtain ⟨as', has', hcontent'⟩ := h'.assigned
  rw [hcontent f hf, hcontent' f hf, has.unique rfl has']
  exact overwrite_congr (.inr hfrom)

/-- Which variables are fixed depends on the noise alone. -/
theorem fixed_eq_none {i : ℕ} (hi : m'.stage.subproblem.fixed.get? i = none) :
    m.stage.subproblem.fixed.get? i = none := by
  by_cases hincoming : ∃ s ∈ start.stage.states.entries, s.2.incoming.index = i
  · obtain ⟨as, has, hcontent⟩ := h.assigned
    obtain ⟨as', has', hcontent'⟩ := h'.assigned
    have held := hcontent (.fixed i) trivial
    have held' := hcontent' (.fixed i) trivial
    rw [has.unique rfl has'] at held
    by_cases hassigned : .fixed i ∈ as'.map (·.1)
    · rw [overwrite_congr (.inl hassigned)] at held
      exact (Content.number.inj (held.trans held'.symm)).trans hi
    · -- a copy that is not assigned is fixed to the value of its state
      rw [overwrite_of_notMem hassigned, contentFrom] at held'
      split at held'
      next s hs =>
        obtain ⟨v, hv⟩ := h'.incoming s (List.mem_of_find?_eq_some hs)
        rw [hv] at held'
        cases hi.symm.trans (Content.number.inj held')
      next hnone =>
        obtain ⟨s, hs, rfl⟩ := hincoming
        simpa using List.find?_eq_none.1 hnone s hs
  · refine (Content.number.inj (h.content_eq h' (f := .fixed i) trivial ?_)).symm.trans hi
    have notFound : start.stage.states.entries.find? (fun s => s.2.incoming.index == i) = none :=
      List.find?_eq_none.2 fun s hs => by simpa using fun heq => hincoming ⟨s, hs, heq⟩
    rw [contentFrom, contentFrom, notFound]

/-- More constraints admit fewer points. -/
theorem admits_of_prefix
    (hrows : m.stage.subproblem.constraints.drop start.rowCount <+:
      m'.stage.subproblem.constraints.drop start.rowCount) {free : ℕ → Prop} {z : ℕ → ℝ}
    (hz : m'.stage.subproblem.Admits free z) : m.stage.subproblem.Admits free z := by
  have names : m.stage.subproblem.names = m'.stage.subproblem.names :=
    h.names_eq.trans h'.names_eq.symm
  refine ⟨fun c hc => ?_, fun i hi hfixed l hl => ?_, fun i hi hfixed u hu => ?_⟩
  · obtain ⟨hmem, hactive⟩ := List.mem_filter.1 hc
    obtain ⟨k, hk⟩ := List.getElem?_of_mem hmem
    rw [names]
    rcases Nat.lt_or_ge k start.rowCount with hlt | hge
    · obtain ⟨c', hc'⟩ : ∃ c', m'.stage.subproblem.constraints[k]? = some c' :=
        ⟨_, List.getElem?_eq_getElem (hlt.trans_le h'.rowCount_le)⟩
      have kind : c.kind = c'.kind := by
        have := (h.kind k hlt).trans (h'.kind k hlt).symm
        rw [hk, hc'] at this
        exact Option.some.inj this
      have active' : c'.active = true := (congrArg Prod.snd kind).symm.trans hactive
      exact Stage.holds_of_content_eq hc' hk kind (h'.content_eq h (f := .rhs k) hlt rfl)
        (fun i => h'.content_eq h (f := .coefficient k i) hlt rfl)
        (hz.holds c' (List.mem_filter.2 ⟨List.mem_of_getElem? hc', active'⟩))
    · have later : (m.stage.subproblem.constraints.drop start.rowCount)[k - start.rowCount]? =
          some c := by
        rw [List.getElem?_drop, Nat.add_sub_cancel' hge]
        exact hk
      have mem := List.mem_of_mem_drop (hrows.subset (List.mem_of_getElem? later))
      exact hz.holds c (List.mem_filter.2 ⟨mem, hactive⟩)
  · refine hz.lower_le i hi (h'.fixed_eq_none h hfixed) l ?_
    rw [← hl]
    exact Content.bound.inj (h.content_eq h' (f := .lower i) trivial rfl)
  · refine hz.le_upper i hi (h'.fixed_eq_none h hfixed) u ?_
    rw [← hu]
    exact Content.bound.inj (h.content_eq h' (f := .upper i) trivial rfl)

theorem objective_eq :
    m'.stage.subproblem.sense = m.stage.subproblem.sense ∧
      m'.stage.subproblem.objective = m.stage.subproblem.objective := by
  have same : m'.stage.objective = m.stage.objective :=
    Content.operand.inj (h.content_eq h' (f := .objective) trivial rfl)
  rcases h.posed with ⟨describe, e, he, hsense, hobjective⟩ | ⟨hassigned, haffine, hsense,
      hobjective⟩
  · obtain ⟨hsense', hobjective'⟩ := h'.posed_of_toAffine (same ▸ he)
    exact ⟨hsense'.trans hsense.symm, hobjective'.trans hobjective.symm⟩
  · obtain ⟨hsense', hobjective'⟩ := h'.unset hassigned haffine
    exact ⟨hsense'.trans hsense.symm, hobjective'.trans hobjective.symm⟩

end States

theorem fixed_eq (h : Ready sense start rows x noise m) (h' : Ready sense start rows' x noise m')
    (i : ℕ) : m'.stage.subproblem.fixed.get? i = m.stage.subproblem.fixed.get? i :=
  Content.number.inj (h.content_eq h' (f := .fixed i) trivial rfl)

/-- A solve after constraints were added has no better optimal value. -/
theorem objective_atMost (hsolver : solver.Sound) (hb : start.Blank)
    (h : Ready sense start rows x noise m) (h' : Ready sense start rows' x noise m')
    (hrows : m.stage.subproblem.constraints.drop start.rowCount <+:
      m'.stage.subproblem.constraints.drop start.rowCount)
    (hs : Solved solver needsDuals m answer n) (hs' : Solved solver needsDuals' m' answer' n') :
    sense.AtMost answer.objective answer'.objective := by
  obtain ⟨_, -, -, -, -, hvalue, hbest⟩ := h.exists_point hsolver hb hs
  obtain ⟨point, -, -, hadmits, hfixed, hvalue', -⟩ := h'.exists_point hsolver hb hs'
  obtain ⟨hsense, hobjective⟩ := h.objective_eq h'
  have bound := hbest _ (h.admits_of_prefix h' hrows hadmits) fun f hf => by
    have found := (Dict.get?_eq_some_iff h.distinct).2 ⟨f, hf, BEq.rfl, rfl⟩
    obtain ⟨f', hf', hindex, hentry⟩ :=
      (Dict.get?_eq_some_iff h'.distinct).1 ((h.fixed_eq h' f.1).trans found)
    rw [← eq_of_beq hindex, ← hentry]
    exact hfixed f' hf'
  rw [← hobjective, ← hvalue'] at bound
  rcases h.posed with ⟨-, -, -, hposed, -⟩ | ⟨-, -, -, hunset⟩
  · rw [hposed] at bound
    cases sense with
    | min => exact Rat.cast_le.1 bound
    | max => exact Rat.cast_le.1 bound
  · -- an objective that was never installed is zero
    rw [hunset, hb.tidy.cost_eq, Affine.value_ofScalar] at hvalue
    rw [hobjective, hunset, hb.tidy.cost_eq, Affine.value_ofScalar] at hvalue'
    rw [Rat.cast_injective (hvalue.trans hvalue'.symm)]
    exact .refl sense _

end Node.Ready

end Multistage
