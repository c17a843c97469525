import Multistage.Proofs.Linear.Optimum
import Multistage.Proofs.Node.Backing
import Multistage.Proofs.Node.Estimate

/-!
# Programs of ready nodes

The value term of a node is bounded by nothing but its bounds and the constraints of the cuts, and
it enters the objective with the stage. At the point of a solve it is therefore what the estimate of
the node is.

## Main definitions

- `Field.Over`: the field is one of the first variables.

## Main statements

- `Node.Ready.exists_point`: a solve with a sound solver has a point.
- `Node.Ready.term_atMost_estimate`, `Node.Ready.objective_atMost_estimate`: the value term is at
  most the estimate, and the value of a solve at most the objective of the stage and the estimate.
-/

namespace Multistage

/-- The field belongs to the first variables, or to none. -/
def Field.Over (count : ℕ) : Field → Prop
  | .fixed i => i < count
  | .lower i => i < count
  | .upper i => i < count
  | .coefficient _ i => i < count
  | _ => True

namespace Stage.Tidy

variable {s : Stage ℚ} {count : ℕ} {noise : Datum ℚ}

/-- Edits assign to variables that exist. -/
theorem assignable_over (h : s.Tidy count) {f : Field} (hf : s.Assignable f) : f.Over count := by
  have target : ∀ {name : Name} {o : Operand ℚ} {v : Variable}, s.lookup name = .ok o →
      o.toVariable = .ok v → v.index < count := by
    intro name o v ho hv
    cases o with
    | decision u =>
      cases hv
      exact (h.lookup_within ho).2
    | _ => cases hv
  obtain ⟨edit, -, hfield⟩ := hf
  cases edit with
  | objective value =>
    cases hfield
    trivial
  | setRhs constraint value =>
    obtain ⟨_, -, hfield⟩ := Except.bind_eq_ok.1 hfield
    obtain ⟨_, -, hfield⟩ := Except.bind_eq_ok.1 hfield
    cases hfield
    trivial
  | setCoefficient constraint name value =>
    obtain ⟨_, -, hfield⟩ := Except.bind_eq_ok.1 hfield
    obtain ⟨_, -, hfield⟩ := Except.bind_eq_ok.1 hfield
    obtain ⟨o, ho, hfield⟩ := Except.bind_eq_ok.1 hfield
    obtain ⟨v, hv, hfield⟩ := Except.bind_eq_ok.1 hfield
    cases hfield
    exact target ho hv
  | _ =>
    obtain ⟨o, ho, hfield⟩ := Except.bind_eq_ok.1 hfield
    obtain ⟨v, hv, hfield⟩ := Except.bind_eq_ok.1 hfield
    cases hfield
    exact target ho hv

/-- The objectives that a realization of the noise assigns are over variables that exist. -/
theorem within_of_assigned (h : s.Tidy count) {as : List (Field × Content)}
    (has : s.Assigned noise as) {c : Field → Content} {o : Operand ℚ}
    (hc : ∀ o, c .objective = .operand o →
      o.Within s.subproblem.owner count s.subproblem.constraints.length)
    (ho : overwrite c as .objective = .operand o) :
    o.Within s.subproblem.owner count s.subproblem.constraints.length := by
  unfold Stage.Assigned at has
  generalize s.edits = edits at has
  induction has generalizing c with
  | nil => exact hc o ho
  | @cons edit a edits as hea _ ih =>
    refine ih (c := Function.update c a.1 a.2) (fun o' ho' => ?_) ho
    by_cases hfield : a.1 = .objective
    · rw [hfield, Function.update_self] at ho'
      obtain ⟨value, rfl⟩ := Edit.eq_objective_of_field (hfield ▸ hea.1)
      obtain ⟨y, hy, hcontent⟩ := Except.bind_eq_ok.1 hea.2
      have same := (Except.ok.inj hcontent).trans ho'
      cases same
      exact h.eval_within hy
    · rw [Function.update_of_ne (Ne.symm hfield)] at ho'
      exact hc o' ho'

end Stage.Tidy

namespace Node

variable {sense : Sense} {start n n' m : Node ℚ} {rows : List (Constraint ℚ)} {state : State ℚ}
  {noise : Datum ℚ} {solver : Solver ℚ} {needsDuals : Bool} {answer : Solution ℚ}
  {describe : ConstraintHandle → Misfit ℚ} {e : Affine ℚ}

/-! ### The value term is never assigned -/

/-- What does not belong to the variables of the stage stays as it was built. -/
theorem Used.content_of_not_over (hb : start.Blank) (h : Used sense start rows n) {f : Field}
    (hbelow : f.Below start.rowCount) (hf : ¬f.Over start.cuts.term.index) :
    n.stage.content f = start.stage.content f := by
  refine h.content f hbelow (mt hb.tidy.assignable_over hf) fun s hs heq => hf ?_
  rw [heq]
  exact (hb.tidy.copies s hs).1.2

theorem Used.fixed_lt (hb : start.Blank) (h : Used sense start rows n) {i : ℕ} {x : ℚ}
    (hi : n.stage.subproblem.fixed.get? i = some x) : i < start.cuts.term.index := by
  by_contra hlt
  have kept := h.content_of_not_over hb (f := .fixed i) trivial hlt
  have unfixed : start.stage.subproblem.fixed.get? i = none := by
    rw [hb.tidy.fixed_eq]
    rfl
  rw [Stage.content, Stage.content, hi, unfixed] at kept
  cases kept

theorem Used.term_unfixed (hb : start.Blank) (h : Used sense start rows n) :
    n.stage.subproblem.fixed.get? start.cuts.term.index = none := by
  by_contra hne
  obtain ⟨x, hx⟩ := Option.ne_none_iff_exists'.1 hne
  exact absurd (h.fixed_lt hb hx) (lt_irrefl _)

theorem Used.fixed_entries (hb : start.Blank) (h : Used sense start rows n) :
    ∀ f ∈ n.stage.subproblem.fixed.entries, f.1 < start.cuts.term.index := fun f hf =>
  h.fixed_lt hb ((Dict.get?_eq_some_iff h.distinct).2 ⟨f, hf, BEq.rfl, rfl⟩)

theorem Used.fixed_lt_names (hb : start.Blank) (h : Used sense start rows n) :
    ∀ f ∈ n.stage.subproblem.fixed.entries, f.1 < n.stage.subproblem.names.length := fun f hf => by
  rw [h.names_eq]
  exact (h.fixed_entries hb f hf).trans hb.term_lt

/-- The value term keeps its bounds. -/
theorem Used.bounds_term (hb : start.Blank) (h : Used sense start rows n) :
    n.stage.subproblem.lower[start.cuts.term.index]? =
        some (start.cuts.settings.bounds start.children).1 ∧
      n.stage.subproblem.upper[start.cuts.term.index]? =
        some (start.cuts.settings.bounds start.children).2 := by
  have lower := h.content_of_not_over hb (f := .lower start.cuts.term.index) trivial (lt_irrefl _)
  have upper := h.content_of_not_over hb (f := .upper start.cuts.term.index) trivial (lt_irrefl _)
  exact ⟨(Content.bound.inj lower).trans hb.lower_term,
    (Content.bound.inj upper).trans hb.upper_term⟩

/-- The value term has no part in the declared constraints. -/
theorem Used.coefficient_term (hb : start.Blank) (h : Used sense start rows n) {k : ℕ}
    (hk : k < start.rowCount) {c : Constraint ℚ}
    (hc : n.stage.subproblem.constraints[k]? = some c) :
    c.coefficients.get? start.cuts.term.index = none := by
  have kept := h.content_of_not_over hb (f := .coefficient k start.cuts.term.index) hk (lt_irrefl _)
  obtain ⟨d, declared⟩ : ∃ d, start.stage.subproblem.constraints[k]? = some d :=
    ⟨_, List.getElem?_eq_getElem hk⟩
  rw [Stage.content, Stage.content, hc, declared] at kept
  refine (Content.number.inj kept).trans ?_
  rw [← Option.not_isSome_iff_eq_none, Option.isSome_iff_exists]
  rintro ⟨a, ha⟩
  exact absurd (hb.tidy.coefficients d (List.mem_of_getElem? declared) _ a ha) (lt_irrefl _)

/-- The value term does not change the declared constraints. -/
theorem Used.combination_update (hb : start.Blank) (h : Used sense start rows n) {k size : ℕ}
    (hk : k < start.rowCount) {c : Constraint ℚ} (hc : n.stage.subproblem.constraints[k]? = some c)
    (z : ℕ → ℝ) (t : ℝ) :
    c.coefficients.combination size (Function.update z start.cuts.term.index t) =
      c.coefficients.combination size z := by
  refine Dict.combination_congr fun j hj => Function.update_of_ne ?_ _ _
  rintro rfl
  obtain ⟨a, ha⟩ := hj
  rw [h.coefficient_term hb hk hc] at ha
  cases ha

theorem Used.lengths (hb : start.Blank) (h : Used sense start rows n) :
    n.stage.subproblem.lower.length = n.stage.subproblem.names.length ∧
      n.stage.subproblem.upper.length = n.stage.subproblem.names.length := by
  rw [h.lower_length, h.upper_length, h.names_eq]
  exact ⟨hb.tidy.lower_length, hb.tidy.upper_length⟩

/-! ### The objective -/

namespace Ready

theorem within (hb : start.Blank) (h : Ready sense start rows state noise m)
    (he : m.stage.objective.toAffine describe = .ok e) :
    e.Within start.stage.subproblem.owner start.cuts.term.index := by
  obtain ⟨as, has, hcontent⟩ := h.assigned
  refine Operand.Within.toAffine (hb.tidy.within_of_assigned has (c := start.contentFrom state) ?_
    (hcontent .objective trivial).symm) he
  rintro o ho
  cases ho
  exact hb.tidy.objective

/-- The objective of a ready node is that of the stage and the value term. -/
theorem posed_of_toAffine (h : Ready sense start rows state noise m)
    (he : m.stage.objective.toAffine describe = .ok e) :
    m.stage.subproblem.sense = sense ∧
      m.stage.subproblem.objective = e.add (Affine.ofVariable start.cuts.term) := by
  -- an objective that was never affine is not affine now
  rcases h.posed with ⟨describe', e', he', hposed⟩ | ⟨hassigned, haffine, -⟩
  · cases he.symm.trans (Operand.toAffine_of_describe he')
    exact hposed
  · have fixed := h.content .objective trivial hassigned fun _ _ => nofun
    rw [show m.stage.objective = start.stage.objective from Content.operand.inj fixed] at he
    exact absurd he (haffine describe e)

theorem objective_lt (hb : start.Blank) (h : Ready sense start rows state noise m) :
    ∀ v ∈ m.stage.subproblem.objective.terms.keys, v.index < m.stage.subproblem.names.length := by
  rw [h.names_eq]
  rcases h.posed with ⟨describe, e, he, -, hposed⟩ | ⟨-, -, -, hposed⟩
  · rw [hposed]
    intro v hv
    rcases Affine.mem_keys_add.1 hv with hv | hv
    · exact (h.within hb he v hv).2.trans hb.term_lt
    · rw [List.mem_singleton.1 hv]
      exact hb.term_lt
  · rw [hposed, hb.tidy.cost_eq]
    nofun

/-! ### The point of a solve -/

/-- A solve with a sound solver has a point with the optimal value, and no point that the node
admits is better. -/
theorem exists_point (hsolver : solver.Sound) (hb : start.Blank)
    (h : Ready sense start rows state noise m) (hs : Solved solver needsDuals m answer n') :
    ∃ point, n'.stage.subproblem.point? = some point ∧
      point.length = m.stage.subproblem.names.length ∧
      m.stage.subproblem.Admits (fun _ => False) (entryOf point) ∧
      (∀ f ∈ m.stage.subproblem.fixed.entries, entryOf point f.1 = f.2) ∧
      (answer.objective : ℝ) = m.stage.subproblem.objective.value (entryOf point) ∧
      ∀ z, m.stage.subproblem.Admits (fun _ => False) z →
        (∀ f ∈ m.stage.subproblem.fixed.entries, z f.1 = f.2) →
          m.stage.subproblem.sense.AtMost (answer.objective : ℝ)
            (m.stage.subproblem.objective.value z) := by
  obtain ⟨hlower, hupper⟩ := h.lengths hb
  have hfixed := h.fixed_lt_names hb
  obtain ⟨point, value, hpoint, hvalue, hlength, hadmits, hentries, hat⟩ :=
    Subproblem.admits_point hsolver hs.optimize hs.primal hlower hupper hfixed (h.objective_lt hb)
  obtain ⟨value', hvalue', hbest⟩ := Subproblem.optimum_atMost hsolver hs.optimize hs.primal hlower
    hupper h.distinct hfixed (h.objective_lt hb)
  cases hvalue.symm.trans hs.objective
  cases hvalue.symm.trans hvalue'
  refine ⟨point, hpoint, hlength, hadmits, hentries, hat, fun z hz hzf => ?_⟩
  -- points with the values of the fixed variables are not moved along the duals
  have none : (m.stage.subproblem.fixed.entries.map fun f =>
      ((n'.stage.subproblem.fixedDuals.getD f.1 0 : ℚ) : ℝ) * (z f.1 - f.2)).sum = 0 := by
    refine List.sum_eq_zero fun x hx => ?_
    obtain ⟨f, hf, rfl⟩ := List.mem_map.1 hx
    rw [hzf f hf, sub_self, mul_zero]
  have bound := hbest z hz
  rwa [none, add_zero] at bound

end Ready

/-! ### Moving the value term -/

theorem Used.leaving_eq (h : Used sense start rows n) : n.leaving = start.leaving := by
  funext z name
  rw [leaving, leaving, h.states_eq]

theorem Placed.leaving_update (h : n.Placed) (z : ℕ → ℝ) (t : ℝ) :
    n.leaving (Function.update z n.cuts.term.index t) = n.leaving z := by
  funext name
  unfold leaving
  cases hname : n.stage.states.get? name with
  | none => rfl
  | some copies =>
    obtain ⟨s, hs, -, rfl⟩ := (Dict.get?_eq_some_iff h.distinct).1 hname
    rw [Option.map_some, Option.map_some, Function.update_of_ne]
    exact Nat.ne_of_lt (h.copies s hs).2.2

/-- The value term may take any value between the estimate and the one that it has. -/
theorem Used.admits_update (hb : start.Blank) (h : Used sense start rows n)
    (hchildren : start.children.isEmpty = false)
    (hbacked : Backed sense start.rowCount n) {free : ℕ → Prop} {z : ℕ → ℝ}
    (hz : n.stage.subproblem.Admits free z) {t : ℝ}
    (hlow : sense.AtMost (n.cuts.estimate sense (n.leaving z)) (t : EReal))
    (hhigh : sense.AtMost t (z start.cuts.term.index)) :
    n.stage.subproblem.Admits free (Function.update z start.cuts.term.index t) := by
  have placed : n.Placed := hb.placed.of_declaration_eq h.declaration
  obtain ⟨hbound, hcuts⟩ := CutModel.estimate_atMost_iff.1 hlow
  obtain ⟨hlower, hupper⟩ := h.bounds_term hb
  have bounds : start.cuts.settings.bounds start.children =
      (n.cuts.settings.lower, n.cuts.settings.upper) := by
    rw [CutSettings.bounds, if_neg (by simp [hchildren]), h.settings_eq]
  rw [bounds] at hlower hupper
  have moved : ∀ i, i ≠ start.cuts.term.index →
      Function.update z start.cuts.term.index t i = z i := fun i hi => Function.update_of_ne hi _ _
  refine ⟨fun c hc => ?_, fun i hi hfixed l hl => ?_, fun i hi hfixed u hu => ?_⟩
  · obtain ⟨hmem, hactive⟩ := List.mem_filter.1 hc
    obtain ⟨k, hk⟩ := List.getElem?_of_mem hmem
    -- declared constraints are without the value term, all later ones are cuts
    rcases Nat.lt_or_ge k start.rowCount with hlt | hge
    · rw [Constraint.Holds, h.combination_update hb hlt hk]
      exact hz.holds c hc
    · obtain ⟨d, hd, hi, holds⟩ := hbacked.holds placed hge hk hactive
      rw [holds, ← h.term_eq, placed.leaving_update, Function.update_self]
      have := hcuts d hd (by rw [hi]; rfl)
      cases sense <;> exact EReal.coe_le_coe_iff.1 this
  · by_cases hterm : i = start.cuts.term.index
    · subst hterm
      have low := hz.lower_le _ hi hfixed l hl
      have bound : n.cuts.settings.lower = .finite l := Option.some.inj (hlower.symm.trans hl)
      rw [Function.update_self]
      cases sense with
      | min =>
        rw [CutSettings.estimate, bound] at hbound
        exact EReal.coe_le_coe_iff.1 hbound
      | max => exact low.trans hhigh
    · rw [moved i hterm]
      exact hz.lower_le i hi hfixed l hl
  · by_cases hterm : i = start.cuts.term.index
    · subst hterm
      have high := hz.le_upper _ hi hfixed u hu
      have bound : n.cuts.settings.upper = .finite u := Option.some.inj (hupper.symm.trans hu)
      rw [Function.update_self]
      cases sense with
      | min => exact le_trans hhigh high
      | max =>
        rw [CutSettings.estimate, bound] at hbound
        exact EReal.coe_le_coe_iff.1 hbound
    · rw [moved i hterm]
      exact hz.le_upper i hi hfixed u hu

/-! ### The value of a solve -/

theorem clampAbove_of_le {bound : Extended ℚ} {value : ℚ} (h : ∀ u, bound = .finite u → value ≤ u) :
    clampAbove bound value = value := by
  cases bound with
  | finite u => exact if_neg (not_lt.2 (h u rfl))
  | _ => rfl

theorem clampBelow_of_le {bound : Extended ℚ} {value : ℚ} (h : ∀ l, bound = .finite l → l ≤ value) :
    clampBelow bound value = value := by
  cases bound with
  | finite l => exact if_neg (not_lt.2 (h l rfl))
  | _ => rfl

/-- What the objective of a stage is at the point of a solve. -/
theorem stageObjective_eq (he : m.stage.objective.toAffine describe = .ok e)
    (hs : Solved solver needsDuals m answer n') {point : List ℚ}
    (hpoint : n'.stage.subproblem.point? = some point) :
    (answer.stageObjective : ℝ) = e.value (entryOf point) := by
  have found := hs.stageObjective
  have same : n'.stage.objective = m.stage.objective := by
    rw [hs.node_eq]
    rfl
  unfold Stage.objectiveValue at found
  rw [same] at found
  cases hobjective : m.stage.objective with
  | decision v =>
    rw [hobjective] at he found
    cases he
    exact Subproblem.cast_valueOf hpoint found
  | affine f =>
    rw [hobjective] at he found
    cases he
    exact Subproblem.cast_valueOf hpoint found
  | datum d =>
    rw [hobjective] at he found
    rw [Operand.toAffine] at he
    split at he
    next hd =>
      obtain ⟨c, hc, rfl⟩ := Except.map_eq_ok.1 he
      have scalar : d.toScalar = .ok c := by
        rw [← hc]
        cases d with
        | text t => cases hd
        | _ => rfl
      cases scalar.symm.trans found
      exact (Affine.value_ofScalar _ _).symm
    next => cases he
  | _ =>
    rw [hobjective] at he
    cases he

/-- The state in which a node is left is that of the point, unless outgoing copies are fixed: those
may be outside of their bounds, into which the state is moved. -/
theorem Ready.profile_outgoing_of_unfixed (h : Ready sense start rows state noise m)
    (hs : Solved solver needsDuals m answer n') {point : List ℚ}
    (hpoint : n'.stage.subproblem.point? = some point)
    (hadmits : m.stage.subproblem.Admits (fun _ => False) (entryOf point))
    (unfixed : ∀ s ∈ start.stage.states.entries,
      m.stage.subproblem.fixed.get? s.2.outgoing.index = none) :
    answer.outgoing.profile = m.leaving (entryOf point) := by
  have states : n'.stage.states = start.stage.states := by
    rw [hs.node_eq]
    exact h.states_eq
  obtain ⟨program, -, hp⟩ := Subproblem.optimize_eq_ok hs.optimize
  have frame : n'.stage.subproblem.lower = m.stage.subproblem.lower ∧
      n'.stage.subproblem.upper = m.stage.subproblem.upper := by
    rw [hp]
    cases solver program <;> exact ⟨rfl, rfl⟩
  have found := hs.outgoing
  obtain ⟨entries, hentries, hanswer⟩ := Except.bind_eq_ok.1 found
  rw [states] at hentries
  -- a value within the bounds of its variable is not moved into them
  have listed : entries.map id = start.stage.states.entries.map fun s =>
      (s.1, point.getD s.2.outgoing.index 0) := by
    refine Except.map_eq_of_mapM hentries fun s hmem e he => ?_
    obtain ⟨value, hvalue, he⟩ := Except.bind_eq_ok.1 he
    obtain ⟨upper, hupper, he⟩ := Except.bind_eq_ok.1 he
    obtain ⟨lower, hlower, he⟩ := Except.bind_eq_ok.1 he
    cases he
    have at_point : value = point.getD s.2.outgoing.index 0 := by
      have cast := Subproblem.cast_valueOf hpoint hvalue
      rw [Affine.value_ofVariable] at cast
      exact Rat.cast_injective cast
    have hupper := Subproblem.upperBound_eq_ok hupper
    have hlower := Subproblem.lowerBound_eq_ok hlower
    rw [frame.2] at hupper
    rw [frame.1] at hlower
    have below : clampAbove upper value = value := clampAbove_of_le fun u hu => by
      rw [at_point]
      exact Rat.cast_le.1 (hadmits.le_upper _ not_false (unfixed s hmem) u (hu ▸ hupper))
    have above : clampBelow lower value = value := clampBelow_of_le fun l hl => by
      rw [at_point]
      exact Rat.cast_le.1 (hadmits.lower_le _ not_false (unfixed s hmem) l (hl ▸ hlower))
    rw [below, above, at_point]
    rfl
  have copied : answer.outgoing =
      start.stage.states.mapValues fun _ copies => point.getD copies.outgoing.index 0 := by
    rw [List.map_id] at listed
    rw [← Except.ok.inj hanswer, listed]
    rfl
  funext name
  rw [State.profile, leaving, copied, Dict.getD, Dict.get?_mapValues, h.states_eq]
  cases start.stage.states.get? name with
  | none => exact Rat.cast_zero
  | some copies => rfl

/-- The state in which a node is left is that of the point, unless a realization of the noise fixes
outgoing copies. -/
theorem Ready.profile_outgoing (hb : start.Blank) (h : Ready sense start rows state noise m)
    (hs : Solved solver needsDuals m answer n') {point : List ℚ}
    (hpoint : n'.stage.subproblem.point? = some point)
    (hadmits : m.stage.subproblem.Admits (fun _ => False) (entryOf point))
    (hfree : ∀ s ∈ start.stage.states.entries,
      ¬start.stage.Assignable (.fixed s.2.outgoing.index)) :
    answer.outgoing.profile = m.leaving (entryOf point) := by
  refine h.profile_outgoing_of_unfixed hs hpoint hadmits fun s hs => ?_
  -- no outgoing copy is an incoming one
  have kept := h.content (.fixed s.2.outgoing.index) trivial (hfree s hs) fun t ht heq => ?_
  · rw [Stage.content, Stage.content, hb.tidy.fixed_eq] at kept
    exact Content.number.inj kept
  · have same := hb.placed.eq_of_mem_indices hs ht (i := s.2.outgoing.index)
      (by simp [StateVariable.indices]) (by simp [StateVariable.indices, Field.fixed.inj heq])
    have own := (List.nodup_flatMap.1 hb.tidy.indices_nodup).1 s hs
    rw [← same] at heq
    simp [StateVariable.indices, Field.fixed.inj heq] at own

/-- The value term is at most the estimate, at the point of a solve: it cannot move towards the
estimate any further. -/
theorem Ready.term_atMost_estimate (hsolver : solver.Sound) (hb : start.Blank)
    (h : Ready sense start rows state noise m) (hchildren : start.children.isEmpty = false)
    (hbacked : Backed sense start.rowCount m)
    (he : m.stage.objective.toAffine describe = .ok e)
    (hs : Solved solver needsDuals m answer n') {point : List ℚ}
    (hpoint : n'.stage.subproblem.point? = some point) :
    sense.AtMost ((entryOf point start.cuts.term.index : ℝ) : EReal)
      (m.cuts.estimate sense (m.leaving (entryOf point))) := by
  obtain ⟨point', hpoint', -, hadmits, hfixed, hvalue, hbest⟩ := h.exists_point hsolver hb hs
  cases hpoint.symm.trans hpoint'
  obtain ⟨hsense, hobjective⟩ := h.posed_of_toAffine he
  -- lowering the value term would lower the objective as much
  have tight :
      ∀ t : ℝ, sense.AtMost (m.cuts.estimate sense (m.leaving (entryOf point))) (t : EReal) →
      sense.AtMost t (entryOf point start.cuts.term.index) →
        sense.AtMost (entryOf point start.cuts.term.index) t := by
    intro t hlow hhigh
    have admitted := h.admits_update hb hchildren hbacked hadmits hlow hhigh
    have bound := hbest _ admitted fun f hf => by
      rw [Function.update_of_ne (Nat.ne_of_lt (h.fixed_entries hb f hf))]
      exact hfixed f hf
    have stage : e.value (Function.update (entryOf point) start.cuts.term.index t) =
        e.value (entryOf point) := Affine.value_congr fun v hv =>
      Function.update_of_ne (Nat.ne_of_lt (h.within hb he v hv).2) _ _
    rw [hsense, hvalue, hobjective, Affine.value_add, Affine.value_add, Affine.value_ofVariable,
      Affine.value_ofVariable, stage, Function.update_self] at bound
    cases sense with
    | min => exact (add_le_add_iff_left _).1 bound
    | max => exact (add_le_add_iff_left _).1 bound
  cases sense with
  | min =>
    by_contra hlt
    obtain ⟨t, hlow, hhigh⟩ := EReal.lt_iff_exists_real_btwn.1 (not_le.1 hlt)
    have := tight t hlow.le (EReal.coe_le_coe_iff.1 hhigh.le)
    exact absurd (EReal.coe_le_coe_iff.2 this) (not_le.2 hhigh)
  | max =>
    by_contra hlt
    obtain ⟨t, hlow, hhigh⟩ := EReal.lt_iff_exists_real_btwn.1 (not_le.1 hlt)
    have := tight t hhigh.le (EReal.coe_le_coe_iff.1 hlow.le)
    exact absurd (EReal.coe_le_coe_iff.2 this) (not_le.2 hlow)

/-- The value of a solve is that of the stage and the value term, at the point of the solve. -/
theorem Ready.objective_eq_add (hsolver : solver.Sound) (hb : start.Blank)
    (h : Ready sense start rows state noise m) (he : m.stage.objective.toAffine describe = .ok e)
    (hs : Solved solver needsDuals m answer n') {point : List ℚ}
    (hpoint : n'.stage.subproblem.point? = some point) :
    (answer.objective : ℝ) = answer.stageObjective + entryOf point start.cuts.term.index := by
  obtain ⟨point', hpoint', -, -, -, hvalue, -⟩ := h.exists_point hsolver hb hs
  cases hpoint.symm.trans hpoint'
  rw [stageObjective_eq he hs hpoint, hvalue, (h.posed_of_toAffine he).2, Affine.value_add,
    Affine.value_ofVariable]

/-- The value of a solve is at most the objective of the stage and the estimate, both at the point
of the solve. -/
theorem Ready.objective_atMost_estimate (hsolver : solver.Sound) (hb : start.Blank)
    (h : Ready sense start rows state noise m) (hchildren : start.children.isEmpty = false)
    (hbacked : Backed sense start.rowCount m)
    (he : m.stage.objective.toAffine describe = .ok e)
    (hs : Solved solver needsDuals m answer n') {point : List ℚ}
    (hpoint : n'.stage.subproblem.point? = some point) :
    sense.AtMost ((answer.objective : ℝ) : EReal)
      (((answer.stageObjective : ℝ) : EReal) + m.cuts.estimate sense
        (m.leaving (entryOf point))) := by
  have term := h.term_atMost_estimate hsolver hb hchildren hbacked he hs hpoint
  rw [h.objective_eq_add hsolver hb he hs hpoint, EReal.coe_add]
  cases sense with
  | min => exact add_le_add_right term _
  | max => exact add_le_add_right term _

end Node

end Multistage
