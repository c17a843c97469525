import Multistage.Proofs.Cut.Height
import Multistage.Proofs.Linear.Relating
import Multistage.Proofs.Node.Blank
import Multistage.Proofs.Node.Declaration
import Multistage.Proofs.Sums

/-!
# What the constraint of a cut says

The constraint that installs a cut relates the value term to the cut at the outgoing copies of the
states. The cut has a coefficient for every state, and the copies and the value term are different
variables.

## Main definitions

- `Node.Placed`: the copies and the value term have positions of their own.
- `Node.leaving`: the state in which a node is left at a point.

## Main statements

- `Node.holds_cutConstraint`: what the constraint of a cut says.
- `Node.exists_cutConstraint`: a cut can be installed.
-/

namespace Multistage

namespace Node

/-- The copies of the states come before the value term, each with a position of its own. -/
structure Placed (n : Node ℚ) : Prop where
  copies : ∀ e ∈ n.stage.states.entries,
    e.2.incoming.Within n.stage.subproblem.owner n.cuts.term.index ∧
      e.2.outgoing.Within n.stage.subproblem.owner n.cuts.term.index
  indices_nodup : (n.stage.states.entries.flatMap fun e => e.2.indices).Nodup
  distinct : n.stage.states.Distinct
  term_owner : n.cuts.term.owner = n.stage.subproblem.owner
  term_lt : n.cuts.term.index < n.stage.subproblem.names.length

theorem Blank.placed {n : Node ℚ} (h : n.Blank) : n.Placed :=
  ⟨h.tidy.copies, h.tidy.indices_nodup, h.tidy.distinct, h.term_owner, h.term_lt⟩

theorem Placed.of_declaration_eq {n n' : Node ℚ} (h : n.Placed)
    (hd : n'.declaration = n.declaration) : n'.Placed := by
  have states : n'.stage.states = n.stage.states := congrArg (·.stage.states) hd
  have owner : n'.stage.subproblem.owner = n.stage.subproblem.owner :=
    congrArg (·.stage.subproblem.owner) hd
  have names : n'.stage.subproblem.names = n.stage.subproblem.names :=
    congrArg (·.stage.subproblem.names) hd
  have term : n'.cuts.term = n.cuts.term := congrArg (·.cuts.term) hd
  constructor
  · rw [states, owner, term]
    exact h.copies
  · rw [states]
    exact h.indices_nodup
  · rw [states]
    exact h.distinct
  · rw [term, owner]
    exact h.term_owner
  · rw [term, names]
    exact h.term_lt

/-- The state in which a node is left at a point: the entries of the outgoing copies. -/
def leaving (n : Node ℚ) (z : ℕ → ℝ) : Name → ℝ := fun name =>
  ((n.stage.states.get? name).map fun copies => z copies.outgoing.index).getD 0

/-- The slope of a cut over the outgoing copies. -/
def slope (n : Node ℚ) (c : Cut ℚ) : Affine ℚ :=
  n.stage.states.entries.foldl (fun e s =>
    e.add ((Affine.ofVariable s.2.outgoing).scale (c.coefficients.getD s.1 0))) (Affine.ofScalar 0)

variable {n : Node ℚ} {c : Cut ℚ}

theorem cutExpression_eq
    (h : ∀ name ∈ n.stage.states.keys, ∃ v, c.coefficients.get? name = some v) :
    n.cutExpression c = .ok ((Affine.ofVariable n.cuts.term).sub (n.slope c)) := by
  refine Except.bind_eq_ok.2 ⟨n.slope c, ?_, rfl⟩
  refine Except.foldlM_eq_ok (fun e s hs => ?_) _
  obtain ⟨v, hv⟩ := h s.1 (List.mem_map_of_mem hs)
  simp only [hv, Dict.getD, Option.getD_some]

/-- The variables of the slope are outgoing copies, and its value is linear in them. -/
theorem slope_spec (n : Node ℚ) (c : Cut ℚ) :
    (n.slope c).terms.Distinct ∧ (n.slope c).constant = 0 ∧
      (∀ v ∈ (n.slope c).terms.keys, ∃ s ∈ n.stage.states.entries, v = s.2.outgoing) ∧
      ∀ z, (n.slope c).value z = (n.stage.states.entries.map fun s =>
        ((c.coefficients.getD s.1 0 : ℚ) : ℝ) * z s.2.outgoing.index).sum := by
  have folded : ∀ (states : List (Name × StateVariable)) (e : Affine ℚ),
      let e' := states.foldl (fun e s =>
        e.add ((Affine.ofVariable s.2.outgoing).scale (c.coefficients.getD s.1 0))) e
      (e.terms.Distinct → e'.terms.Distinct) ∧ e'.constant = e.constant ∧
        (∀ v ∈ e'.terms.keys, v ∈ e.terms.keys ∨ ∃ s ∈ states, v = s.2.outgoing) ∧
        ∀ z, e'.value z = e.value z + (states.map fun s =>
          ((c.coefficients.getD s.1 0 : ℚ) : ℝ) * z s.2.outgoing.index).sum := by
    intro states
    induction states with
    | nil => intro e; exact ⟨id, rfl, fun v hv => .inl hv, fun z => by simp⟩
    | cons s rest ih =>
      intro e
      obtain ⟨hdistinct, hconstant, hkeys, hvalue⟩ :=
        ih (e.add ((Affine.ofVariable s.2.outgoing).scale (c.coefficients.getD s.1 0)))
      refine ⟨fun h => hdistinct (Affine.distinct_add h), ?_, fun v hv => ?_, fun z => ?_⟩
      · rw [List.foldl_cons, hconstant]
        simp [Affine.add, Affine.scale, Affine.ofVariable]
      · rcases hkeys v hv with hv | ⟨t, ht, rfl⟩
        · rcases Affine.mem_keys_add.1 hv with hv | hv
          · exact .inl hv
          · exact .inr ⟨s, List.mem_cons_self,
              List.mem_singleton.1 (Affine.mem_keys_scale.1 hv)⟩
        · exact .inr ⟨t, List.mem_cons_of_mem _ ht, rfl⟩
      · rw [List.foldl_cons, hvalue, Affine.value_add, Affine.value_scale, Affine.value_ofVariable,
          List.map_cons, List.sum_cons, add_assoc]
  obtain ⟨hdistinct, hconstant, hkeys, hvalue⟩ := folded n.stage.states.entries (Affine.ofScalar 0)
  refine ⟨hdistinct .nil, hconstant, fun v hv => ?_, fun z => ?_⟩
  · exact (hkeys v hv).resolve_left List.not_mem_nil
  · rw [slope, hvalue, Affine.value_ofScalar, Rat.cast_zero, zero_add]

/-- A position belongs to one state only. -/
theorem Placed.eq_of_mem_indices (h : n.Placed) {s t : Name × StateVariable}
    (hs : s ∈ n.stage.states.entries) (ht : t ∈ n.stage.states.entries) {i : ℕ}
    (his : i ∈ s.2.indices) (hit : i ∈ t.2.indices) : s = t := by
  obtain ⟨-, hdisjoint⟩ := List.nodup_flatMap.1 h.indices_nodup
  have : Std.Symm (Function.onFun List.Disjoint fun e : Name × StateVariable => e.2.indices) :=
    ⟨fun _ _ h => List.Disjoint.symm h⟩
  by_contra hne
  exact hdisjoint.forall hs ht hne his hit

/-- The variables of the constraint of a cut have positions of their own. -/
theorem Placed.separated (h : n.Placed) (c : Cut ℚ) :
    (((Affine.ofVariable n.cuts.term).sub (n.slope c)).sub
      (Affine.ofScalar c.intercept)).Separated ∧
      ∀ v ∈ (((Affine.ofVariable n.cuts.term).sub (n.slope c)).sub
        (Affine.ofScalar c.intercept)).terms.keys,
        v.owner = n.stage.subproblem.owner ∧ v.index < n.stage.subproblem.names.length := by
  have keys : ∀ v ∈ (((Affine.ofVariable n.cuts.term).sub (n.slope c)).sub
      (Affine.ofScalar c.intercept)).terms.keys,
        v = n.cuts.term ∨ ∃ s ∈ n.stage.states.entries, v = s.2.outgoing := by
    intro v hv
    rcases Affine.mem_keys_sub.1 hv with hv | hv
    · rcases Affine.mem_keys_sub.1 hv with hv | hv
      · exact .inl (List.mem_singleton.1 hv)
      · exact .inr ((slope_spec n c).2.2.1 v hv)
    · cases hv
  have single : (Affine.ofVariable n.cuts.term : Affine ℚ).terms.Distinct :=
    List.pairwise_singleton _ _
  refine ⟨⟨Affine.distinct_add (Affine.distinct_add single), ?_⟩, ?_⟩
  · intro u hu v hv hi
    rcases keys u hu with rfl | ⟨s, hs, rfl⟩
    · rcases keys v hv with rfl | ⟨t, ht, rfl⟩
      · rfl
      · exact absurd hi (Nat.ne_of_gt (h.copies t ht).2.2)
    · rcases keys v hv with rfl | ⟨t, ht, rfl⟩
      · exact absurd hi (Nat.ne_of_lt (h.copies s hs).2.2)
      · rw [h.eq_of_mem_indices hs ht (i := s.2.outgoing.index) (by simp [StateVariable.indices])
          (by simp [StateVariable.indices, hi])]
  · intro v hv
    rcases keys v hv with rfl | ⟨s, hs, rfl⟩
    · exact ⟨h.term_owner, h.term_lt⟩
    · exact ⟨(h.copies s hs).2.1, (h.copies s hs).2.2.trans h.term_lt⟩

/-- A cut has one coefficient for every state. -/
def Covers (n : Node ℚ) (c : Cut ℚ) : Prop :=
  c.coefficients.Distinct ∧ ∀ name ∈ n.stage.states.keys, ∃ v, c.coefficients.get? name = some v

theorem Covers.congr {n' : Node ℚ} {c' : Cut ℚ} (h : n.Covers c)
    (hstates : n'.stage.states = n.stage.states) (hslope : c'.coefficients = c.coefficients) :
    n'.Covers c' := by
  rw [Covers, hstates, hslope]
  exact h

/-- A cut that can be expressed has a coefficient for every state. -/
theorem total_of_cutExpression {e : Affine ℚ} (h : n.cutExpression c = .ok e) :
    ∀ name ∈ n.stage.states.keys, ∃ v, c.coefficients.get? name = some v := by
  obtain ⟨slope, hslope, -⟩ := Except.bind_eq_ok.1 h
  intro name hname
  obtain ⟨s, hs, rfl⟩ := List.mem_map.1 hname
  obtain ⟨e, e', hstep⟩ := Except.exists_of_foldlM hslope hs
  cases hv : c.coefficients.get? s.1 with
  | none =>
    simp only [hv] at hstep
    cases hstep
  | some v => exact ⟨v, rfl⟩

theorem covers_of_cutConstraint {sense : Sense} {k : Constraint ℚ} (hd : c.coefficients.Distinct)
    (h : n.cutConstraint sense c = .ok k) : n.Covers c := by
  obtain ⟨e, he, -⟩ := Except.bind_eq_ok.1 h
  exact ⟨hd, total_of_cutExpression he⟩

theorem exists_cutConstraint (h : n.Placed) (hc : n.Covers c) (sense : Sense) :
    ∃ k, n.cutConstraint sense c = .ok k := by
  obtain ⟨k, hk⟩ : ∃ k, n.stage.subproblem.constraintOf _ _ sense.cutRelation .null = .ok k :=
    Subproblem.exists_constraintOf fun v hv => ((h.separated c).2 v hv).1
  exact ⟨k, Except.bind_eq_ok.2 ⟨_, cutExpression_eq hc.2, hk⟩⟩

/-- The cut at the state in which the node is left. -/
theorem value_leaving (h : n.Placed) (hc : n.Covers c) (z : ℕ → ℝ) :
    c.value (n.leaving z) = c.intercept + (n.slope c).value z := by
  have left : ∀ s ∈ n.stage.states.entries, n.leaving z s.1 = z s.2.outgoing.index := by
    intro s hs
    have found : n.stage.states.get? s.1 = some s.2 :=
      (Dict.get?_eq_some_iff h.distinct).2 ⟨s, hs, BEq.rfl, rfl⟩
    rw [leaving, found, Option.map_some, Option.getD_some]
  -- coefficients of other names count for nothing, since those are zero in the state
  let f : Name → ℝ := fun name => ((c.coefficients.getD name 0 : ℚ) : ℝ) * n.leaving z name
  have respects : ∀ a b, (a == b) = true → f a = f b := by
    intro a b hab
    simp only [f, leaving, Dict.getD, Dict.get?_congr hab]
  have others : (c.coefficients.keys.map f).sum =
      ((c.coefficients.keys.filter n.stage.states.keys.contains).map f).sum := by
    induction c.coefficients.keys with
    | nil => rfl
    | cons name rest ih =>
      by_cases hname : n.stage.states.keys.contains name = true
      · rw [List.filter_cons_of_pos hname, List.map_cons, List.sum_cons, ih, List.map_cons,
          List.sum_cons]
      · have absent : n.stage.states.get? name = none := by
          rw [← Option.not_isSome_iff_eq_none, Option.isSome_iff_exists]
          rintro ⟨copies, hcopies⟩
          obtain ⟨s, hs, hsname⟩ := Dict.exists_mem_of_get? hcopies
          exact hname (List.contains_iff_exists_mem_beq.2
            ⟨s.1, List.mem_map_of_mem hs, BEq.symm hsname.1⟩)
        have zero : f name = 0 := by
          simp only [f, leaving, absent, Option.map_none, Option.getD_none,
          mul_zero]
        rw [List.filter_cons_of_neg hname, List.map_cons, List.sum_cons, ih, zero, zero_add]
  have same : ∀ name, (c.coefficients.keys.filter n.stage.states.keys.contains).contains name =
      n.stage.states.keys.contains name := by
    intro name
    rw [Bool.eq_iff_iff, List.contains_iff_exists_mem_beq, List.contains_iff_exists_mem_beq]
    constructor
    · rintro ⟨key, hkey, hbeq⟩
      obtain ⟨other, hother, hbeq'⟩ := List.contains_iff_exists_mem_beq.1 (List.mem_filter.1 hkey).2
      exact ⟨other, hother, BEq.trans hbeq hbeq'⟩
    · rintro ⟨other, hother, hbeq⟩
      obtain ⟨v, hv⟩ := hc.2 other hother
      obtain ⟨e, he, heq, -⟩ := Dict.exists_mem_of_get? hv
      exact ⟨e.1, List.mem_filter.2 ⟨List.mem_map_of_mem he,
        List.contains_iff_exists_mem_beq.2 ⟨other, hother, heq⟩⟩, BEq.trans hbeq (BEq.symm heq)⟩
  have slope : (c.coefficients.entries.map fun e => ((e.2 : ℚ) : ℝ) * n.leaving z e.1).sum =
      (n.slope c).value z := by
    rw [Dict.sum_entries hc.1 0 fun name (v : ℚ) => (v : ℝ) * n.leaving z name]
    refine others.trans ?_
    rw [sum_map_eq_of_contains_eq respects ((Dict.distinct_iff_keys.1 hc.1).filter _)
      (Dict.distinct_iff_keys.1 h.distinct) same, (slope_spec n c).2.2.2 z, Dict.keys, List.map_map]
    exact congrArg List.sum (List.map_congr_left fun s hs => by
      simp only [Function.comp_apply, f, left s hs])
  rw [Cut.value, slope]

/-- The constraint of a cut says that the value term is at least the cut when minimising, and at
most the cut when maximising. -/
theorem holds_cutConstraint (h : n.Placed) (hc : n.Covers c) {sense : Sense} {k : Constraint ℚ}
    (hk : n.cutConstraint sense c = .ok k) (z : ℕ → ℝ) :
    k.Holds n.stage.subproblem.names.length z ↔
      sense.AtMost (c.value (n.leaving z)) (z n.cuts.term.index) := by
  obtain ⟨e, he, hk⟩ := Except.bind_eq_ok.1 hk
  rw [cutExpression_eq hc.2] at he
  cases he
  rw [Subproblem.holds_constraintOf hk (h.separated c).1 fun v hv => ((h.separated c).2 v hv).2,
    value_leaving h hc, Affine.value_sub, Affine.value_ofVariable, Affine.value_ofScalar]
  cases sense with
  | min =>
    show (c.intercept : ℝ) ≤ _ ↔ _ ≤ _
    constructor <;> intro hle <;> linarith
  | max =>
    show _ ≤ (c.intercept : ℝ) ↔ _ ≤ _
    constructor <;> intro hle <;> linarith

end Node

end Multistage
