import Multistage.Proofs.Linear.Mirrored
import Multistage.Proofs.Stage.Tidy

/-!
# Stages of the other sense

The objective of a stage can be negated together with the objectives that the noise assigns. A
realization of the noise then does to the mirrored subproblem what it did to the subproblem, as long
as nothing that has a name refers to the variable that is exchanged.

## Main definitions

- `Operand.negated`: the negative of an operand.
- `Edit.mirror`, `Stage.mirror`: the stage with all objectives negated.
- `Stage.Reserves`: a stage whose objectives have negatives.

## Main statements

- `Stage.twin_applyNoise`: a realization of the noise.
- `Stage.objectiveValue_mirror`: the value of the objective.
-/

namespace Multistage

/-! ### Negatives -/

/-- The negative of a datum, if it is a number. -/
def Datum.negated (d : Datum ℚ) : Datum ℚ :=
  match d.neg with
  | .ok d' => d'
  | .error _ => d

/-- The negative of an operand, if it has one. -/
def Operand.negated (o : Operand ℚ) : Operand ℚ :=
  match o.neg with
  | .ok o' => o'
  | .error _ => o

/-- The operand has a negative. -/
def Operand.Negatable (o : Operand ℚ) : Prop := ∃ o', o.neg = .ok o'

/-- The negative of a datum is a number if the datum is. -/
theorem Datum.neg_eq_ok {d d' : Datum ℚ} (h : d.neg = .ok d') :
    d.isNumeric = true ∧ d'.isNumeric = true ∧ ∃ x, d.toScalar = .ok x ∧ d.asNumber = .ok x ∧
      d'.toScalar = .ok (-x) ∧ d'.asNumber = .ok (-x) := by
  have number : ∀ n : ℤ, (scalarOfInt n : Except (Failure ℚ) ℚ) = .ok n := fun n => rfl
  have scalar : ∀ n : ℤ, (int (-n) : Datum ℚ).asNumber = .ok (-(n : ℚ)) := fun n => by
    rw [asNumber, number, Int.cast_neg]
  cases d with
  | int n =>
    cases h
    exact ⟨rfl, rfl, n, rfl, rfl, scalar n, scalar n⟩
  | bool b =>
    cases h
    cases b
    · exact ⟨rfl, rfl, 0, rfl, rfl, scalar 0, scalar 0⟩
    · exact ⟨rfl, rfl, 1, rfl, rfl, scalar 1, scalar 1⟩
  | real x =>
    cases h
    exact ⟨rfl, rfl, x, rfl, rfl, rfl, rfl⟩
  | _ => cases h

namespace Operand

variable {owner count constraints : ℕ} {o : Operand ℚ}

theorem Negatable.neg_eq (h : o.Negatable) : o.neg = .ok o.negated := by
  obtain ⟨o', ho'⟩ := h
  simp only [negated, ho']

theorem Within.negated (h : o.Within owner count constraints) :
    o.negated.Within owner count constraints := by
  unfold Operand.negated
  cases ho : o.neg with
  | ok o' => exact h.neg ho
  | error e => exact h

/-- What has a negative is an expression or a number. -/
theorem Negatable.cases (h : o.Negatable) :
    (∃ e, o.expression? = some e ∧ o.negated.expression? = some e.neg) ∨
      ∃ d d', o = datum d ∧ d.neg = .ok d' ∧ o.negated = datum d' := by
  obtain ⟨o', ho'⟩ := h
  simp only [Operand.negated, ho']
  cases o with
  | decision v =>
    cases ho'
    exact .inl ⟨_, rfl, rfl⟩
  | affine e =>
    cases ho'
    exact .inl ⟨_, rfl, rfl⟩
  | datum d =>
    obtain ⟨d', hd', rfl⟩ := Except.map_eq_ok.1 ho'
    exact .inr ⟨d, d', rfl, hd', rfl⟩
  | _ => cases ho'

theorem toAffine_of_expression {e : Affine ℚ} (h : o.expression? = some e)
    (describe : ConstraintHandle → Misfit ℚ) : o.toAffine describe = .ok e := by
  cases o with
  | decision v => exact congrArg Except.ok (Option.some.inj h)
  | affine f => exact congrArg Except.ok (Option.some.inj h)
  | _ => cases h

/-- What has a negative is an affine expression, and its negative is the negative of that. -/
theorem Negatable.toAffine (h : o.Negatable) :
    ∃ e : Affine ℚ, (∀ describe, o.toAffine describe = .ok e) ∧
      ∀ describe, o.negated.toAffine describe = .ok e.neg := by
  rcases h.cases with ⟨e, he, hneg⟩ | ⟨d, d', rfl, hd, hneg⟩
  · exact ⟨e, toAffine_of_expression he, toAffine_of_expression hneg⟩
  · obtain ⟨hnumeric, hnumeric', x, -, hx, -, hx'⟩ := Datum.neg_eq_ok hd
    refine ⟨Affine.ofScalar x, fun describe => ?_, fun describe => ?_⟩
    · rw [Operand.toAffine, if_pos hnumeric, hx]
      rfl
    · rw [hneg, Operand.toAffine, if_pos hnumeric', hx', Affine.neg]
      simp [Affine.ofScalar, Affine.scale, Dict.mapValues, Dict.empty, Except.map]

end Operand

/-! ### Stages -/

/-- The assignment of the other sense: an objective is negated. -/
def Edit.mirror : Edit ℚ → Edit ℚ
  | .objective value => .objective value.neg
  | edit => edit

namespace Stage

/-- The stage of the other sense: a variable of its subproblem is exchanged for its negative, and
the objective and all that the noise may make of it are negated. -/
def mirror (j : ℕ) (s : Stage ℚ) : Stage ℚ :=
  { s with
    subproblem := s.subproblem.mirror j
    objective := s.objective.negated
    edits := s.edits.map Edit.mirror }

/-- Where the names of the subproblem stand for what they do, the value of a formula has a
negative. -/
def Negates (r : Reserve) (value : Formula ℚ) (noise : Datum ℚ) : Prop :=
  ∀ s : Stage ℚ, s.subproblem.registry = r.registry → ∀ o, value.eval (s.scope noise) = .ok o →
    o.Negatable

/-- A variable is reserved in the subproblem of the stage, the noise terms are among those that may
be met, and the objective has a negative whatever is met. -/
structure Reserves (met : Datum ℚ → Prop) (r : Reserve) (s : Stage ℚ) : Prop where
  subproblem : s.subproblem.Reserves r (s.objectiveInstalled = true)
  copies : ∀ e ∈ s.states.entries, e.2.incoming.Within r.term.owner r.term.index ∧
    e.2.outgoing.Within r.term.owner r.term.index
  objective : s.objective.Within r.term.owner r.term.index r.rows
  negatable : s.objective.Negatable
  edits : ∀ value, .objective value ∈ s.edits → ∀ noise, met noise → Negates r value noise
  noise : ∀ n ∈ s.noise, met n.term

variable {met : Datum ℚ → Prop} {r : Reserve} {s : Stage ℚ} {β : Type} {noise : Datum ℚ}

theorem Reserves.lookup_within (h : s.Reserves met r) {name : Name} {o : Operand ℚ}
    (ho : s.lookup name = .ok o) : o.Within r.term.owner r.term.index r.rows :=
  Stage.lookup_within (fun name o hget => r.within name o (h.subproblem.registry_eq ▸ hget)) ho

/-- Another subproblem in which the same names stand for the same. -/
theorem Reserves.withSubproblem (h : s.Reserves met r) {p : Subproblem ℚ}
    (hp : p.Reserves r (s.objectiveInstalled = true)) : { s with subproblem := p }.Reserves met r :=
  { h with subproblem := hp }

theorem twin_onSubproblem {h : β → β} {R : β → Prop} {act act' : Action ℚ (Subproblem ℚ) β}
    (hact : ∀ installed, Action.Twin (Subproblem.mirror r.term.index) h
      (Subproblem.Reserves r installed) R act act') :
    Action.Twin (mirror r.term.index) h (Reserves met r) R (onSubproblem act)
      (onSubproblem act') := by
  refine .of_cases (J := fun b s => s.Reserves met r ∧ s.objectiveInstalled = b)
    (fun s hs => ⟨s.objectiveInstalled, hs, rfl⟩) (fun _ _ hs => hs.1) fun b => ?_
  refine .focus (hact (b = true)) (fun s hs => hs.2 ▸ hs.1.subproblem) (fun s p hs hp => ?_)
    (fun _ _ => rfl) fun _ _ _ => rfl
  obtain ⟨hs, rfl⟩ := hs
  exact ⟨hs.withSubproblem hp, rfl⟩

/-! ### Noise -/

theorem eval_mirror (h : s.Reserves met r) (value : Formula ℚ) (noise : Datum ℚ) :
    value.eval ((s.mirror r.term.index).scope noise) = value.eval (s.scope noise) :=
  Formula.eval_congr (fun _ _ => h.lookup_within) fun _ => Subproblem.describe_mirror h.subproblem

theorem twin_evaluate (value : Formula ℚ) (noise : Datum ℚ) :
    Action.Twin (mirror r.term.index) id (Reserves met r) (fun _ => True)
      (evaluate value noise) (evaluate value noise) :=
  .bind .get fun _ hs => .ofExcept ((eval_mirror hs value noise).trans
    (congrFun Except.map_id _).symm) fun _ _ => trivial

theorem twin_lookup {f f' : Operand ℚ → Action ℚ (Stage ℚ) β} {h : β → β} {R : β → Prop}
    (name : Name)
    (hf : ∀ o : Operand ℚ, o.Within r.term.owner r.term.index r.rows →
      Action.Twin (mirror r.term.index) h (Reserves met r) R (f o) (f' o)) :
    Action.Twin (mirror r.term.index) h (Reserves met r) R
      (do f (← Action.ofExcept ((← get).lookup name)))
      (do f' (← Action.ofExcept ((← get).lookup name))) :=
  .bind .get fun _ hs => .bind (h := id) (.ofExcept (congrFun Except.map_id _).symm fun _ ho =>
    hs.lookup_within ho) hf

theorem twin_toVariable {f f' : Variable → Action ℚ (Stage ℚ) β} {h : β → β} {R : β → Prop}
    {o : Operand ℚ} (ho : o.Within r.term.owner r.term.index r.rows)
    (hf : ∀ v : Variable, v.index ≠ r.term.index →
      Action.Twin (mirror r.term.index) h (Reserves met r) R (f v) (f' v)) :
    Action.Twin (mirror r.term.index) h (Reserves met r) R
      (do f (← Action.ofExcept o.toVariable)) (do f' (← Action.ofExcept o.toVariable)) := by
  refine .bind (h := id) (.ofExcept (congrFun Except.map_id _).symm fun v hv => ?_) hf
  cases o with
  | decision v =>
    cases hv
    exact ne_of_lt ho.2
  | _ => cases hv

theorem twin_toConstraint {f f' : ConstraintHandle → Action ℚ (Stage ℚ) β} {h : β → β}
    {R : β → Prop} {o : Operand ℚ} (ho : o.Within r.term.owner r.term.index r.rows)
    (hf : ∀ k : ConstraintHandle, k.index < r.rows →
      Action.Twin (mirror r.term.index) h (Reserves met r) R (f k) (f' k)) :
    Action.Twin (mirror r.term.index) h (Reserves met r) R
      (do f (← Action.ofExcept o.toConstraint)) (do f' (← Action.ofExcept o.toConstraint)) := by
  refine .bind (h := id) (.ofExcept (congrFun Except.map_id _).symm fun k hk => ?_) hf
  cases o with
  | constraint k =>
    cases hk
    exact ho
  | _ => cases hk

theorem twin_toScalar {f f' : ℚ → Action ℚ (Stage ℚ) β} {h : β → β} {R : β → Prop}
    (value : Formula ℚ) (noise : Datum ℚ)
    (hf : ∀ x, Action.Twin (mirror r.term.index) h (Reserves met r) R (f x) (f' x)) :
    Action.Twin (mirror r.term.index) h (Reserves met r) R
      (do f (← Action.ofExcept (← evaluate value noise).toScalar))
      (do f' (← Action.ofExcept (← evaluate value noise).toScalar)) :=
  .bind (twin_evaluate value noise) fun _ _ => .bind (h := id) (R := fun _ => True)
    (.ofExcept (congrFun Except.map_id _).symm fun _ _ => trivial) fun x _ => hf x

theorem twin_assign {set : Variable → ℚ → Action ℚ (Subproblem ℚ) Unit}
    (hset : ∀ installed v x,
      v.index ≠ r.term.index → Action.Twin (Subproblem.mirror r.term.index) id
      (Subproblem.Reserves r installed) (fun _ => True) (set v x) (set v x))
    (target : Name) (value : Formula ℚ) (noise : Datum ℚ) :
    Action.Twin (mirror r.term.index) id (Reserves met r) (fun _ => True)
      (assign target value noise set) (assign target value noise set) :=
  twin_lookup target fun _ ho => twin_toScalar value noise fun x => twin_toVariable ho fun v hv =>
    twin_onSubproblem fun installed => hset installed v x hv

/-- Another objective that has a negative, which is not installed yet. -/
theorem Reserves.setObjective (h : s.Reserves met r) {o : Operand ℚ}
    (ho : o.Within r.term.owner r.term.index r.rows) (hneg : o.Negatable) :
    { s with objective := o, objectiveInstalled := false }.Reserves met r :=
  { h with
    subproblem := { h.subproblem with mentions := nofun }
    objective := ho
    negatable := hneg }

theorem twin_objective {value : Formula ℚ} (hvalue : Negates r value noise) :
    Action.Twin (mirror r.term.index) id (Reserves met r) (fun _ => True)
      (do setObjective (← evaluate value noise))
      (do setObjective (← evaluate value.neg noise)) := by
  have evaluated : Action.Twin (mirror r.term.index) Operand.negated (Reserves met r)
      (fun o => o.Within r.term.owner r.term.index r.rows ∧ o.Negatable)
      (evaluate value noise) (evaluate value.neg noise) := by
    refine .bind .get fun s hs => ?_
    have negatable := hvalue s hs.subproblem.registry_eq
    refine .ofExcept ?_ fun o ho =>
      ⟨Formula.eval_within (fun _ _ => hs.lookup_within) ho, negatable o ho⟩
    show value.eval ((s.mirror r.term.index).scope noise) >>= Operand.neg = _
    rw [eval_mirror hs]
    cases ho : value.eval (s.scope noise) with
    | error e => rfl
    | ok o => exact (negatable o ho).neg_eq
  exact .bind evaluated fun o ho => .modify (fun s hs => hs.setObjective ho.1 ho.2) fun _ _ => rfl

theorem twin_applyEdit {edit : Edit ℚ}
    (hedit : ∀ value, edit = .objective value → Negates r value noise) :
    Action.Twin (mirror r.term.index) id (Reserves met r) (fun _ => True)
      (applyEdit noise edit) (applyEdit noise edit.mirror) := by
  cases edit with
  | fix target value =>
    exact twin_assign (fun _ _ x hv => Subproblem.twin_fix hv x) target value noise
  | setLower target value =>
    exact twin_assign (fun _ _ x hv => Subproblem.twin_setLower hv _) target value noise
  | setUpper target value =>
    exact twin_assign (fun _ _ x hv => Subproblem.twin_setUpper hv _) target value noise
  | unfix target =>
    exact twin_lookup target fun _ ho => twin_toVariable ho fun v _ =>
      twin_onSubproblem fun _ => Subproblem.twin_unfix v
  | setRhs constraint value =>
    exact twin_lookup constraint fun _ ho => twin_toScalar value noise fun x =>
      twin_toConstraint ho fun k hk => twin_onSubproblem fun _ =>
        Subproblem.twin_editRow hk (fun _ => rfl) fun _ => rfl
  | setCoefficient constraint target value =>
    refine twin_lookup constraint fun _ hc => twin_lookup target fun _ ho =>
      twin_toScalar value noise fun x => twin_toConstraint hc fun k hk =>
        twin_toVariable ho fun v hv => .bind .get fun s _ => ?_
    refine .bind (h := id) (R := (· ≠ r.term.index))
      (.ofExcept (congrFun Except.map_id _).symm fun i hi => ?_)
      fun i hi => twin_onSubproblem fun _ => Subproblem.twin_editRow hk (fun c => ?_) fun _ => rfl
    · rwa [(Subproblem.position_eq_ok hi).2]
    · have other :
          (c.coefficients.insert i x).get? r.term.index = c.coefficients.get? r.term.index := by
        rw [Dict.get?_insert, if_neg (by simpa using hi)]
      show (c.coefficients.insert i x).contains _ = _
      rw [Dict.contains_eq_isSome_get?, other, ← Dict.contains_eq_isSome_get?]
  | objective value => exact twin_objective (hedit value rfl)

/-- A realization of the noise that may be met does the same to a stage and to the mirrored
stage. -/
theorem twin_applyNoise (hnoise : met noise) :
    Action.Twin (mirror r.term.index) id (Reserves met r) (fun _ => True)
      (applyNoise noise) (applyNoise noise) := by
  refine .bind .get fun s hs => ?_
  show Action.Twin _ _ _ _ _ ((s.edits.map Edit.mirror).forM (applyEdit noise))
  simp only [List.forM_eq_forM, List.forM_map]
  exact .forM fun edit hedit => twin_applyEdit fun value hvalue =>
    hs.edits value (hvalue ▸ hedit) noise hnoise

/-! ### The value of the objective -/

theorem objectiveValue_mirror (h : s.Reserves met r) :
    (s.mirror r.term.index).objectiveValue = s.objectiveValue.map (-·) := by
  rcases h.negatable.cases with ⟨e, he, hneg⟩ | ⟨d, d', hd, hneg, hd'⟩
  · have spared : ∀ v ∈ e.neg.terms.keys, v.index ≠ r.term.index := fun v hv =>
      ne_of_lt ((h.objective.expression he).neg v hv).2
    simp only [objectiveValue, mirror, he, hneg]
    rw [Subproblem.valueOf_mirror spared, Subproblem.valueOf_neg]
  · obtain ⟨-, -, x, hx, -, hx', -⟩ := Datum.neg_eq_ok hneg
    have value : s.objectiveValue = d.toScalar := by
      unfold objectiveValue
      rw [hd]
      rfl
    have value' : (s.mirror r.term.index).objectiveValue = d'.toScalar := by
      unfold objectiveValue
      rw [show (s.mirror r.term.index).objective = .datum d' from hd']
      rfl
    rw [value, value', hx, hx']
    rfl

end Stage

end Multistage
