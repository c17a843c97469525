import Multistage.Proofs.Linear.Assembly
import Multistage.Proofs.Linear.Mentions
import Multistage.Proofs.Linear.Mirror
import Multistage.Proofs.Sums
import Multistage.Proofs.Twin

/-!
# Calls of mirrored subproblems

What is done to a subproblem can be done to its mirror image: the same bounds and values for other
variables than the one that is exchanged for its negative, and the other sense with the negated
objective. What is read off the solved image are the same values and negated duals.

## Main definitions

- `Subproblem.Reserves`: nothing that has a name refers to the exchanged variable.

## Main statements

- `Subproblem.twin_optimize`: solves of both.
- `Subproblem.valueOf_mirror`, `Subproblem.fixedDual_mirror`: what is read off them.
- `Subproblem.constraintOf_mirror`: a constraint over the exchanged variable.
-/

namespace Multistage

/-! ### Expressions -/

namespace Affine

variable {j : ℕ} {e f : Affine ℚ} {v : Variable}

theorem scale_mirror (e : Affine ℚ) (c : ℚ) : (e.mirror j).scale c = (e.scale c).mirror j := by
  simp only [mirror, scale, Dict.mapValues, List.map_map, neg_mul, Affine.mk.injEq,
    Dict.mk.injEq, and_true]
  refine List.map_congr_left fun t _ => Prod.ext rfl ?_
  simp only [Function.comp]
  split <;> ring

theorem mirror_ofVariable (v : Variable) :
    (ofVariable v : Affine ℚ).mirror v.index = ofVariable v := by
  simp [mirror, ofVariable, Dict.mapValues]

/-- An expression without the exchanged variable is negated. -/
theorem mirror_eq_neg (he : ∀ v ∈ e.terms.keys, v.index ≠ j) : e.mirror j = e.neg := by
  simp only [mirror, neg, scale, mul_neg, mul_one, Affine.mk.injEq, and_true]
  refine congrArg Dict.mk (List.map_congr_left fun t ht => Prod.ext rfl ?_)
  exact if_neg (he t.1 (List.mem_map_of_mem ht))

theorem add_mirror (e f : Affine ℚ) : (e.mirror j).add (f.mirror j) = (e.add f).mirror j := by
  let turn : Variable → ℚ → ℚ := fun v a => if v.index = j then a else -a
  have term : ∀ (terms : Dict Variable ℚ) (v : Variable) (a : ℚ),
      addTerm (terms.mapValues turn) v (turn v a) = (addTerm terms v a).mapValues turn := by
    intro terms v a
    unfold addTerm
    rw [Dict.mapValues_insert
      fun k k' a h => by rw [eq_of_beq h], Dict.getD, Dict.get?_mapValues_of_lawful,
      Dict.getD]
    refine congrArg (Dict.insert _ v) ?_
    cases terms.get? v with
    | none => simp [turn]
    | some b =>
      simp only [turn, Option.map_some, Option.getD_some]
      split <;> ring
  have fold : ∀ (es : List (Variable × ℚ)) (terms : Dict Variable ℚ),
      es.foldl (fun terms t => addTerm terms t.1 (turn t.1 t.2)) (terms.mapValues turn) =
        (es.foldl (fun terms t => addTerm terms t.1 t.2) terms).mapValues turn := by
    intro es
    induction es with
    | nil => exact fun _ => rfl
    | cons t rest ih => exact fun terms => by rw [List.foldl_cons, List.foldl_cons, term, ih]
  have constant : -e.constant + -f.constant = -(e.constant + f.constant) := by ring
  simp only [mirror, add, Dict.mapValues, List.foldl_map, constant]
  exact congrArg (Affine.mk · _) (fold f.terms.entries e.terms)

theorem sub_mirror (e f : Affine ℚ) : (e.mirror j).sub (f.mirror j) = (e.sub f).mirror j := by
  unfold sub neg
  rw [scale_mirror, add_mirror]

end Affine

/-- A variable that is reserved in a subproblem: names stand for variables before it and for the
first constraints. -/
structure Reserve where
  term : Variable
  rows : ℕ
  registry : Dict Name (Operand ℚ)
  within : ∀ name o, registry.get? name = some o → o.Within term.owner term.index rows

namespace Subproblem

/-- Nothing that has a name refers to the reserved variable, nor do the first constraints. Once the
objective is installed it is over that variable. -/
structure Reserves (r : Reserve) (installed : Prop) (p : Subproblem ℚ) : Prop
    extends p.Spares r.term.index where
  owner_eq : p.owner = r.term.owner
  registry_eq : p.registry = r.registry
  row : ∀ k < r.rows, ∃ c, p.constraints[k]? = some c ∧ c.coefficients.contains r.term.index = false
  mentions : installed → p.mentions r.term.index = true

variable {j : ℕ} {p : Subproblem ℚ} {v : Variable} {r : Reserve} {installed : Prop}

/-! ### Changes -/

theorem twin_atVariable {change : Subproblem ℚ → ℕ → Subproblem ℚ}
    (hreserves : ∀ p : Subproblem ℚ,
      p.Reserves r installed → (change p v.index).Reserves r installed)
    (hchange : ∀ p : Subproblem ℚ,
      change (p.mirror r.term.index) v.index = (change p v.index).mirror r.term.index) :
    Action.Twin (mirror r.term.index) id (Reserves r installed) (fun _ => True)
      (atVariable v change) (atVariable v change) := by
  refine .bind .get fun p hp => .bind (h := id) (R := (· = v.index)) (.ofExcept ?_ fun i hi =>
    (position_eq_ok hi).2) fun i hi => .set (fun _ _ => ?_) ?_
  · exact (congrFun Except.map_id _).symm
  · rw [hi]
    exact hreserves p hp
  · rw [hi]
    exact hchange p

theorem twin_fix (hv : v.index ≠ r.term.index) (x : ℚ) :
    Action.Twin (mirror r.term.index) id (Reserves r installed) (fun _ => True) (fix v x)
      (fix v x) := by
  refine twin_atVariable (fun p hp => { hp with fixed := ?_ }) fun _ => rfl
  have : (p.fixed.insert v.index x).get? r.term.index = p.fixed.get? r.term.index := by
    rw [Dict.get?_insert, if_neg (by simpa using hv)]
  show (p.fixed.insert v.index x).contains r.term.index = false
  rw [Dict.contains_eq_isSome_get?, this, ← Dict.contains_eq_isSome_get?]
  exact hp.fixed

theorem twin_unfix (v : Variable) :
    Action.Twin (mirror r.term.index) id (Reserves r installed) (fun _ => True) (unfix v)
      (unfix v) := by
  refine twin_atVariable (fun p hp => { hp with fixed := ?_ }) fun _ => rfl
  have hfixed := hp.fixed
  rw [Dict.contains, List.any_eq_false] at hfixed ⊢
  exact fun e he => hfixed e (List.mem_of_mem_eraseP he)

theorem setBound_set (hv : v.index ≠ j) (p : Subproblem ℚ) (side : List (Extended ℚ))
    (b b' : Extended ℚ) :
    p.setBound (side.set j b') v b = (p.setBound side v b).map (·.set j b') := by
  unfold setBound
  refine Except.bind_image (h := id) (congrFun Except.map_id _).symm fun i hi => ?_
  obtain ⟨-, rfl⟩ := position_eq_ok hi
  by_cases hlt : v.index < side.length
  · rw [if_pos hlt, if_pos ((List.length_set ..).symm ▸ hlt)]
    exact congrArg Except.ok (List.set_comm _ _ (Ne.symm hv))
  · rw [if_neg hlt, if_neg ((List.length_set ..).symm ▸ hlt)]
    rfl

theorem getD_set_of_ne {i : ℕ} (hi : i ≠ j) (side : List (Extended ℚ)) (b other : Extended ℚ) :
    (side.set i b).getD j other = side.getD j other := by
  rw [List.getD_eq_getElem?_getD, List.getElem?_set_ne hi, List.getD_eq_getElem?_getD]

theorem twin_setLower (hv : v.index ≠ r.term.index) (b : Extended ℚ) :
    Action.Twin (mirror r.term.index) id (Reserves r installed) (fun _ => True)
      (setLower v b) (setLower v b) := by
  refine .bind .get fun p hp => .bind (R := (· = p.lower.set v.index b))
    (.ofExcept (setBound_set hv p p.lower b _) fun side hside => (setBound_eq_ok hside).2.2) ?_
  rintro _ rfl
  refine .set (fun _ _ => { hp with lower_length := (List.length_set ..).trans hp.lower_length }) ?_
  simp only [mirror, getD_set_of_ne hv]
  rfl

theorem twin_setUpper (hv : v.index ≠ r.term.index) (b : Extended ℚ) :
    Action.Twin (mirror r.term.index) id (Reserves r installed) (fun _ => True)
      (setUpper v b) (setUpper v b) := by
  refine .bind .get fun p hp => .bind (R := (· = p.upper.set v.index b))
    (.ofExcept (setBound_set hv p p.upper b _) fun side hside => (setBound_eq_ok hside).2.2) ?_
  rintro _ rfl
  refine .set (fun _ _ => { hp with upper_length := (List.length_set ..).trans hp.upper_length }) ?_
  simp only [mirror, getD_set_of_ne hv]
  rfl

/-! ### Changes of constraints -/

/-- Editing a constraint by what does the same to its mirror image. -/
theorem editConstraint_mirror {edit : Constraint ℚ → Constraint ℚ} {k : ℕ}
    (hedit : ∀ c, p.constraints[k]? = some c → edit (c.mirror j) = (edit c).mirror j) :
    (p.mirror j).editConstraint k edit = (p.editConstraint k edit).mirror j := by
  have rows : (p.constraints.map (Constraint.mirror j)).modify k edit =
      (p.constraints.modify k edit).map (Constraint.mirror j) := by
    refine List.ext_getElem? fun i => ?_
    simp only [List.getElem?_modify, List.getElem?_map]
    by_cases hi : k = i
    · subst hi
      cases hc : p.constraints[k]? with
      | none => rfl
      | some c => simp [hedit c hc]
    · simp [hi]
  simp only [editConstraint, mirror, rows]
  rfl

/-- Constraints that are edited but keep their variables, up to variables that are not reserved. -/
theorem Reserves.editConstraint (h : p.Reserves r installed)
    {edit : Constraint ℚ → Constraint ℚ} {k : ℕ}
    (hover : ∀ c, p.constraints[k]? = some c →
      (edit c).coefficients.contains r.term.index = c.coefficients.contains r.term.index)
    (hrelation : ∀ c, (edit c).relation = c.relation) :
    (p.editConstraint k edit).Reserves r installed := by
  have edited : ∀ i, (p.editConstraint k edit).constraints[i]? =
      (p.constraints[i]?).map fun c => if k = i then edit c else c := by
    intro i
    show (p.constraints.modify k edit)[i]? = _
    rw [List.getElem?_modify]
    cases p.constraints[i]? with
    | none => rfl
    | some c => split <;> rfl
  have spared : ∀ i c, p.constraints[i]? = some c →
      (if k = i then edit c else c).coefficients.contains r.term.index =
        c.coefficients.contains r.term.index := by
    intro i c hc
    split
    next hk => exact hover c (hk ▸ hc)
    next => rfl
  refine { h with relation := fun c hc => ?_, row := fun i hi => ?_ }
  · obtain ⟨i, hi⟩ := List.mem_iff_getElem?.1 hc
    rw [edited] at hi
    obtain ⟨d, hd, rfl⟩ := Option.map_eq_some_iff.1 hi
    rw [spared i d hd]
    have kept := h.relation d (List.mem_of_getElem? hd)
    split
    · rwa [hrelation]
    · exact kept
  · obtain ⟨c, hc, hover'⟩ := h.row i hi
    exact ⟨_, by rw [edited, hc]; rfl, (spared i c hc).trans hover'⟩

theorem mirror_of_not_contains {c : Constraint ℚ} (hc : c.coefficients.contains j = false) :
    c.mirror j = c := if_neg (by simp [hc])

/-- An edit of one of the first constraints. -/
theorem twin_editRow {edit : Constraint ℚ → Constraint ℚ} {k : ℕ} (hk : k < r.rows)
    (hover : ∀ c : Constraint ℚ,
      (edit c).coefficients.contains r.term.index = c.coefficients.contains r.term.index)
    (hrelation : ∀ c, (edit c).relation = c.relation) :
    Action.Twin (mirror r.term.index) id (Reserves r installed) (fun _ => True)
      (modifyThe (Subproblem ℚ) fun p => p.editConstraint k edit : Action ℚ (Subproblem ℚ) PUnit)
      (modifyThe (Subproblem ℚ) fun p => p.editConstraint k edit) := by
  refine .modify (fun p hp => hp.editConstraint (fun c _ => hover c) hrelation) fun p hp =>
    editConstraint_mirror fun c hc => ?_
  obtain ⟨d, hd, hfree⟩ := hp.row k hk
  cases hc.symm.trans hd
  rw [mirror_of_not_contains hfree, mirror_of_not_contains ((hover c).trans hfree)]

/-- Switching a constraint off. -/
theorem twin_deactivate (k : ℕ) :
    Action.Twin (mirror r.term.index) id (Reserves r installed) (fun _ => True)
      (modifyThe (Subproblem ℚ) fun p => p.editConstraint k fun c => { c with active := false } :
        Action ℚ (Subproblem ℚ) PUnit)
      (modifyThe (Subproblem ℚ) fun p => p.editConstraint k fun c =>
        { c with active := false }) := by
  refine .modify (fun p hp => hp.editConstraint (fun _ _ => rfl) fun _ => rfl) fun p _ =>
    editConstraint_mirror fun c _ => ?_
  unfold Constraint.mirror
  split <;> rfl

/-! ### Constraints over the exchanged variable -/

/-- The constraint of a mirrored expression that is over the exchanged variable. -/
theorem constraintOf_mirror {e : Affine ℚ} {b : ℚ} (he : ∃ v ∈ e.terms.keys, v.index = j)
    (relation : Relation) (name : Name) :
    (p.mirror j).constraintOf (e.mirror j) (Affine.ofScalar (-b)) relation.flip name =
      (p.constraintOf e (Affine.ofScalar b) relation name).map (Constraint.mirror j) := by
  let turn : ℕ → ℚ → ℚ := fun i a => if i = j then a else -a
  have entries : (e.mirror j).terms.entries.mapM (fun t => (p.position t.1).map fun i => (i, t.2)) =
      (e.terms.entries.mapM fun t => (p.position t.1).map fun i => (i, t.2)).map
        (List.map fun t => (t.1, turn t.1 t.2)) := by
    show (e.terms.entries.map _).mapM _ = _
    rw [List.mapM_map]
    refine Except.mapM_image fun t _ => ?_
    simp only [Function.comp]
    cases hi : p.position t.1 with
    | error e => rfl
    | ok i =>
      obtain ⟨-, rfl⟩ := position_eq_ok hi
      rfl
  refine Except.bind_image entries fun coefficients hcoefficients => congrArg Except.ok ?_
  have spared : (Dict.ofList coefficients).contains j = true := by
    obtain ⟨v, hv, rfl⟩ := he
    obtain ⟨t, ht, rfl⟩ := List.mem_map.1 hv
    obtain ⟨c, hc, hposition⟩ := Except.exists_of_mem_items hcoefficients ht
    obtain ⟨i, hi, rfl⟩ := Except.map_eq_ok.1 hposition
    obtain ⟨-, rfl⟩ := position_eq_ok hi
    have found : (coefficients.filter (·.1 == t.1.index)) ≠ [] :=
      List.ne_nil_of_mem (List.mem_filter.2 ⟨hc, BEq.rfl⟩)
    rw [Dict.contains_eq_isSome_get?, Dict.get?_ofList, List.getLast?_eq_some_getLast found]
    rfl
  have rhs : -((e.mirror j).sub (Affine.ofScalar (-b))).constant =
      -(-(e.sub (Affine.ofScalar b)).constant) := by
    show -(-e.constant + -b * -1) = -(-(e.constant + b * -1))
    ring
  rw [Constraint.mirror, if_pos spared, rhs,
    Dict.mapValues_ofList fun k k' a h => by rw [eq_of_beq h]]

theorem pushConstraint_mirror (k : Constraint ℚ) :
    (p.mirror j).pushConstraint (k.mirror j) = (p.pushConstraint k).mirror j := by
  simp only [pushConstraint, mirror, List.map_append, List.map_cons, List.map_nil]
  rfl

theorem Reserves.pushConstraint (h : p.Reserves r installed) {k : Constraint ℚ}
    (hk : k.relation ≠ .equal) : (p.pushConstraint k).Reserves r installed := by
  refine { h with relation := fun c hc hcontains => ?_, row := fun i hi => ?_ }
  · rcases List.mem_append.1 hc with hc | hc
    · exact h.relation c hc hcontains
    · rwa [List.mem_singleton.1 hc]
  · obtain ⟨c, hc, hfree⟩ := h.row i hi
    exact ⟨c, (List.getElem?_append_left (List.getElem?_eq_some_iff.1 hc).1).trans hc, hfree⟩

/-! ### Solves -/

theorem twin_optimize {solver solver' : Solver ℚ} (hsolver : solver.Reflects solver' r.term.index) :
    Action.Twin (mirror r.term.index) id (Reserves r True) (fun _ => True)
      (optimize solver) (optimize solver') := by
  refine .bind .get fun p hp => ?_
  have hm := hp.mentions trivial
  refine .bind (R := fun program => p.program = .ok program)
    (.ofExcept (program_mirror hp.toSpares hm) fun _ => id) fun program hprogram =>
    .set (fun _ _ => ?_) ?_
  · cases solver program <;> exact { hp with }
  · obtain ⟨hlower, hupper⟩ := lengths_program hp.toSpares hprogram
    rw [hsolver program hlower hupper, withOutcome_mirror hm]

/-! ### Reading the solved subproblem -/

theorem describe_mirror (h : p.Reserves r installed) {k : ConstraintHandle}
    (hk : k.index < r.rows) :
    (p.mirror r.term.index).describe k = p.describe k := by
  obtain ⟨c, hc, hfree⟩ := h.row k.index hk
  have mirrored : (p.mirror r.term.index).constraints[k.index]? = some c := by
    show (p.constraints.map _)[k.index]? = _
    rw [List.getElem?_map, hc, Option.map_some, mirror_of_not_contains hfree]
  have summary : (p.mirror r.term.index).summary = p.summary := by
    unfold Subproblem.summary
    rw [activeConstraints_mirror, List.length_map]
    rfl
  unfold describe
  rw [mirrored, hc, summary]

theorem valueOf_mirror {e : Affine ℚ} (he : ∀ v ∈ e.terms.keys, v.index ≠ j) :
    (p.mirror j).valueOf e = p.valueOf e := by
  unfold valueOf
  simp only [mirror]
  cases p.point? with
  | none => rfl
  | some point =>
    refine congrArg (· >>= _) (Except.mapM_congr fun t ht => Except.bind_congr fun i hi => ?_)
    obtain ⟨-, rfl⟩ := position_eq_ok hi
    have other : j ≠ t.1.index := Ne.symm (he t.1 (List.mem_map_of_mem ht))
    have same : (point.modify j (-·))[t.1.index]? = point[t.1.index]? := by
      rw [List.getElem?_modify]
      cases point[t.1.index]? <;> simp [other]
    simp only [same]

theorem valueOf_neg (e : Affine ℚ) : p.valueOf e.neg = (p.valueOf e).map (-·) := by
  unfold valueOf
  cases p.point? with
  | none => rfl
  | some point =>
    refine Except.bind_image (h := List.map (-·)) ?_ fun terms _ => congrArg Except.ok ?_
    · show (e.terms.entries.map _).mapM _ = _
      rw [List.mapM_map]
      refine Except.mapM_image fun t _ => Except.bind_image (h := id)
        (congrFun Except.map_id _).symm fun i _ => ?_
      simp only [id]
      cases point[i]? with
      | none => rfl
      | some x => exact congrArg Except.ok (by ring)
    · rw [Scalar.sum_map_neg]
      show e.constant * -1 + _ = _
      ring

theorem lowerBound_mirror (hv : v.index ≠ j) : (p.mirror j).lowerBound v = p.lowerBound v := by
  refine Except.bind_congr fun i hi => ?_
  obtain ⟨-, rfl⟩ := position_eq_ok hi
  simp only [mirror, List.getElem?_set_ne (Ne.symm hv)]

theorem upperBound_mirror (hv : v.index ≠ j) : (p.mirror j).upperBound v = p.upperBound v := by
  refine Except.bind_congr fun i hi => ?_
  obtain ⟨-, rfl⟩ := position_eq_ok hi
  simp only [mirror, List.getElem?_set_ne (Ne.symm hv)]

theorem Reserves.lookup_within (h : p.Reserves r installed) {name : Name} {o : Operand ℚ}
    (ho : p.lookup name = .ok o) : o.Within r.term.owner r.term.index r.rows := by
  unfold lookup at ho
  split at ho
  · cases ho
  · exact r.within name o (h.registry_eq ▸ Except.elim_eq_ok.1 ho)

/-- What names stand for has the same value. -/
theorem read_mirror (h : p.Reserves r installed) {o : Operand ℚ}
    (ho : o.Within r.term.owner r.term.index r.rows) :
    (p.mirror r.term.index).read (p.mirror r.term.index).describe o = p.read p.describe o := by
  have number : ∀ {o : Operand ℚ}, o.Within r.term.owner r.term.index r.rows →
      (do return Reading.number (← (p.mirror r.term.index).valueOf
          (← o.toAffine (p.mirror r.term.index).describe)) : Except (Failure ℚ) (Reading ℚ)) =
        (do return Reading.number (← p.valueOf (← o.toAffine p.describe))) := by
    intro o ho
    rw [ho.toAffine_congr fun k => describe_mirror h]
    refine Except.bind_congr fun e he => ?_
    rw [valueOf_mirror fun v hv => ne_of_lt (ho.toAffine he v hv).2]
  have point : (p.mirror r.term.index).point?.isNone = p.point?.isNone := Option.isNone_map
  unfold read
  rw [point]
  refine congrArg (ite _ _) ?_
  cases o with
  | state s =>
    have copy : ∀ v : Variable, v.Within r.term.owner r.term.index →
        (p.mirror r.term.index).valueOf (Affine.ofVariable v) = p.valueOf (Affine.ofVariable v) :=
      fun v hv => valueOf_mirror fun u hu => by
        rw [List.mem_singleton.1 hu]
        exact ne_of_lt hv.2
    simp only [copy _ ho.1, copy _ ho.2]
  | _ => exact number ho

theorem fixedDual_mirror (v : Variable) : (p.mirror j).fixedDual v = (p.fixedDual v).map (-·) := by
  refine Except.bind_image (h := id) (congrFun Except.map_id _).symm fun i _ => ?_
  simp only [mirror, id, Dict.get?_mapValues fun d : ℚ => -d]
  cases p.fixedDuals.get? i <;> rfl

end Subproblem

end Multistage
