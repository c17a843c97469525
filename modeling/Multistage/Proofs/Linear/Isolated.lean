import Multistage.Proofs.Linear.Refusal

/-!
# Subproblems side by side

Operations of a subproblem leave the other ones alone unless they are given their constraints to
edit, and its linear program stays over its own variables unless it is given an objective over those
of another one.

## Main definitions

- `Subproblem.OverOwn`: the linear program is over variables of the subproblem.
- `Workspace.Permits`: an operation is given variables of the workspace, and an objective and a
  constraint of its own subproblem.

## Main statements

- `Workspace.elsewhere_afterAll`: operations leave the subproblems at other places alone.
- `Workspace.OverOwn.afterAll`: what operations that are permitted lead to.
- `Workspace.isolated`: what operations leave of the subproblem at a place, and of the others.
-/

namespace Multistage

/-- The linear program is over variables of the subproblem: the constraints, the values that
variables are fixed to, and the objective. -/
structure Subproblem.OverOwn {α : Type} (p : Subproblem α) : Prop where
  rows : ∀ c ∈ p.constraints, ∀ k ∈ c.coefficients.keys, k < p.names.length
  fixed : ∀ k ∈ p.fixed.keys, k < p.names.length
  objective : ∀ v ∈ p.objective.terms.keys, v.owner = p.owner ∧ v.index < p.names.length

namespace Workspace

variable {α : Type} [Scalar α] {w w' : Workspace α} {place : ℤ} {i j : ℕ} {p : Subproblem α}

/-! ### The other subproblems -/

omit [Scalar α] in
theorem getElem?_put (hne : i ≠ j) (q : Subproblem α) :
    (w.put i q).subproblems[j]? = w.subproblems[j]? :=
  List.getElem?_set_ne hne

omit [Scalar α] in
theorem getElem?_editing {h : ConstraintHandle} (hne : h.owner ≠ j)
    (edit : Constraint α → Constraint α) :
    (w.editing h edit).subproblems[j]? = w.subproblems[j]? := by
  rw [editing, List.getElem?_modify]
  simp [hne]

/-- An operation leaves alone the subproblems at other places, unless it edits a constraint of
theirs. -/
theorem Leads.elsewhere {op : Operation α} (h : w.Leads place op w')
    (hplace : placeOf w.subproblems.length place ≠ some j)
    (hedits : ∀ h, op.edits = some h → h.owner ≠ j) :
    w'.subproblems[j]? = w.subproblems[j]? := by
  obtain rfl | ⟨i, p, q, hold, rfl, -⟩ | ⟨c, edit, hop, rfl⟩ := h.shape
  · rfl
  · have hne : i ≠ j := by
      rintro rfl
      exact hplace hold.1
    exact getElem?_put hne q
  · exact getElem?_editing (hedits c hop) edit

theorem Leads.length_eq {op : Operation α} (h : w.Leads place op w') :
    w'.subproblems.length = w.subproblems.length := by
  obtain rfl | ⟨_, _, _, -, rfl, -⟩ | ⟨_, _, -, rfl⟩ := h.shape
  · rfl
  · exact List.length_set
  · exact List.length_modify ..

theorem length_afterAll (steps : List (ℤ × Operation α)) :
    (w.afterAll steps).subproblems.length = w.subproblems.length := by
  induction steps generalizing w with
  | nil => rfl
  | cons step rest ih => exact (ih (w := w.after step)).trans (leads_after step).length_eq

/-- So do operations one after the other. -/
theorem elsewhere_afterAll {steps : List (ℤ × Operation α)}
    (h : ∀ s ∈ steps, placeOf w.subproblems.length s.1 ≠ some j ∧ ∀ h,
      s.2.edits = some h → h.owner ≠ j) :
    (w.afterAll steps).subproblems[j]? = w.subproblems[j]? := by
  induction steps generalizing w with
  | nil => rfl
  | cons step rest ih =>
    have leads := leads_after (w := w) step
    obtain ⟨hplace, hedits⟩ := h step List.mem_cons_self
    refine (ih (w := w.after step) fun s hs => ?_).trans (leads.elsewhere hplace hedits)
    rw [leads.length_eq]
    exact h s (List.mem_cons_of_mem _ hs)

end Workspace

/-! ### The subproblems and their variables -/

/-- A program is over variables of the subproblem if what is new in it is. -/
theorem Subproblem.OverOwn.change {α : Type} {p q : Subproblem α} (h : p.OverOwn)
    (howner : q.owner = p.owner) (hnames : p.names.length ≤ q.names.length)
    (hrows : ∀ c ∈ q.constraints, c ∈ p.constraints ∨ ∀ k ∈ c.coefficients.keys, k < q.names.length)
    (hfixed : ∀ k ∈ q.fixed.keys, k ∈ p.fixed.keys ∨ k < q.names.length)
    (hobjective : ∀ v ∈ q.objective.terms.keys,
      v ∈ p.objective.terms.keys ∨ v.owner = q.owner ∧ v.index < q.names.length) : q.OverOwn where
  rows c hc := (hrows c hc).elim (fun hc k hk => (h.rows c hc k hk).trans_le hnames) id
  fixed k hk := (hfixed k hk).elim (fun hk => (h.fixed k hk).trans_le hnames) id
  objective v hv := (hobjective v hv).elim
    (fun hv => ⟨(h.objective v hv).1.trans howner.symm, (h.objective v hv).2.trans_le hnames⟩) id

/-- An edited constraint is over variables of the subproblem if what is new in it is. -/
theorem Subproblem.OverOwn.editConstraint {α : Type} {p : Subproblem α} (h : p.OverOwn) (index : ℕ)
    {edit : Constraint α → Constraint α} (hedit : ∀ c, ∀ k ∈ (edit c).coefficients.keys,
      k ∈ c.coefficients.keys ∨ k < p.names.length) : (p.editConstraint index edit).OverOwn := by
  refine h.change rfl le_rfl (fun c hc => ?_) (fun _ => .inl) fun _ => .inl
  obtain ⟨j, hj⟩ := List.getElem?_of_mem hc
  rw [Subproblem.editConstraint, List.getElem?_modify] at hj
  obtain ⟨c', hc', hj⟩ := Option.map_eq_some_iff.1 hj
  have hmem := List.mem_of_getElem? hc'
  split at hj
  · refine .inr fun k hk => ?_
    rw [← hj] at hk
    exact (hedit c' k hk).elim (h.rows c' hmem k) id
  · exact .inl (hj ▸ hmem)

namespace Workspace

variable {α : Type} [Scalar α] {w w' : Workspace α} {place : ℤ} {i j : ℕ} {p : Subproblem α}

/-- The variable belongs to a subproblem of the workspace. -/
def Has (w : Workspace α) (v : Variable) : Prop :=
  ∃ p, w.subproblems[v.owner]? = some p ∧ v.index < p.names.length

/-- The operation is given variables of the workspace, and nothing of another subproblem that is not
checked. -/
structure Permits (w : Workspace α) (step : ℤ × Operation α) : Prop where
  given : ∀ v ∈ step.2.given, w.Has v
  givenObjective : ∀ v ∈ step.2.givenObjective, w.Has v ∧
    placeOf w.subproblems.length step.1 = some v.owner
  edits : ∀ h, step.2.edits = some h → placeOf w.subproblems.length step.1 = some h.owner

/-- Every operation is permitted where it begins. -/
def PermitsAll : Workspace α → List (ℤ × Operation α) → Prop
  | _, [] => True
  | w, step :: rest => w.Permits step ∧ (w.after step).PermitsAll rest

/-- Every subproblem is at the place by which handles refer to it. -/
def Placed (w : Workspace α) : Prop :=
    ∀ (i : ℕ) (p : Subproblem α), w.subproblems[i]? = some p → p.owner = i

/-- Every linear program is over variables of its subproblem. -/
def OverOwn (w : Workspace α) : Prop :=
    ∀ (i : ℕ) (p : Subproblem α), w.subproblems[i]? = some p → p.OverOwn

omit [Scalar α] in
theorem forall_put {P : ℕ → Subproblem α → Prop} (h : ∀ j p, w.subproblems[j]? = some p → P j p)
    {q : Subproblem α} (hq : P i q) : ∀ j p, (w.put i q).subproblems[j]? = some p → P j p := by
  intro j p hp
  rcases getElem?_set_cases hp with ⟨rfl, rfl⟩ | ⟨-, hp⟩
  · exact hq
  · exact h j p hp

omit [Scalar α] in
theorem forall_editing {P : ℕ → Subproblem α → Prop} (h : ∀ j p, w.subproblems[j]? = some p → P j p)
    {c : ConstraintHandle} {edit : Constraint α → Constraint α}
    (hedit : ∀ p, w.subproblems[c.owner]? = some p → P c.owner (p.editConstraint c.index edit)) :
    ∀ j p, (w.editing c edit).subproblems[j]? = some p → P j p := by
  intro j p hp
  rw [editing, List.getElem?_modify] at hp
  obtain ⟨q, hq, hp⟩ := Option.map_eq_some_iff.1 hp
  by_cases hj : c.owner = j
  · subst hj
    simp only [if_true] at hp
    exact hp ▸ hedit q hq
  · simp only [hj, if_false] at hp
    exact hp ▸ h j q hq

theorem Placed.after (h : w.Placed) (step : ℤ × Operation α) : (w.after step).Placed := by
  obtain hw | ⟨i, p, q, hold, hw, howner⟩ | ⟨c, edit, -, hw⟩ := (leads_after (w := w) step).shape
  · rw [hw]
    exact h
  · rw [hw]
    exact forall_put (P := fun i p => p.owner = i) h (howner.trans (h i p hold.2))
  · rw [hw]
    exact forall_editing (P := fun i p => p.owner = i) h (h c.owner)

theorem OverOwn.after (h : w.OverOwn) (hplaced : w.Placed) {step : ℤ × Operation α}
    (hpermits : w.Permits step) :
    (w.after step).OverOwn := by
  obtain ⟨place, op⟩ := step
  obtain ⟨given, givenObjective, edits⟩ := hpermits
  have leads := leads_after (w := w) (place, op)
  generalize w.after (place, op) = w' at leads
  have put : ∀ {i p} {q : Subproblem α}, w.Holds place i p → (p.OverOwn → q.OverOwn) →
      (w.put i q).OverOwn :=
    fun hold hq => forall_put (P := fun _ (p : Subproblem α) => p.OverOwn) h (hq (h _ _ hold.2))
  have edited : ∀ {c edit},
      (∀ p, w.subproblems[c.owner]? = some p → (p.editConstraint c.index edit).OverOwn) →
      (w.editing c edit).OverOwn := forall_editing (P := fun _ (p : Subproblem α) => p.OverOwn) h
  -- a variable with the owner of the subproblem at the place is one of it
  have known : ∀ {i p}, w.Holds place i p → ∀ v, v.owner = p.owner → w.Has v →
      v.index < p.names.length := by
    rintro i p hold v howner ⟨q, hq, hlt⟩
    rw [howner, hplaced i p hold.2, hold.2] at hq
    cases hq
    exact hlt
  cases leads with
  | unchanged => exact h
  | added hold =>
    refine put hold fun hp => hp.change rfl ?_ (fun _ => .inl) (fun _ => .inl) fun _ => .inl
    exact List.length_append ▸ Nat.le_add_right _ _
  | lowerSet hold => exact put hold fun hp => ⟨hp.rows, hp.fixed, hp.objective⟩
  | upperSet hold => exact put hold fun hp => ⟨hp.rows, hp.fixed, hp.objective⟩
  | @fixed v _ _ i p hold howner =>
    have hv := known hold v howner (given v (List.mem_singleton_self v))
    refine put hold fun hp => hp.change rfl le_rfl (fun _ => .inl) (fun k hk => ?_) fun _ => .inl
    rcases Dict.mem_keys_insert hk with rfl | hk
    · exact .inr hv
    · exact .inl hk
  | unfixed hold =>
    refine put hold fun hp => hp.change rfl le_rfl (fun _ => .inl) (fun k hk => .inl ?_)
      fun _ => .inl
    obtain ⟨e, he, rfl⟩ := List.mem_map.1 hk
    exact List.mem_map_of_mem (List.mem_of_mem_eraseP he)
  | @related lhs rhs _ _ left right _ i p _ hold hleft hright hforeign =>
    have terms : ∀ v ∈ (left.sub right).terms.keys, v.index < p.names.length := by
      intro v hv
      have mentioned := Affine.mem_keys_sub.1 hv
      rw [Operand.keys_eq_mentioned hleft, Operand.keys_eq_mentioned hright] at mentioned
      refine known hold v (by simpa using List.find?_eq_none.1 hforeign v hv) (given v ?_)
      simpa [Operation.given, Operation.operands] using mentioned
    refine put hold fun hp => hp.change rfl le_rfl (fun c hc => ?_) (fun _ => .inl) fun _ => .inl
    refine (List.mem_append.1 hc).imp id fun hc k hk => ?_
    rw [List.mem_singleton.1 hc] at hk
    obtain ⟨_, hentry, rfl⟩ := List.mem_map.1 (Dict.mem_keys_ofList hk)
    obtain ⟨t, ht, rfl⟩ := List.mem_map.1 hentry
    exact terms t.1 (List.mem_map_of_mem ht)
  | @coefficientSet c v _ _ i p hold howner =>
    have hv := known hold v howner (given v (List.mem_singleton_self v))
    refine edited fun q hq => (h _ q hq).editConstraint _ fun c' k hk => ?_
    obtain rfl : i = c.owner := Option.some.inj (hold.1.symm.trans (edits c rfl))
    obtain rfl : p = q := Option.some.inj (hold.2.symm.trans hq)
    rcases Dict.mem_keys_insert hk with rfl | hk
    · exact .inr hv
    · exact .inl hk
  | rhsSet => exact edited fun q hq => (h _ q hq).editConstraint _ fun _ _ => .inl
  | deleted => exact edited fun q hq => (h _ q hq).editConstraint _ fun _ _ => .inl
  | senseSet hold => exact put hold fun hp => ⟨hp.rows, hp.fixed, hp.objective⟩
  | @objectiveSet _ objective _ e i p _ hold he =>
    refine put hold fun hp => hp.change rfl le_rfl (fun _ => .inl) (fun _ => .inl)
      fun v hv => .inr ?_
    have mentioned : v ∈ objective.mentioned := Operand.keys_eq_mentioned he ▸ hv
    obtain ⟨has, hplace⟩ := givenObjective v mentioned
    have howner : v.owner = p.owner :=
      (Option.some.inj (hplace.symm.trans hold.1)).trans (hplaced i p hold.2).symm
    exact ⟨howner, known hold v howner has⟩
  | @solved _ o _ _ hold => cases o <;> exact put hold fun hp => ⟨hp.rows, hp.fixed, hp.objective⟩

theorem Placed.afterAll (h : w.Placed) (steps : List (ℤ × Operation α)) :
    (w.afterAll steps).Placed := by
  induction steps generalizing w with
  | nil => exact h
  | cons step rest ih => exact ih (h.after step)

theorem OverOwn.afterAll (h : w.OverOwn) (hplaced : w.Placed) {steps : List (ℤ × Operation α)}
    (hpermits : w.PermitsAll steps) : (w.afterAll steps).OverOwn := by
  induction steps generalizing w with
  | nil => exact h
  | cons step rest ih => exact ih (h.after hplaced hpermits.1) (hplaced.after step) hpermits.2

/-- At first every subproblem is empty. -/
theorem getElem?_ofLabels {labels : List (Datum α)}
    (hp : (ofLabels labels).subproblems[i]? = some p) :
    ∃ label, p = Subproblem.empty label i := by
  rw [ofLabels, List.getElem?_map, List.getElem?_zipIdx] at hp
  obtain ⟨_, h, rfl⟩ := Option.map_eq_some_iff.1 hp
  obtain ⟨label, -, rfl⟩ := Option.map_eq_some_iff.1 h
  exact ⟨label, by simp⟩

theorem ofLabels_placed (labels : List (Datum α)) : (ofLabels labels).Placed ∧
    (ofLabels labels).OverOwn := by
  refine ⟨fun i p hp => ?_, fun i p hp => ?_⟩
  · obtain ⟨label, rfl⟩ := getElem?_ofLabels hp
    rfl
  · obtain ⟨label, rfl⟩ := getElem?_ofLabels hp
    exact ⟨nofun, nofun, nofun⟩

/-- Operations lead to the subproblem at a place. It is the one that handles refer to by that place,
an operation of it refuses what is of another subproblem unless it is an objective or a constraint
to be edited, and it stays as it is while operations of other subproblems do not edit its
constraints. Its linear program is over its own variables unless it was given an objective of
another subproblem, or a constraint of it was edited by another one. -/
theorem isolated (labels : List (Datum α)) (steps : List (ℤ × Operation α))
    (hold : ((ofLabels labels).afterAll steps).Holds place i p) :
    let w := (ofLabels labels).afterAll steps
    p.owner = i ∧
    (∀ op : Operation α, ∀ o ∈ op.operands, o.Foreign i →
      (op.run place).Declines w fun cause => op.WellFormed w p → op.Blames w i cause) ∧
    (∀ later : List (ℤ × Operation α),
      (∀ s ∈ later, placeOf labels.length s.1 ≠ some i ∧ ∀ h, s.2.edits = some h → h.owner ≠ i) →
        (w.afterAll later).subproblems[i]? = some p) ∧
    ((ofLabels labels).PermitsAll steps → p.OverOwn) ∧
    (∀ sense r objective e, Sense.ofDatum sense = .ok r → objective.toAffine w.describe = .ok e →
      (Operation.setObjective sense objective).run place w =
        .ok () (w.put i { p with sense := r, objective := e })) ∧
    (∀ h v value x, v.owner = i → value.toScalar = .ok x →
      (Operation.setCoefficient (.constraint h) (.decision v) value).run place w =
        .ok () (w.editing h fun c => { c with coefficients := c.coefficients.insert v.index x })) ∧
    (∀ h value x, value.toScalar = .ok x → (Operation.setRhs (.constraint h) value).run place w =
      .ok () (w.editing h fun c => { c with rhs := x })) ∧
    ∀ h, (Operation.deleteConstraint (.constraint h)).run place w =
      .ok () (w.editing h fun c => { c with active := false }) := by
  intro w
  obtain ⟨placed, own⟩ := ofLabels_placed labels
  have howner : p.owner = i := placed.afterAll steps i p hold.2
  refine ⟨howner, fun op o ho hforeign => ?_, fun later hlater => ?_, fun hpermits => ?_,
    fun sense r objective e => run_setObjective hold, fun h v value x hv => ?_,
    fun h value x => run_setRhs h, run_deleteConstraint⟩
  · rw [← howner] at hforeign ⊢
    exact refuses_run hold ho hforeign
  · have count : w.subproblems.length = labels.length := by
      rw [length_afterAll, ofLabels, List.length_map, List.length_zipIdx]
    exact (elsewhere_afterAll (count ▸ hlater)).trans hold.2
  · exact own.afterAll placed hpermits i p hold.2
  · exact run_setCoefficient hold (hv.trans howner.symm) h

/-- Two subproblems with a variable each, the second one with a constraint. -/
theorem isolated_of_two_subproblems :
    ∃ (labels : List (Datum ℚ)) (steps later : List (ℤ × Operation ℚ)) (p q : Subproblem ℚ)
      (y : Variable)
      (h : ConstraintHandle) (e : Failure ℚ),
      let w := (ofLabels labels).afterAll steps
      w.Holds 0 0 p ∧ w.Holds 1 1 q ∧ p.names = [.text "x"] ∧ q.names = [.text "y"] ∧ y.owner = 1 ∧
      h.owner = 1 ∧
      (Operation.setLower (.decision y) (.real 1)).run 0 w = .error e w ∧
      e = .ofVariable .foreignVariable y ∧
      later.length = 2 ∧ (w.afterAll later).subproblems[1]? = some q ∧
      (Operation.setObjective (.text "min") (.decision y)).run 0 w =
        .ok () (w.put 0 { p with sense := .min, objective := Affine.ofVariable y }) ∧
      (Operation.deleteConstraint (.constraint h)).run 0 w =
        .ok () (w.editing h fun c => { c with active := false }) := by
  let x : Variable := ⟨0, 0, .name "x"⟩
  let y : Variable := ⟨1, 0, .name "y"⟩
  let steps : List (ℤ × Operation ℚ) :=
    [(0, .addVariable (.text "x") (.ok (.finite 0)) (.ok .posInf)),
      (1, .addVariable (.text "y") (.ok .negInf) (.ok (.finite 1))),
      (1, .addConstraint (.decision y) (.text "<=") (.datum (.real 1)) (.text "c"))]
  let later : List (ℤ × Operation ℚ) :=
    [(0, .fix (.decision x) (.real 1)), (-2, .setObjective (.text "max") (.decision y))]
  let w := (ofLabels [.null, .null]).afterAll steps
  let at_place (i : ℕ) : Subproblem ℚ := w.subproblems[i]?.getD (.empty .null i)
  have first : w.Holds 0 0 (at_place 0) := ⟨rfl, rfl⟩
  have second : w.Holds 1 1 (at_place 1) := ⟨rfl, rfl⟩
  obtain ⟨-, refused, -, -, objective, -, -, deleted⟩ := isolated [.null, .null] steps first
  obtain ⟨-, -, untouched, -⟩ := isolated [.null, .null] steps second
  obtain ⟨e, failed, cause⟩ :=
    refused (.setLower (.decision y) (.real 1)) (.decision y) (List.mem_singleton_self _)
    (.inr ⟨y, List.mem_singleton_self _, Nat.one_ne_zero⟩)
  have blamed : e = .ofVariable .foreignVariable y := by
    obtain ⟨v, hv, -, rfl⟩ | ⟨h, hh, -⟩ := cause ⟨.inl ⟨y, rfl⟩, 1, rfl⟩
    · obtain rfl := List.mem_singleton.1 hv
      rfl
    · cases List.mem_singleton.1 hh
  have others : ∀ s ∈ later, placeOf 2 s.1 ≠ some 1 ∧ ∀ h, s.2.edits = some h → h.owner ≠ 1 := by
    intro s hs
    obtain rfl | rfl := List.mem_pair.1 hs
    · exact ⟨by decide, nofun⟩
    · exact ⟨by decide, nofun⟩
  exact ⟨[.null, .null], steps, later, at_place 0, at_place 1, y, ⟨1, 0⟩, e, first, second, rfl,
    rfl, rfl, rfl, failed,
    blamed, rfl, untouched later others, objective (.text "min") .min (.decision y) _ rfl rfl,
    deleted ⟨1, 0⟩⟩

end Workspace

end Multistage
