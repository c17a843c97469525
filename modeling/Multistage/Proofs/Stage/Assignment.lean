import Mathlib.Data.Rat.Defs
import Mathlib.Logic.Function.Basic
import Multistage.Proofs.Linear.Assembly
import Multistage.Proofs.Node.Declaration

/-!
# Assignments

A realization of the noise assigns numbers and expressions to fields of a stage. The fields do not
depend on the realization, so that after two realizations a stage differs in none of its other
fields, and after one and the same realization two stages agree in all the fields that it assigns.

## Main definitions

- `Field`, `Stage.content`: what can be assigned, and what it holds.
- `Edit.field`, `Edit.content`: the field of an edit, and what the edit assigns to it.
- `Stage.SameFrame`: what no assignment changes.

## Main statements

- `Stage.triple_applyEdit`, `Stage.triple_applyNoise`: what one edit and what a realization assigns.
- `Stage.Assigned.unique`: stages with the same declaration are assigned the same.
-/

namespace Multistage

/-- A number or an expression of a stage that an edit can assign. -/
inductive Field where
  | fixed (place : ℕ)
  | lower (place : ℕ)
  | upper (place : ℕ)
  | rhs (row : ℕ)
  | coefficient (row place : ℕ)
  | objective
  deriving DecidableEq

/-- What a field holds. -/
inductive Content where
  | number (x? : Option ℚ)
  | bound (b? : Option (Extended ℚ))
  | operand (o : Operand ℚ)

/-- What the fields of a stage hold. -/
def Stage.content (s : Stage ℚ) : Field → Content
  | .fixed i => .number (s.subproblem.fixed.get? i)
  | .lower i => .bound s.subproblem.lower[i]?
  | .upper i => .bound s.subproblem.upper[i]?
  | .rhs k => .number ((s.subproblem.constraints[k]?).map (·.rhs))
  | .coefficient k i => .number ((s.subproblem.constraints[k]?).bind fun c => c.coefficients.get? i)
  | .objective => .operand s.objective

namespace Edit

/-- The field that an edit assigns. -/
def field (s : Stage ℚ) : Edit ℚ → Except (Failure ℚ) Field
  | .fix target _ => do return .fixed (← (← s.lookup target).toVariable).index
  | .setLower target _ => do return .lower (← (← s.lookup target).toVariable).index
  | .setUpper target _ => do return .upper (← (← s.lookup target).toVariable).index
  | .unfix target => do return .fixed (← (← s.lookup target).toVariable).index
  | .setRhs constraint _ => do return .rhs (← (← s.lookup constraint).toConstraint).index
  | .setCoefficient constraint target _ => do
    return .coefficient (← (← s.lookup constraint).toConstraint).index
      (← (← s.lookup target).toVariable).index
  | .objective _ => .ok .objective

theorem eq_objective_of_field {s : Stage ℚ} {edit : Edit ℚ} (h : edit.field s = .ok .objective) :
    ∃ value, edit = .objective value := by
  cases edit with
  | objective value => exact ⟨value, rfl⟩
  | setCoefficient constraint target value =>
    obtain ⟨_, -, h⟩ := Except.bind_eq_ok.1 h
    obtain ⟨_, -, h⟩ := Except.bind_eq_ok.1 h
    obtain ⟨_, -, h⟩ := Except.bind_eq_ok.1 h
    obtain ⟨_, -, h⟩ := Except.bind_eq_ok.1 h
    cases h
  | _ =>
    obtain ⟨_, -, h⟩ := Except.bind_eq_ok.1 h
    obtain ⟨_, -, h⟩ := Except.bind_eq_ok.1 h
    cases h

/-- What an edit assigns for a realization of the noise. -/
def content (s : Stage ℚ) (noise : Datum ℚ) : Edit ℚ → Except (Failure ℚ) Content
  | .fix _ value => do return .number (some (← (← value.eval (s.scope noise)).toScalar))
  | .setLower _ value =>
    do return .bound (some (.finite (← (← value.eval (s.scope noise)).toScalar)))
  | .setUpper _ value =>
    do return .bound (some (.finite (← (← value.eval (s.scope noise)).toScalar)))
  | .unfix _ => .ok (.number none)
  | .setRhs _ value => do return .number (some (← (← value.eval (s.scope noise)).toScalar))
  | .setCoefficient _ _ value =>
    do return .number (some (← (← value.eval (s.scope noise)).toScalar))
  | .objective value => do return .operand (← value.eval (s.scope noise))

/-- The edit assigns a content to a field. -/
def Assigns (s : Stage ℚ) (noise : Datum ℚ) (edit : Edit ℚ) (a : Field × Content) : Prop :=
  edit.field s = .ok a.1 ∧ edit.content s noise = .ok a.2

end Edit

/-- The part of a constraint that is never assigned. -/
def Constraint.kind (c : Constraint ℚ) : Relation × Bool := (c.relation, c.active)

namespace Stage

variable {s s' : Stage ℚ} {noise : Datum ℚ}

theorem lookup_of_declaration_eq (h : s'.declaration = s.declaration) : s'.lookup = s.lookup := by
  show s'.declaration.lookup = s.declaration.lookup
  rw [h]

/-- What no assignment changes. -/
structure SameFrame (s s' : Stage ℚ) : Prop where
  declaration : s'.declaration = s.declaration
  kinds : s'.subproblem.constraints.map Constraint.kind =
    s.subproblem.constraints.map Constraint.kind
  lower_length : s'.subproblem.lower.length = s.subproblem.lower.length
  upper_length : s'.subproblem.upper.length = s.subproblem.upper.length
  sense : s'.subproblem.sense = s.subproblem.sense
  objective : s'.subproblem.objective = s.subproblem.objective
  distinct : s.subproblem.fixed.Distinct → s'.subproblem.fixed.Distinct
  installed : s'.objectiveInstalled = true → s.objectiveInstalled = true ∧
  s'.objective = s.objective
  unnamed : ∀ i, (∀ name h, s.lookup name = .ok (.constraint h) → h.index ≠ i) →
    s'.subproblem.constraints[i]? = s.subproblem.constraints[i]?

theorem SameFrame.refl (s : Stage ℚ) : s.SameFrame s :=
  ⟨rfl, rfl, rfl, rfl, rfl, rfl, id, fun h => ⟨h, rfl⟩, fun _ _ => rfl⟩

theorem SameFrame.trans {s'' : Stage ℚ} (h : s.SameFrame s') (h' : s'.SameFrame s'') :
    s.SameFrame s'' where
  declaration := h'.declaration.trans h.declaration
  kinds := h'.kinds.trans h.kinds
  lower_length := h'.lower_length.trans h.lower_length
  upper_length := h'.upper_length.trans h.upper_length
  sense := h'.sense.trans h.sense
  objective := h'.objective.trans h.objective
  distinct := fun hd => h'.distinct (h.distinct hd)
  installed := fun hi => ⟨(h.installed (h'.installed hi).1).1,
    (h'.installed hi).2.trans (h.installed (h'.installed hi).1).2⟩
  unnamed := fun i hi => (h'.unnamed i fun name k hk =>
    hi name k (lookup_of_declaration_eq h.declaration ▸ hk)).trans (h.unnamed i hi)

/-! ### One edit -/

theorem triple_evaluate (value : Formula ℚ) :
    Action.Triple (· = s) (evaluate value noise)
      (fun y s' => s' = s ∧ value.eval (s.scope noise) = .ok y) (· = s) := by
  refine .get_bind ?_
  rintro s rfl
  exact .ofExcept (fun y t hy ht => ⟨ht, hy⟩) fun _ _ _ => id

theorem triple_assign {target : Name} {value : Formula ℚ}
    {set : Variable → ℚ → Action ℚ (Subproblem ℚ) Unit} {Q : Variable → ℚ → Subproblem ℚ → Prop}
    (hset : ∀ v x, Action.Triple (· = s.subproblem) (set v x) (fun _ => Q v x) (· = s.subproblem)) :
    Action.Triple (· = s) (assign target value noise set)
      (fun _ s' => ∃ o y v x p', s.lookup target = .ok o ∧ value.eval (s.scope noise) = .ok y ∧
        o.toVariable = .ok v ∧ y.toScalar = .ok x ∧ s' = { s with subproblem := p' } ∧ Q v x p')
      (· = s) := by
  refine .get_bind ?_
  rintro s rfl
  refine .ofExcept_bind (fun o ho => ?_) fun _ => id
  refine .bind (triple_evaluate value) fun y => .of_forall ?_
  rintro s ⟨rfl, hy⟩
  refine .ofExcept_bind (fun x hx => .ofExcept_bind (fun v hv => ?_) fun _ => id) fun _ => id
  refine (Action.Triple.focus (hset v x)).consequence (fun _ => id) ?_ ?_
  · rintro _ _ ⟨p', rfl, hq⟩
    exact ⟨o, y, v, x, p', ho, hy, hv, hx, rfl, hq⟩
  · rintro _ ⟨p', rfl, rfl⟩
    rfl

theorem triple_modify_subproblem {change : Subproblem ℚ → Subproblem ℚ} {Q : Unit → Stage ℚ → Prop}
    {E : Stage ℚ → Prop} (h : Q () { s with subproblem := change s.subproblem }) :
    Action.Triple (· = s) (onSubproblem (modify change)) Q E := by
  rintro _ rfl
  exact h

/-! ### What fields hold after a change -/

theorem content_fixed {d : Dict ℕ ℚ} {i : ℕ} {x? : Option ℚ}
    (h : ∀ j, d.get? j = if (i == j) = true then x? else s.subproblem.fixed.get? j) :
    ({ s with subproblem := { s.subproblem with fixed := d } } : Stage ℚ).content =
      Function.update s.content (.fixed i) (.number x?) := by
  funext f
  cases f with
  | fixed j =>
    rw [Function.update_apply]
    show Content.number (d.get? j) = _
    rw [h j]
    by_cases hj : i = j
    · simp [hj]
    · have other : ¬Field.fixed j = Field.fixed i := fun heq => hj (Field.fixed.inj heq).symm
      rw [if_neg (by simpa using hj), if_neg other]
      rfl
  | _ => rfl

theorem content_lower {i : ℕ} (hi : i < s.subproblem.lower.length) (b : Extended ℚ) :
    ({ s with subproblem := { s.subproblem with lower := s.subproblem.lower.set i b } } :
      Stage ℚ).content = Function.update s.content (.lower i) (.bound (some b)) := by
  funext f
  cases f with
  | lower j =>
    rw [Function.update_apply]
    show Content.bound (s.subproblem.lower.set i b)[j]? = _
    by_cases hj : i = j
    · subst hj
      rw [List.getElem?_set_self hi, if_pos rfl]
    · have other : ¬Field.lower j = Field.lower i := fun heq => hj (Field.lower.inj heq).symm
      rw [List.getElem?_set_ne hj, if_neg other]
      rfl
  | _ => rfl

theorem content_upper {i : ℕ} (hi : i < s.subproblem.upper.length) (b : Extended ℚ) :
    ({ s with subproblem := { s.subproblem with upper := s.subproblem.upper.set i b } } :
      Stage ℚ).content = Function.update s.content (.upper i) (.bound (some b)) := by
  funext f
  cases f with
  | upper j =>
    rw [Function.update_apply]
    show Content.bound (s.subproblem.upper.set i b)[j]? = _
    by_cases hj : i = j
    · subst hj
      rw [List.getElem?_set_self hi, if_pos rfl]
    · have other : ¬Field.upper j = Field.upper i := fun heq => hj (Field.upper.inj heq).symm
      rw [List.getElem?_set_ne hj, if_neg other]
      rfl
  | _ => rfl

theorem getElem?_editConstraint (p : Subproblem ℚ) (k l : ℕ) (edit : Constraint ℚ → Constraint ℚ) :
    (p.editConstraint k edit).constraints[l]? =
      if k = l then (p.constraints[l]?).map edit else p.constraints[l]? := by
  show (p.constraints.modify k edit)[l]? = _
  by_cases hl : k = l
  · subst hl
    rw [List.getElem?_modify_eq, if_pos rfl]
    rfl
  · rw [List.getElem?_modify_ne _ _ hl, if_neg hl]

theorem content_rhs {k : ℕ} (hk : k < s.subproblem.constraints.length) (x : ℚ) :
    ({ s with subproblem := s.subproblem.editConstraint k fun c => { c with rhs := x } } :
      Stage ℚ).content = Function.update s.content (.rhs k) (.number (some x)) := by
  funext f
  cases f with
  | rhs l =>
    rw [Function.update_apply]
    show Content.number (((s.subproblem.editConstraint k _).constraints[l]?).map (·.rhs)) = _
    rw [getElem?_editConstraint]
    by_cases hl : k = l
    · subst hl
      rw [if_pos rfl, if_pos rfl, List.getElem?_eq_getElem hk]
      rfl
    · have other : ¬Field.rhs l = Field.rhs k := fun heq => hl (Field.rhs.inj heq).symm
      rw [if_neg hl, if_neg other]
      rfl
  | coefficient l i =>
    rw [Function.update_of_ne (by simp)]
    show Content.number (((s.subproblem.editConstraint k _).constraints[l]?).bind _) = _
    rw [getElem?_editConstraint]
    by_cases hl : k = l
    · rw [if_pos hl, Option.bind_map]
      rfl
    · rw [if_neg hl]
      rfl
  | _ => rfl

theorem content_coefficient {k : ℕ} (hk : k < s.subproblem.constraints.length) (i : ℕ) (x : ℚ) :
    ({ s with subproblem := s.subproblem.editConstraint k fun c =>
        { c with coefficients := c.coefficients.insert i x } } : Stage ℚ).content =
      Function.update s.content (.coefficient k i) (.number (some x)) := by
  funext f
  cases f with
  | coefficient l j =>
    rw [Function.update_apply]
    show Content.number (((s.subproblem.editConstraint k _).constraints[l]?).bind _) = _
    rw [getElem?_editConstraint]
    by_cases hl : k = l
    · subst hl
      rw [if_pos rfl, List.getElem?_eq_getElem hk]
      show Content.number ((Dict.insert _ i x).get? j) = _
      rw [Dict.get?_insert]
      by_cases hj : i = j
      · simp [hj]
      · have other : ¬Field.coefficient k j = Field.coefficient k i :=
          fun heq => hj (Field.coefficient.inj heq).2.symm
        rw [if_neg (by simpa using hj), if_neg other]
        show _ = Content.number ((s.subproblem.constraints[k]?).bind _)
        rw [List.getElem?_eq_getElem hk]
        rfl
    · have other : ¬Field.coefficient l j = Field.coefficient k i :=
        fun heq => hl (Field.coefficient.inj heq).1.symm
      rw [if_neg hl, if_neg other]
      rfl
  | rhs l =>
    rw [Function.update_of_ne (by simp)]
    show Content.number (((s.subproblem.editConstraint k _).constraints[l]?).map _) = _
    rw [getElem?_editConstraint]
    by_cases hl : k = l
    · rw [if_pos hl, Option.map_map]
      rfl
    · rw [if_neg hl]
      rfl
  | _ => rfl

theorem content_objective (o : Operand ℚ) :
    ({ s with objective := o, objectiveInstalled := false } : Stage ℚ).content =
      Function.update s.content .objective (.operand o) := by
  funext f
  cases f <;> rfl

theorem kinds_editConstraint (p : Subproblem ℚ) (k : ℕ) {edit : Constraint ℚ → Constraint ℚ}
    (h : ∀ c, (edit c).kind = c.kind) :
    (p.editConstraint k edit).constraints.map Constraint.kind =
    p.constraints.map Constraint.kind := by
  apply List.ext_getElem?
  intro l
  rw [List.getElem?_map, List.getElem?_map, getElem?_editConstraint]
  split
  · rw [Option.map_map]
    exact congrArg (fun g => Option.map g _) (funext h)
  · rfl

/-- Constraints that names stand for exist. -/
def RowsExist (s : Stage ℚ) : Prop :=
  ∀ name h, s.lookup name = .ok (.constraint h) → h.index < s.subproblem.constraints.length

theorem lookup_of_toConstraint {name : Name} {o : Operand ℚ} {h : ConstraintHandle}
    (ho : s.lookup name = .ok o) (hh : o.toConstraint = .ok h) :
    s.lookup name = .ok (.constraint h) := by
  cases o with
  | constraint k =>
    cases hh
    exact ho
  | _ => cases hh

/-- An edit of a named constraint that keeps its kind changes no frame. -/
theorem SameFrame.editConstraint {name : Name} {h : ConstraintHandle}
    (hh : s.lookup name = .ok (.constraint h)) {edit : Constraint ℚ → Constraint ℚ}
    (hkind : ∀ c, (edit c).kind = c.kind) :
    s.SameFrame { s with subproblem := s.subproblem.editConstraint h.index edit } :=
  { SameFrame.refl s with
    kinds := kinds_editConstraint _ _ hkind
    unnamed := fun i hi => by
      show (s.subproblem.editConstraint h.index edit).constraints[i]? = _
      rw [getElem?_editConstraint, if_neg (hi name h hh)] }

/-- An edit assigns its content to its field and changes nothing else, or it changes nothing. A new
objective has yet to be installed. -/
theorem triple_applyEdit (hd : s.subproblem.fixed.Distinct) (hrows : s.RowsExist) (edit : Edit ℚ) :
    Action.Triple (· = s) (applyEdit noise edit)
      (fun _ s' => s.SameFrame s' ∧ (∃ a, edit.Assigns s noise a ∧
        s'.content = Function.update s.content a.1 a.2) ∧
        (edit.field s = .ok .objective → s'.objectiveInstalled = false)) (· = s) := by
  -- only an edit of the objective has the objective for its field
  have elsewhere : ∀ {P : Prop}, (∀ value, edit ≠ .objective value) →
      edit.field s = .ok .objective → P := by
    intro P hne hfield
    obtain ⟨value, rfl⟩ := Edit.eq_objective_of_field hfield
    exact absurd rfl (hne value)
  cases edit with
  | fix target value =>
    refine (triple_assign fun v x => Subproblem.triple_atVariable s.subproblem).consequence
      (fun _ => id) ?_
      fun _ => id
    rintro _ _ ⟨o, y, v, x, _, ho, hy, hv, hx, rfl, rfl⟩
    refine ⟨{ SameFrame.refl s with distinct := fun h => h.insert },
      ⟨(.fixed v.index, .number (some x)),
      ⟨?_, ?_⟩, content_fixed fun j => Dict.get?_insert _ _ _ _⟩, elsewhere nofun⟩
    · simp [Edit.field, ho, hv, bind, Except.bind, pure, Except.pure]
    · simp [Edit.content, hy, hx, bind, Except.bind, pure, Except.pure]
  | setLower target value =>
    refine (triple_assign fun v x => s.subproblem.triple_setLower v (.finite x)).consequence
      (fun _ => id) ?_ fun _ => id
    rintro _ _ ⟨o, y, v, x, _, ho, hy, hv, hx, rfl, -, hlt, rfl⟩
    refine ⟨{ SameFrame.refl s with lower_length := List.length_set }, ⟨(.lower v.index, _),
      ⟨?_, ?_⟩, content_lower hlt _⟩, elsewhere nofun⟩
    · simp [Edit.field, ho, hv, bind, Except.bind, pure, Except.pure]
    · simp [Edit.content, hy, hx, bind, Except.bind, pure, Except.pure]
  | setUpper target value =>
    refine (triple_assign fun v x => s.subproblem.triple_setUpper v (.finite x)).consequence
      (fun _ => id) ?_ fun _ => id
    rintro _ _ ⟨o, y, v, x, _, ho, hy, hv, hx, rfl, -, hlt, rfl⟩
    refine ⟨{ SameFrame.refl s with upper_length := List.length_set }, ⟨(.upper v.index, _),
      ⟨?_, ?_⟩, content_upper hlt _⟩, elsewhere nofun⟩
    · simp [Edit.field, ho, hv, bind, Except.bind, pure, Except.pure]
    · simp [Edit.content, hy, hx, bind, Except.bind, pure, Except.pure]
  | unfix target =>
    refine .get_bind ?_
    rintro s rfl
    refine .ofExcept_bind (fun o ho => .ofExcept_bind (fun v hv => ?_) fun _ => id) fun _ => id
    refine (Action.Triple.focus (Subproblem.triple_atVariable s.subproblem)).consequence
      (fun _ => id) ?_ ?_
    · rintro _ _ ⟨_, rfl, rfl⟩
      refine ⟨{ SameFrame.refl s with distinct := fun h => h.erase },
        ⟨(.fixed v.index, .number none),
        ⟨?_, rfl⟩, content_fixed (Dict.get?_erase hd)⟩, elsewhere nofun⟩
      simp [Edit.field, ho, hv, bind, Except.bind, pure, Except.pure]
    · rintro _ ⟨_, rfl, rfl⟩
      rfl
  | setRhs constraint value =>
    refine .get_bind ?_
    rintro s rfl
    refine .ofExcept_bind (fun o ho => ?_) fun _ => id
    refine .bind (triple_evaluate value) fun y => .of_forall ?_
    rintro s ⟨rfl, hy⟩
    refine .ofExcept_bind (fun x hx => .ofExcept_bind (fun h hh => ?_) fun _ => id) fun _ => id
    refine triple_modify_subproblem ?_
    have named := lookup_of_toConstraint ho hh
    refine ⟨.editConstraint named fun _ => rfl, ⟨(.rhs h.index, _), ⟨?_, ?_⟩,
      content_rhs (hrows _ _ named) x⟩, elsewhere nofun⟩
    · simp [Edit.field, ho, hh, bind, Except.bind, pure, Except.pure]
    · simp [Edit.content, hy, hx, bind, Except.bind, pure, Except.pure]
  | setCoefficient constraint target value =>
    refine .get_bind ?_
    rintro s rfl
    refine .ofExcept_bind (fun c hc => .get_bind ?_) fun _ => id
    rintro s rfl
    refine .ofExcept_bind (fun u hu => ?_) fun _ => id
    refine .bind (triple_evaluate value) fun y => .of_forall ?_
    rintro s ⟨rfl, hy⟩
    refine .ofExcept_bind (fun x hx => .ofExcept_bind (fun h hh => ?_) fun _ => id) fun _ => id
    refine .ofExcept_bind (fun v hv => .get_bind ?_) fun _ => id
    rintro s rfl
    refine .ofExcept_bind (fun i hi => triple_modify_subproblem ?_) fun _ => id
    -- the position of a variable is its index
    have place : i = v.index := by
      unfold Subproblem.position at hi
      split at hi
      · exact (Except.ok.inj hi).symm
      · cases hi
    subst place
    have named := lookup_of_toConstraint hc hh
    refine ⟨.editConstraint named fun _ => rfl, ⟨(.coefficient h.index v.index, _), ⟨?_, ?_⟩,
      content_coefficient (hrows _ _ named) v.index x⟩, elsewhere nofun⟩
    · simp [Edit.field, hc, hh, hu, hv, bind, Except.bind, pure, Except.pure]
    · simp [Edit.content, hy, hx, bind, Except.bind, pure, Except.pure]
  | objective value =>
    refine .bind (triple_evaluate value) fun y => .of_forall ?_
    rintro s ⟨rfl, hy⟩
    refine .modify ?_
    rintro s rfl
    refine ⟨{ SameFrame.refl s with installed := nofun }, ⟨(.objective, .operand y), ⟨rfl, ?_⟩,
      content_objective y⟩, fun _ => rfl⟩
    simp [Edit.content, hy, bind, Except.bind, pure, Except.pure]

/-! ### What declarations determine -/

/-- The value of a formula is declared, but for the noise. -/
theorem eval_of_declaration_eq (h : s'.declaration = s.declaration) {f : Formula ℚ} {o : Operand ℚ}
    (ho : f.eval (s.scope noise) = .ok o) : f.eval (s'.scope noise) = .ok o := by
  have hs : f.eval ⟨s.lookup, s'.subproblem.describe, noise⟩ = .ok o := Formula.eval_of_describe ho
  rw [← lookup_of_declaration_eq h] at hs
  exact hs

theorem SameFrame.length_constraints (h : s.SameFrame s') :
    s'.subproblem.constraints.length = s.subproblem.constraints.length := by
  have := congrArg List.length h.kinds
  rwa [List.length_map, List.length_map] at this

theorem SameFrame.rowsExist (h : s.SameFrame s') (hrows : s.RowsExist) : s'.RowsExist := by
  intro name k hk
  rw [h.length_constraints]
  rw [lookup_of_declaration_eq h.declaration] at hk
  exact hrows name k hk

end Stage

namespace Edit

variable {s s' : Stage ℚ} {noise : Datum ℚ} {edit : Edit ℚ}

theorem field_of_declaration_eq (h : s'.declaration = s.declaration) :
    edit.field s' = edit.field s := by
  cases edit <;> simp only [field, Stage.lookup_of_declaration_eq h]

/-- What edits assign is declared, but for the noise. -/
theorem content_of_declaration_eq (h : s'.declaration = s.declaration) {c : Content}
    (hc : edit.content s noise = .ok c) : edit.content s' noise = .ok c := by
  have scalar : ∀ {value : Formula ℚ} {k : ℚ → Content},
      (do return k (← (← value.eval (s.scope noise)).toScalar) : Except (Failure ℚ) Content) =
      .ok c →
      (do return k (← (← value.eval (s'.scope noise)).toScalar) : Except (Failure ℚ) Content) =
        .ok c := by
    intro value k hk
    obtain ⟨y, hy, hk⟩ := Except.bind_eq_ok.1 hk
    exact Except.bind_eq_ok.2 ⟨y, Stage.eval_of_declaration_eq h hy, hk⟩
  cases edit with
  | fix target value => exact scalar hc
  | setLower target value => exact scalar hc
  | setUpper target value => exact scalar hc
  | unfix target => exact hc
  | setRhs constraint value => exact scalar hc
  | setCoefficient constraint target value => exact scalar hc
  | objective value =>
    obtain ⟨y, hy, hk⟩ := Except.bind_eq_ok.1 hc
    exact Except.bind_eq_ok.2 ⟨y, Stage.eval_of_declaration_eq h hy, hk⟩

theorem Assigns.of_declaration_eq (h : s'.declaration = s.declaration) {a : Field × Content}
    (ha : edit.Assigns s noise a) : edit.Assigns s' noise a :=
  ⟨(field_of_declaration_eq h).trans ha.1, content_of_declaration_eq h ha.2⟩

end Edit

/-! ### A realization of the noise -/

/-- Contents with assignments on top, the last one first. -/
def overwrite (c : Field → Content) (assignments : List (Field × Content)) : Field → Content :=
  assignments.foldl (fun c a => Function.update c a.1 a.2) c

theorem overwrite_of_notMem {assignments : List (Field × Content)} {f : Field}
    (h : f ∉ assignments.map (·.1)) (c : Field → Content) : overwrite c assignments f = c f := by
  induction assignments generalizing c with
  | nil => rfl
  | cons a rest ih =>
    rw [List.map_cons, List.mem_cons, not_or] at h
    show overwrite (Function.update c a.1 a.2) rest f = c f
    rw [ih h.2, Function.update_of_ne h.1]

theorem overwrite_congr {assignments : List (Field × Content)} {f : Field} {c c' : Field → Content}
    (h : f ∈ assignments.map (·.1) ∨ c f = c' f) :
    overwrite c assignments f = overwrite c' assignments f := by
  induction assignments generalizing c c' with
  | nil =>
    rcases h with h | h
    · cases h
    · exact h
  | cons a rest ih =>
    show overwrite (Function.update c a.1 a.2) rest f =
        overwrite (Function.update c' a.1 a.2) rest f
    refine ih ?_
    by_cases hf : f = a.1
    · subst hf
      exact .inr (by rw [Function.update_self, Function.update_self])
    · rw [Function.update_of_ne hf, Function.update_of_ne hf]
      rcases h with h | h
      · exact .inl ((List.mem_cons.1 h).resolve_left hf)
      · exact .inr h

namespace Stage

variable {s s' : Stage ℚ} {noise : Datum ℚ}

/-- The assignments of a realization. -/
def Assigned (s : Stage ℚ) (noise : Datum ℚ) (assignments : List (Field × Content)) : Prop :=
  List.Forall₂ (fun edit a => edit.Assigns s noise a) s.edits assignments

/-- The assignments are declared. -/
theorem Assigned.unique {as as' : List (Field × Content)} (h : s'.declaration = s.declaration)
    (ha : s.Assigned noise as) (ha' : s'.Assigned noise as') : as = as' := by
  have edits : s'.edits = s.edits := congrArg (·.edits) h
  unfold Assigned at ha ha'
  rw [edits] at ha'
  have same : ∀ (es : List (Edit ℚ)) {as as' : List (Field × Content)},
      List.Forall₂ (fun edit a => edit.Assigns s noise a) es as →
      List.Forall₂ (fun edit a => edit.Assigns s' noise a) es as' → as = as' := by
    intro es
    induction es with
    | nil =>
      intro as as' h h'
      cases h
      cases h'
      rfl
    | cons e rest ih =>
      intro as as' h₁ h₂
      cases h₁ with
      | cons hea hrest =>
        cases h₂ with
        | cons hea' hrest' =>
          have first := hea.of_declaration_eq h
          have field := Except.ok.inj (first.1.symm.trans hea'.1)
          have content := Except.ok.inj (first.2.symm.trans hea'.2)
          rw [Prod.ext field content, ih hrest hrest']
  exact same s.edits ha ha'

/-- An edit assigns the field. -/
def Assignable (s : Stage ℚ) (f : Field) : Prop := ∃ edit ∈ s.edits, edit.field s = .ok f

theorem mem_fields_iff {edits : List (Edit ℚ)} {as : List (Field × Content)}
    (h : List.Forall₂ (fun edit a => edit.Assigns s noise a) edits as) {f : Field} :
    f ∈ as.map (·.1) ↔ ∃ edit ∈ edits, edit.field s = .ok f := by
  induction h with
  | nil => simp
  | cons hea _ ih =>
    rw [List.map_cons, List.mem_cons, ih]
    constructor
    · rintro (rfl | ⟨e, he, hf⟩)
      · exact ⟨_, List.mem_cons_self, hea.1⟩
      · exact ⟨e, List.mem_cons_of_mem _ he, hf⟩
    · rintro ⟨e, he, hf⟩
      rcases List.mem_cons.1 he with rfl | he
      · exact .inl (Except.ok.inj (hf.symm.trans hea.1))
      · exact .inr ⟨e, he, hf⟩

/-- A realization overwrites the fields of the edits, as far as it comes. -/
theorem triple_applyNoise (hd : s.subproblem.fixed.Distinct) (hrows : s.RowsExist) :
    Action.Triple (· = s) (applyNoise noise)
      (fun _ s' => s.SameFrame s' ∧ (s.Assignable .objective → s'.objectiveInstalled = false) ∧
        ∃ as, s.Assigned noise as ∧ s'.content = overwrite s.content as)
      fun s' => s.SameFrame s' ∧ ∀ f, ¬s.Assignable f → s'.content f = s.content f := by
  -- the edits so far have made their assignments
  let I : List (Edit ℚ) → Stage ℚ → Prop := fun before s' => s.SameFrame s' ∧
    ((∃ edit ∈ before, edit.field s = .ok .objective) → s'.objectiveInstalled = false) ∧
    ∃ as, List.Forall₂ (fun edit a => edit.Assigns s noise a) before as ∧
      s'.content = overwrite s.content as
  refine .get_bind ?_
  rintro s rfl
  refine (Action.Triple.forM_prefix (I := I) fun before edit after hedits => ?_).consequence ?_
    (fun _ _ => id) fun _ => id
  · rintro s' ⟨hframe, hinstalled, as, has, hcontent⟩
    refine (triple_applyEdit (hframe.distinct hd) (hframe.rowsExist hrows) edit).consequence
      (fun _ => id) ?_ ?_ s' rfl
    · rintro _ s'' ⟨hframe', ⟨a, ha, hcontent'⟩, hobjective⟩
      refine ⟨hframe.trans hframe', ?_, as ++ [a], ?_, ?_⟩
      · rintro ⟨e, he, hfield⟩
        rcases List.mem_append.1 he with he | he
        · have := hinstalled ⟨e, he, hfield⟩
          exact Bool.eq_false_iff.2 fun hi => by simp [(hframe'.installed hi).1] at this
        · rw [List.mem_singleton.1 he] at hfield
          exact hobjective ((Edit.field_of_declaration_eq hframe.declaration).trans hfield)
      · exact List.rel_append has (.cons (ha.of_declaration_eq hframe.declaration.symm) .nil)
      · show _ = List.foldl _ s.content (as ++ [a])
        rw [hcontent', hcontent, List.foldl_append]
        rfl
    · rintro _ rfl
      refine ⟨hframe, fun f hf => ?_⟩
      rw [hcontent, overwrite_of_notMem]
      intro hmem
      obtain ⟨e, he, hef⟩ := (mem_fields_iff has).1 hmem
      exact hf ⟨e, by rw [hedits]; exact List.mem_append_left _ he, hef⟩
  · rintro _ rfl
    exact ⟨.refl _, nofun, [], .nil, rfl⟩

end Stage

end Multistage
