import Multistage.Proofs.Linear.Failing
import Multistage.Proofs.Lists

/-!
# Operations of subproblems side by side

An operation of the subproblem at a place changes that subproblem, edits the constraint of a handle,
or does nothing, also if it fails.

## Main definitions

- `Workspace.Operation`: an operation of a subproblem, with the operands that it is given.
- `Operation.operands`, `Operation.givenObjective`, `Operation.edits`: the variables and expressions
  that are checked, the objective, and the constraint that is edited.
- `Workspace.after`, `Workspace.afterAll`: where operations lead, whether they fail or not.
- `Workspace.Leads`: what an operation can do.

## Main statements

- `Workspace.leads_after`: it does nothing else.
- `Workspace.Leads.shape`: an operation changes at most its subproblem and the constraint that it
  edits.
-/

namespace Multistage

/-- The variables in an operand. -/
def Operand.mentioned {α : Type} : Operand α → List Variable
  | .decision v => [v]
  | .affine e => e.terms.keys
  | .state s => [s.incoming, s.outgoing]
  | .tuple items => items.flatMap fun
    | .decision v => [v]
    | .datum _ => []
  | _ => []

/-- An expression mentions what the operand mentions that it is the value of. -/
theorem Operand.keys_eq_mentioned {α : Type} [Scalar α] {o : Operand α}
    {describe : ConstraintHandle → Misfit α}
    {e : Affine α} (h : o.toAffine describe = .ok e) : e.terms.keys = o.mentioned := by
  cases o with
  | decision v =>
    cases h
    rfl
  | affine f =>
    cases h
    rfl
  | datum d =>
    rw [Operand.toAffine] at h
    split at h
    · obtain ⟨c, -, rfl⟩ := Except.map_eq_ok.1 h
      rfl
    · cases h
  | _ => cases h

namespace Workspace

open Multistage.Action (Triple)

/-- An operation of a subproblem in a workspace. -/
inductive Operation (α : Type) where
  | addVariable (name : Name) (lower upper : Except (Failure α) (Extended α))
  | bounds (target : Operand α)
  | setLower (target : Operand α) (value : Datum α)
  | setUpper (target : Operand α) (value : Datum α)
  | fix (target : Operand α) (value : Datum α)
  | unfix (target : Operand α)
  | addConstraint (lhs : Operand α) (relation : Datum α) (rhs : Operand α) (name : Name)
  | setCoefficient (constraint target : Operand α) (value : Datum α)
  | setRhs (constraint : Operand α) (value : Datum α)
  | deleteConstraint (constraint : Operand α)
  | setObjective (sense : Datum α) (objective : Operand α)
  | optimize (solver : Solver α)
  | read (item : Operand α)
  | fixedDual (target : Operand α)

namespace Operation

variable {α : Type} [Scalar α]

/-- The operation, of the subproblem at a place. -/
def run (place : ℤ) : Operation α → Action α (Workspace α) Unit
  | addVariable name lower upper =>
    discard (onSubproblem place (Subproblem.addVariable name lower upper))
  | bounds target => do
    let v ← Workspace.target place target
    discard (inspect place fun p => do return (← p.lowerBound v, ← p.upperBound v, ← p.isFixed v))
  | setLower target value => do
    let x ← Action.ofExcept value.toScalar
    onVariable place target fun v => Subproblem.setLower v (Scalar.classify x)
  | setUpper target value => do
    let x ← Action.ofExcept value.toScalar
    onVariable place target fun v => Subproblem.setUpper v (Scalar.classify x)
  | fix target value => do
    let x ← Action.ofExcept value.toScalar
    onVariable place target fun v => Subproblem.fix v x
  | unfix target => onVariable place target Subproblem.unfix
  | addConstraint lhs relation rhs name =>
    discard (Workspace.addConstraint place lhs relation rhs name)
  | setCoefficient constraint target value =>
    discard (Workspace.setCoefficient place constraint target value)
  | setRhs constraint value => discard (Workspace.setRhs constraint value)
  | deleteConstraint constraint => discard (Workspace.deleteConstraint constraint)
  | setObjective sense objective => Workspace.setObjective place sense objective
  | optimize solver => onSubproblem place (Subproblem.optimize solver)
  | read item => do
    let w ← get
    discard (inspect place fun p => p.read w.describe item)
  | fixedDual target => do
    let v ← Workspace.target place target
    discard (inspect place fun p => p.fixedDual v)

omit [Scalar α]

/-- The variables and expressions that the operation is given, except for an objective. -/
def operands : Operation α → List (Operand α)
  | bounds target | setLower target _ | setUpper target _ | fix target _ | unfix target
  | setCoefficient _ target _ | fixedDual target => [target]
  | addConstraint lhs _ rhs _ => [lhs, rhs]
  | read item => [item]
  | _ => []

/-- The variables in these. -/
def given (op : Operation α) : List Variable := op.operands.flatMap Operand.mentioned

/-- The variables in the objective that the operation is given. -/
def givenObjective : Operation α → List Variable
  | setObjective _ objective => objective.mentioned
  | _ => []

/-- The constraint that the operation edits. -/
def edits : Operation α → Option ConstraintHandle
  | setCoefficient (.constraint h) _ _ | setRhs (.constraint h) _ | deleteConstraint
    (.constraint h) => some h
  | _ => none

end Operation

variable {α : Type} [Scalar α] {w w' : Workspace α} {place : ℤ} {i j : ℕ} {p : Subproblem α}

omit [Scalar α] in
theorem put_put (q r : Subproblem α) : (w.put i q).put i r = w.put i r := by
  simp only [put, List.set_set]

omit [Scalar α] in
theorem Holds.put (hold : w.Holds place i p) {q : Subproblem α} : (w.put i q).Holds place i q := by
  obtain ⟨hlt, -⟩ := List.getElem?_eq_some_iff.1 hold.2
  exact ⟨by rw [Workspace.put, List.length_set, hold.1], List.getElem?_set_self hlt⟩

omit [Scalar α] in
/-- At a place where a subproblem was put there is that one. -/
theorem Holds.of_put (hold : w.Holds place i p) {q p' : Subproblem α}
    (h : (w.put i q).Holds place j p') :
    j = i ∧ p' = q := by
  obtain ⟨hplace, hget⟩ := hold.put (q := q)
  obtain rfl : i = j := Option.some.inj (hplace.symm.trans h.1)
  exact ⟨rfl, Option.some.inj (h.2.symm.trans hget)⟩

/-- The workspace with an edited constraint. -/
def editing (w : Workspace α) (h : ConstraintHandle) (edit : Constraint α → Constraint α) :
    Workspace α :=
  { w with subproblems := w.subproblems.modify h.owner fun p => p.editConstraint h.index edit }

/-- Where an operation of the subproblem at a place leads, whether it fails or not. -/
def after (w : Workspace α) (step : ℤ × Operation α) : Workspace α := (step.2.run step.1).final w

/-- Where operations lead. -/
def afterAll (w : Workspace α) (steps : List (ℤ × Operation α)) : Workspace α := steps.foldl after w

/-! ### What an operation does -/

/-- What an operation of the subproblem at a place can do: it changes that subproblem, it edits a
constraint, or it does nothing. -/
inductive Leads (w : Workspace α) (place : ℤ) : Operation α → Workspace α → Prop
  | unchanged {op : Operation α} : Leads w place op w
  | added {name : Name} {lower upper : Except (Failure α) (Extended α)} {i : ℕ} {p : Subproblem α}
    {registry : Dict Name (Operand α)} (hold : w.Holds place i p) :
    Leads w place (.addVariable name lower upper)
      (w.put i { p.unfinished name lower upper with registry := registry })
  | lowerSet {v : Variable} {value : Datum α} {i : ℕ} {p : Subproblem α} {lower : List (Extended α)}
    (hold : w.Holds place i p) :
    Leads w place (.setLower (.decision v) value) (w.put i { p with lower := lower })
  | upperSet {v : Variable} {value : Datum α} {i : ℕ} {p : Subproblem α} {upper : List (Extended α)}
    (hold : w.Holds place i p) :
    Leads w place (.setUpper (.decision v) value) (w.put i { p with upper := upper })
  | fixed {v : Variable} {value : Datum α} {x : α} {i : ℕ} {p : Subproblem α}
    (hold : w.Holds place i p)
    (howner : v.owner = p.owner) :
    Leads w place (.fix (.decision v) value) (w.put i { p with fixed := p.fixed.insert v.index x })
  | unfixed {v : Variable} {i : ℕ} {p : Subproblem α} (hold : w.Holds place i p) :
    Leads w place (.unfix (.decision v)) (w.put i { p with fixed := p.fixed.erase v.index })
  | related {lhs rhs : Operand α} {relation : Datum α} {name : Name} {left right : Affine α}
    {r : Relation}
    {i : ℕ} {p : Subproblem α} {registry : Dict Name (Operand α)} (hold : w.Holds place i p)
    (hleft : lhs.toAffine w.describe = .ok left) (hright : rhs.toAffine w.describe = .ok right)
    (hforeign : p.foreign? (left.sub right) = none) :
    Leads w place (.addConstraint lhs relation rhs name)
      (w.put i { p.relating left r right name with registry := registry })
  | coefficientSet {h : ConstraintHandle} {v : Variable} {value : Datum α} {x : α} {i : ℕ}
    {p : Subproblem α}
    (hold : w.Holds place i p) (howner : v.owner = p.owner) :
    Leads w place (.setCoefficient (.constraint h) (.decision v) value)
      (w.editing h fun c => { c with coefficients := c.coefficients.insert v.index x })
  | rhsSet {h : ConstraintHandle} {value : Datum α} {x : α} :
    Leads w place (.setRhs (.constraint h) value) (w.editing h fun c => { c with rhs := x })
  | deleted {h : ConstraintHandle} :
    Leads w place (.deleteConstraint (.constraint h))
      (w.editing h fun c => { c with active := false })
  | senseSet {sense : Datum α} {objective : Operand α} {r : Sense} {i : ℕ} {p : Subproblem α}
    (hold : w.Holds place i p) :
    Leads w place (.setObjective sense objective) (w.put i { p with sense := r })
  | objectiveSet {sense : Datum α} {objective : Operand α} {r : Sense} {e : Affine α} {i : ℕ}
    {p : Subproblem α}
    {describe : ConstraintHandle → Misfit α} (hold : w.Holds place i p)
    (he : objective.toAffine describe = .ok e) :
    Leads w place (.setObjective sense objective) (w.put i { p with sense := r, objective := e })
  | solved {solver : Solver α} {o : Outcome α} {i : ℕ} {p : Subproblem α}
    (hold : w.Holds place i p) :
    Leads w place (.optimize solver) (w.put i (p.withOutcome o))

omit [Scalar α] in
theorem spec_subproblem : Triple (· = w) (subproblem place)
    (fun p w' => w' = w ∧ ∃ i, w.Holds place i p) (· = w) := by
  refine .get_bind ?_
  rintro _ rfl
  refine .ofOption ?_ fun _ _ => id
  rintro p _ hp rfl
  obtain ⟨i, hplace, hp⟩ := Option.bind_eq_some_iff.1 hp
  exact ⟨rfl, i, hplace, hp⟩

omit [Scalar α] in
theorem spec_target {F : Workspace α → Prop} (hw : F w) (o : Operand α) :
    Triple (· = w) (target place o)
    (fun v w' => w' = w ∧ o = .decision v) F := by
  have failed : Triple (· = w) (target place o) (fun v w' => w' = w ∧ o = .decision v) (· = w) := by
    cases o with
    | decision v =>
      rintro _ rfl
      exact ⟨rfl, rfl⟩
    | constraint h =>
      refine .bind (spec_subproblem.consequence (fun _ => id) (fun _ _ h => h.1) fun _ => id)
        fun p => ?_
      exact .ite (fun _ => .throw fun _ => id) fun _ => .get_bind fun _ hs => .throw fun _ ht =>
        ht.trans hs
    | _ => exact fun _ => id
  exact failed.consequence (fun _ => id) (fun _ _ => id) fun _ ht => ht ▸ hw

omit [Scalar α] in
theorem spec_inspect {β : Type} {look : Subproblem α → Except (Failure α) β}
    {F : Workspace α → Prop} (hw : F w) : Triple (· = w) (inspect place look)
      (fun b w' => w' = w ∧ ∃ i p, w.Holds place i p ∧ look p = .ok b) F := by
  refine .bind
    (spec_subproblem.consequence (fun _ => id) (fun _ _ => id) fun _ h => h ▸ hw) fun p =>
    .ofExcept ?_ fun _ _ _ h => h.1 ▸ hw
  rintro b _ hlook ⟨rfl, i, hold⟩
  exact ⟨rfl, i, p, hold, hlook⟩

omit [Scalar α] in
/-- An action on the subproblem at a place leads where it leads there, unless there is none. -/
theorem spec_onSubproblem {β : Type} {act : Action α (Subproblem α) β} {Q : β → Workspace α → Prop}
    {E : Workspace α → Prop} (hw : E w) (h : ∀ i p, w.Holds place i p →
      Triple (· = p) act (fun b p' => Q b (w.put i p')) fun p' => E (w.put i p')) :
    Triple (· = w) (onSubproblem place act) Q E := by
  refine .of_cases (fun _ b w' hs hrun => ?_) fun _ e w' hs hrun => ?_
  · obtain ⟨i, p, p', hold, hact, rfl⟩ := onSubproblem_eq_ok (hs ▸ hrun)
    exact (h i p hold).ok rfl hact
  · obtain rfl | ⟨i, p, p', hold, hact, rfl⟩ := onSubproblem_eq_error (hs ▸ hrun)
    · exact hw
    · exact (h i p hold).error rfl hact

omit [Scalar α] in
/-- The same of an action with a variable that is given as an operand. -/
theorem spec_onVariable {o : Operand α} {act : Variable → Action α (Subproblem α) Unit}
    {F : Workspace α → Prop}
    (hw : F w) (h : ∀ v i p, o = .decision v → w.Holds place i p →
      Triple (· = p) (act v) (fun _ p' => F (w.put i p')) fun p' => F (w.put i p')) :
    Triple (· = w) (onVariable place o act) (fun _ => F) F := by
  refine .bind (spec_target hw o) fun v => ?_
  rintro _ ⟨rfl, ho⟩
  exact spec_onSubproblem hw (fun i p hold => h v i p ho hold) _ rfl

omit [Scalar α] in
/-- What is read changes nothing. -/
theorem spec_read {β : Type} {look : Subproblem α → Except (Failure α) β} {F : Workspace α → Prop}
    (hw : F w) :
    Triple (· = w) (discard (inspect place look)) (fun _ => F) F :=
  .discard ((spec_inspect hw).consequence (fun _ => id) (fun _ _ h => h.1 ▸ hw) fun _ => id)

/-- The sense is set before the objective is read, so that it is set also if that fails. -/
theorem leads_setObjective {sense : Datum α} {objective : Operand α} :
    Triple (· = w) (setObjective place sense objective)
      (fun _ => w.Leads place (.setObjective sense objective))
      (w.Leads place (.setObjective sense objective)) := by
  refine .ofExcept_bind (fun r _ => ?_) fun _ h => h ▸ .unchanged
  refine .bind (Q := fun _ w₁ => ∃ i p, w.Holds place i p ∧ w₁ = w.put i { p with sense := r })
    (spec_onSubproblem .unchanged fun i p hold => .modify ?_) fun _ => .of_forall ?_
  · rintro _ rfl
    exact ⟨i, _, hold, rfl⟩
  · rintro _ ⟨i, p, hold, rfl⟩
    refine .get_bind ?_
    rintro _ rfl
    refine .ofExcept_bind (fun e he => ?_) fun _ h => h ▸ .senseSet hold
    refine spec_onSubproblem (.senseSet hold) fun i' p' hold' => .modify ?_
    rintro _ rfl
    obtain ⟨rfl, rfl⟩ := hold.of_put hold'
    rw [put_put]
    exact .objectiveSet (p := p) hold he

theorem leads_run (op : Operation α) : Triple (· = w) (op.run place) (fun _ => w.Leads place op)
    (w.Leads place op) := by
  have unchanged : ∀ {op : Operation α}, w.Leads place op w := .unchanged
  have kept : ∀ {op : Operation α} {i : ℕ} {p : Subproblem α}, w.Holds place i p →
      w.Leads place op (w.put i p) :=
    fun hold => hold.put_self.symm ▸ unchanged
  cases op with
  | addVariable name lower upper =>
    refine .discard (spec_onSubproblem unchanged fun i p hold => ?_)
    refine .of_cases (fun _ v p' hs hrun => ?_) fun _ e p' hs hrun => ?_
    · obtain ⟨l, u, registry, rfl, rfl, -, -, rfl⟩ := (p.triple_addVariable lower upper).ok hs hrun
      exact .added hold
    · obtain ⟨rfl, -⟩ := Subproblem.addVariable_eq_error.1 (hs ▸ hrun)
      exact .added hold
  | bounds target =>
    refine .bind (spec_target unchanged target) fun v => ?_
    rintro _ ⟨rfl, -⟩
    exact spec_read unchanged _ rfl
  | setLower target value =>
    refine .ofExcept_bind (fun x _ => spec_onVariable unchanged fun v i p ho hold => ?_) fun _ h =>
      h ▸ unchanged
    subst ho
    exact (p.triple_setLower v _).consequence (fun _ => id) (fun _ _ h => h.2.2 ▸ .lowerSet hold)
      fun _ h => h ▸ kept hold
  | setUpper target value =>
    refine .ofExcept_bind (fun x _ => spec_onVariable unchanged fun v i p ho hold => ?_) fun _ h =>
      h ▸ unchanged
    subst ho
    exact (p.triple_setUpper v _).consequence (fun _ => id) (fun _ _ h => h.2.2 ▸ .upperSet hold)
      fun _ h => h ▸ kept hold
  | fix target value =>
    refine .ofExcept_bind (fun x _ => spec_onVariable unchanged fun v i p ho hold => ?_) fun _ h =>
      h ▸ unchanged
    subst ho
    refine .of_cases (fun _ _ p' hs hrun => ?_) fun _ _ p' hs hrun => ?_
    · obtain ⟨howner, rfl⟩ := Subproblem.atVariable_eq_ok (hs ▸ hrun)
      exact .fixed hold howner
    · exact (Subproblem.triple_atVariable p).error hs hrun ▸ kept hold
  | unfix target =>
    refine spec_onVariable unchanged fun v i p ho hold => ?_
    subst ho
    exact (Subproblem.triple_atVariable p).consequence (fun _ => id)
      (fun _ _ h => h ▸ .unfixed hold)
      fun _ h => h ▸ kept hold
  | addConstraint lhs relation rhs name =>
    refine .discard (.ofExcept_bind (fun r _ => .get_bind ?_) fun _ h => h ▸ unchanged)
    rintro _ rfl
    refine .ofExcept_bind (fun left hleft => ?_) fun _ h => h ▸ unchanged
    refine .ofExcept_bind (fun right hright => ?_) fun _ h => h ▸ unchanged
    refine spec_onSubproblem unchanged fun i p hold => ?_
    refine .of_cases (fun _ h p' hs hrun => ?_) fun _ e p' hs hrun => ?_
    · obtain ⟨hforeign, registry, rfl⟩ := Subproblem.addConstraint_eq_ok (hs ▸ hrun)
      exact .related hold hleft hright hforeign
    · obtain ⟨rfl, -⟩ | ⟨rfl, hforeign, -⟩ := Subproblem.addConstraint_eq_error.1 (hs ▸ hrun)
      · exact kept hold
      · exact .related hold hleft hright hforeign
  | setCoefficient constraint target value =>
    refine .discard
      (.ofExcept_bind (fun x _ => .ofExcept_bind (fun h hh => ?_) fun _ h => h ▸ unchanged)
      fun _ h => h ▸ unchanged)
    obtain rfl : constraint = .constraint h := by
      cases constraint <;> cases hh
      rfl
    refine .bind (spec_target unchanged target) fun v => ?_
    refine .of_forall ?_
    rintro _ ⟨rfl, rfl⟩
    refine .bind (spec_inspect unchanged) fun j => ?_
    rintro _ ⟨rfl, i, p, hold, hj⟩
    obtain ⟨howner, rfl⟩ := Subproblem.position_eq_ok hj
    exact .coefficientSet hold howner
  | setRhs constraint value =>
    cases constraint with
    | constraint h =>
      refine .discard (.ofExcept_bind (fun x _ => ?_) fun _ h => h ▸ unchanged)
      rintro _ rfl
      exact .rhsSet
    | _ =>
      exact .discard (.ofExcept_bind (fun x _ => fun _ h => h ▸ unchanged) fun _ h => h ▸ unchanged)
  | deleteConstraint constraint =>
    cases constraint with
    | constraint h =>
      refine .discard ?_
      rintro _ rfl
      exact .deleted
    | _ => exact .discard fun _ h => h ▸ unchanged
  | setObjective sense objective => exact leads_setObjective
  | optimize solver =>
    refine spec_onSubproblem unchanged fun i p hold => .get_bind ?_
    rintro _ rfl
    exact .ofExcept_bind (fun program _ => .set fun _ _ => .solved hold) fun _ h => h ▸ kept hold
  | read item =>
    refine .get_bind ?_
    rintro _ rfl
    exact spec_read unchanged
  | fixedDual target =>
    refine .bind (spec_target unchanged target) fun v => ?_
    rintro _ ⟨rfl, -⟩
    exact spec_read unchanged _ rfl

theorem leads_after (step : ℤ × Operation α) : w.Leads step.1 step.2 (w.after step) :=
  (leads_run step.2).final rfl

/-- An operation changes nothing, or the subproblem at its place, which keeps its number, or the
constraint that it edits. -/
theorem Leads.shape {op : Operation α} (h : w.Leads place op w') :
    w' = w ∨ (∃ i p q, w.Holds place i p ∧ w' = w.put i q ∧ q.owner = p.owner) ∨
      ∃ h edit, op.edits = some h ∧ w' = w.editing h edit := by
  cases h with
  | unchanged => exact .inl rfl
  | added hold => exact .inr (.inl ⟨_, _, _, hold, rfl, rfl⟩)
  | lowerSet hold => exact .inr (.inl ⟨_, _, _, hold, rfl, rfl⟩)
  | upperSet hold => exact .inr (.inl ⟨_, _, _, hold, rfl, rfl⟩)
  | fixed hold _ => exact .inr (.inl ⟨_, _, _, hold, rfl, rfl⟩)
  | unfixed hold => exact .inr (.inl ⟨_, _, _, hold, rfl, rfl⟩)
  | related hold _ _ _ => exact .inr (.inl ⟨_, _, _, hold, rfl, rfl⟩)
  | coefficientSet _ _ => exact .inr (.inr ⟨_, _, rfl, rfl⟩)
  | rhsSet => exact .inr (.inr ⟨_, _, rfl, rfl⟩)
  | deleted => exact .inr (.inr ⟨_, _, rfl, rfl⟩)
  | senseSet hold => exact .inr (.inl ⟨_, _, _, hold, rfl, rfl⟩)
  | objectiveSet hold _ => exact .inr (.inl ⟨_, _, _, hold, rfl, rfl⟩)
  | @solved _ o _ _ hold => cases o <;> exact .inr (.inl ⟨_, _, _, hold, rfl, rfl⟩)

end Workspace

end Multistage
