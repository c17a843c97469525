import Multistage.Proofs.Linear.Operations

/-!
# What belongs to another subproblem

An operation of a subproblem refuses variables and constraints of another one. It does not ask to
which subproblem the variables of an objective belong, nor the constraint that it edits.

## Main definitions

- `Operand.Foreign`: the operand is of another subproblem.
- `Operation.WellFormed`: what the operation is given can be read.
- `Operation.Blames`: the failure is about a variable or a constraint of another subproblem.

## Main statements

- `Workspace.refuses_run`: an operation on what is of another subproblem fails and changes nothing.
- `Workspace.run_setObjective`, `Workspace.run_setCoefficient`, `Workspace.run_setRhs`,
  `Workspace.run_deleteConstraint`: what is not refused.
-/

namespace Multistage

/-- The operand is a constraint of another subproblem, or has a variable of one. -/
def Operand.Foreign {α : Type} (owner : ℕ) (o : Operand α) : Prop :=
  (∃ h, o = .constraint h ∧ h.owner ≠ owner) ∨ ∃ v ∈ o.mentioned, v.owner ≠ owner

/-- The operand is a variable or a constraint. -/
def Operand.IsHandle {α : Type} (o : Operand α) : Prop :=
    (∃ v, o = .decision v) ∨ ∃ h, o = .constraint h

/-- What is an expression is not a constraint. -/
theorem Operand.Foreign.of_toAffine {α : Type} [Scalar α] {o : Operand α} {owner : ℕ}
    {describe : ConstraintHandle → Misfit α} {e : Affine α} (hforeign : o.Foreign owner)
    (h : o.toAffine describe = .ok e) : ∃ v ∈ e.terms.keys, v.owner ≠ owner := by
  obtain ⟨_, rfl, -⟩ | hv := hforeign
  · cases h
  · rwa [Operand.keys_eq_mentioned h]

namespace Subproblem

variable {α : Type} [Scalar α] {p : Subproblem α} {e : Affine α} {cause : Failure α}

omit [Scalar α] in
theorem declines_atVariable {v : Variable} {change : Subproblem α → ℕ → Subproblem α}
    (h : v.owner ≠ p.owner) :
    (atVariable v change).Declines p (· = .ofVariable .foreignVariable v) :=
  .after rfl (.ofExcept_bind (fun _ hi => absurd (position_eq_ok hi).1 h) fun _ he =>
    (position_eq_error.1 he).2)

omit [Scalar α] in
theorem declines_setLower {v : Variable} {b : Extended α} (h : v.owner ≠ p.owner) :
    (setLower v b).Declines p (· = .ofVariable .foreignVariable v) := by
  refine .after rfl ⟨_, ?_, rfl⟩
  rw [setBound_eq_error h]
  rfl

omit [Scalar α] in
theorem declines_setUpper {v : Variable} {b : Extended α} (h : v.owner ≠ p.owner) :
    (setUpper v b).Declines p (· = .ofVariable .foreignVariable v) := by
  refine .after rfl ⟨_, ?_, rfl⟩
  rw [setBound_eq_error h]
  rfl

theorem owner_of_valueOf {x : α} (h : p.valueOf e = .ok x) :
    ∀ v ∈ e.terms.keys, v.owner = p.owner := by
  intro v hv
  obtain ⟨t, ht, rfl⟩ := List.mem_map.1 hv
  unfold valueOf at h
  split at h
  · cases h
  obtain ⟨values, hvalues, -⟩ := Except.bind_eq_ok.1 h
  obtain ⟨_, -, hterm⟩ := Except.exists_of_mem_items hvalues ht
  obtain ⟨i, hi, -⟩ := Except.bind_eq_ok.1 hterm
  exact (position_eq_ok hi).1

/-- The value of an expression at a point that has its own variables fails at one of the others. -/
theorem valueOf_eq_error {point : List α} (hpoint : p.point? = some point)
    (hrange : ∀ v ∈ e.terms.keys, v.owner = p.owner → v.index < point.length)
    (h : p.valueOf e = .error cause) :
    ∃ v ∈ e.terms.keys, v.owner ≠ p.owner ∧ cause = .ofVariable .foreignVariable v := by
  unfold valueOf at h
  rw [hpoint] at h
  obtain failed | ⟨_, -, h⟩ := Except.bind_eq_error.1 h
  swap
  · cases h
  obtain ⟨t, ht, hterm⟩ := Except.exists_of_mapM_eq_error failed
  have hkey : t.1 ∈ e.terms.keys := List.mem_map_of_mem ht
  obtain hplace | ⟨i, hplace, hterm⟩ := Except.bind_eq_error.1 hterm
  · exact ⟨t.1, hkey, position_eq_error.1 hplace⟩
  · obtain ⟨howner, rfl⟩ := position_eq_ok hplace
    rw [List.getElem?_eq_getElem (hrange _ hkey howner)] at hterm
    cases hterm

theorem read_eq {describe : ConstraintHandle → Misfit α} {o : Operand α} (ho : ¬∃ s, o = .state s) :
    p.read describe o = if p.point?.isNone then .error (.noSolution p.label) else do
      return .number (← p.valueOf (← o.toAffine describe)) := by
  cases o with
  | state s => exact absurd ⟨s, rfl⟩ ho
  | _ => rfl

/-- What is read is of the subproblem. -/
theorem not_foreign_of_read {describe : ConstraintHandle → Misfit α} {o : Operand α} {x : Reading α}
    (h : p.read describe o = .ok x) : ¬o.Foreign p.owner := by
  intro hforeign
  by_cases ho : ∃ s, o = .state s
  · obtain ⟨s, rfl⟩ := ho
    obtain ⟨_, h', -⟩ | ⟨v, hv, howner⟩ := hforeign
    · cases h'
    unfold read at h
    split at h
    · cases h
    obtain ⟨_, hin, h⟩ := Except.bind_eq_ok.1 h
    obtain ⟨_, hout, -⟩ := Except.bind_eq_ok.1 h
    obtain rfl | rfl := List.mem_pair.1 hv
    · exact howner (owner_of_valueOf hin _ (List.mem_singleton_self _))
    · exact howner (owner_of_valueOf hout _ (List.mem_singleton_self _))
  · rw [read_eq ho] at h
    split at h
    · cases h
    obtain ⟨e, he, h⟩ := Except.bind_eq_ok.1 h
    obtain ⟨_, hvalue, -⟩ := Except.bind_eq_ok.1 h
    obtain ⟨v, hv, howner⟩ := hforeign.of_toAffine he
    exact howner (owner_of_valueOf hvalue v hv)

/-- Reading an expression or a state at a point that has its own variables fails at one of the
others. -/
theorem read_eq_error {describe : ConstraintHandle → Misfit α} {o : Operand α} {point : List α}
    (hpoint : p.point? = some point)
    (hrange : ∀ v ∈ o.mentioned, v.owner = p.owner → v.index < point.length)
    (ho : (∃ s, o = .state s) ∨ ∃ e, o.toAffine describe = .ok e)
    (h : p.read describe o = .error cause) :
    ∃ v ∈ o.mentioned, v.owner ≠ p.owner ∧ cause = .ofVariable .foreignVariable v := by
  have solved : ¬p.point?.isNone = true := by simp [hpoint]
  by_cases hstate : ∃ s, o = .state s
  · obtain ⟨s, rfl⟩ := hstate
    rw [read, if_neg solved] at h
    have at_copy : ∀ v ∈ [s.incoming, s.outgoing], p.valueOf (Affine.ofVariable v) = .error cause →
        ∃ v ∈ [s.incoming, s.outgoing], v.owner ≠ p.owner ∧
          cause = .ofVariable .foreignVariable v := by
      intro v hv hvalue
      obtain ⟨u, hu, found⟩ := valueOf_eq_error (e := Affine.ofVariable v) hpoint
        (fun u hu => hrange u (List.mem_singleton.1 hu ▸ hv)) hvalue
      exact ⟨u, List.mem_singleton.1 hu ▸ hv, found⟩
    obtain hin | ⟨_, -, h⟩ := Except.bind_eq_error.1 h
    · exact at_copy s.incoming (by simp) hin
    obtain hout | ⟨_, -, h⟩ := Except.bind_eq_error.1 h
    · exact at_copy s.outgoing (by simp) hout
    · cases h
  · obtain ⟨e, he⟩ := ho.resolve_left hstate
    rw [read_eq hstate, if_neg solved, he] at h
    rw [← Operand.keys_eq_mentioned he] at hrange ⊢
    obtain failed | ⟨_, he', h⟩ := Except.bind_eq_error.1 h
    · cases failed
    cases he'
    obtain hvalue | ⟨_, -, h⟩ := Except.bind_eq_error.1 h
    · exact valueOf_eq_error hpoint hrange hvalue
    · cases h

end Subproblem

namespace Workspace

open Multistage.Action (Declines)

variable {α : Type} [Scalar α] {w : Workspace α} {place : ℤ} {i : ℕ} {p : Subproblem α}

omit [Scalar α] in
theorem subproblem_eq (hold : w.Holds place i p) : subproblem place w = .ok p w := by
  show Action.ofOption .indexOutOfRange
      ((placeOf w.subproblems.length place).bind fun i => w.subproblems[i]?) w = _
  rw [hold.1]
  show Action.ofOption .indexOutOfRange w.subproblems[i]? w = _
  rw [hold.2]
  rfl

namespace Operation

/-- The cause is a variable or a constraint of another subproblem that the operation is given. -/
def Blames (w : Workspace α) (owner : ℕ) (op : Operation α) (cause : Failure α) : Prop :=
  (∃ v ∈ op.given, v.owner ≠ owner ∧ cause = .ofVariable .foreignVariable v) ∨
    ∃ h, .constraint h ∈ op.operands ∧ h.owner ≠ owner ∧ cause = .foreignConstraint (w.describe h)

/-- What the operation is given can be read, in the subproblem that it is an operation of. -/
def WellFormed (w : Workspace α) (p : Subproblem α) : Operation α → Prop
  | bounds target | unfix target | fixedDual target => target.IsHandle
  | setLower target value | setUpper target value | fix target value =>
    target.IsHandle ∧ ∃ x, value.toScalar = .ok x
  | addConstraint lhs relation rhs _ => (∃ r, Relation.ofDatum relation = .ok r) ∧
    (∃ e, lhs.toAffine w.describe = .ok e) ∧ ∃ e, rhs.toAffine w.describe = .ok e
  | setCoefficient constraint target value =>
    (∃ h, constraint = .constraint h) ∧ target.IsHandle ∧ ∃ x, value.toScalar = .ok x
  | read item => (∃ point, p.point? = some point ∧
      ∀ v ∈ item.mentioned, v.owner = p.owner → v.index < point.length) ∧
    ((∃ s, item = .state s) ∨ ∃ e, item.toAffine w.describe = .ok e)
  | _ => True

end Operation

omit [Scalar α] in
theorem declines_onSubproblem {β : Type} {act : Action α (Subproblem α) β} {C : Failure α → Prop}
    (hold : w.Holds place i p) (h : act.Declines p C) : (onSubproblem place act).Declines w C := by
  obtain ⟨e, hrun, hC⟩ := h
  refine ⟨e, ?_, hC⟩
  rw [onSubproblem_eq hold, hrun]
  simp only [hold.put_self]

omit [Scalar α] in
theorem declines_inspect {β : Type} {look : Subproblem α → Except (Failure α) β}
    {C : Failure α → Prop}
    (hold : w.Holds place i p) (hok : ∀ b, look p ≠ .ok b) (herror : ∀ e, look p = .error e → C e) :
    (inspect place look).Declines w C :=
  .after (subproblem_eq hold) (.ofExcept hok herror)

/-- What is of another subproblem is no target, unless it is a variable that is refused
afterwards. -/
theorem declines_target {β : Type} {o : Operand α} {op : Operation α}
    {f : Variable → Action α (Workspace α) β}
    (hop : o ∈ op.operands) (hwell : op.WellFormed w p → o.IsHandle) (hold : w.Holds place i p)
    (hforeign : o.Foreign p.owner)
    (hv : ∀ v, v.owner ≠ p.owner → (f v).Declines w (· = .ofVariable .foreignVariable v)) :
    (target place o >>= f).Declines w fun cause => op.WellFormed w p →
    op.Blames w p.owner cause := by
  cases o with
  | decision v =>
    obtain ⟨_, h, -⟩ | ⟨u, hu, howner⟩ := hforeign
    · cases h
    obtain rfl := List.mem_singleton.1 hu
    obtain ⟨e, hrun, rfl⟩ := hv u howner
    exact .after rfl ⟨_, hrun, fun _ => .inl ⟨u, List.mem_flatMap_of_mem hop hu, howner, rfl⟩⟩
  | constraint h =>
    obtain ⟨h', hh, howner⟩ | ⟨_, hu, -⟩ := hforeign
    swap
    · cases hu
    cases hh
    have run : target place (.constraint h) w = .error (.foreignConstraint (w.describe h)) w := by
      refine Action.bind_eq_error.2 (.inr ⟨p, w, subproblem_eq hold, ?_⟩)
      rw [if_neg (by simpa using howner.symm)]
      rfl
    exact .bind ⟨_, run, fun _ => .inr ⟨h, hop, howner, rfl⟩⟩
  | _ =>
    exact .bind ⟨.missingField, rfl,
      fun well => by obtain ⟨_, h⟩ | ⟨_, h⟩ := hwell well <;> cases h⟩

/-- An operation that is given a variable or a constraint of another subproblem, not as an objective
and not to be edited, fails and changes nothing. If there is nothing else about it to fail, this is
the cause. -/
theorem refuses_run {op : Operation α} {o : Operand α} (hold : w.Holds place i p)
    (ho : o ∈ op.operands) (hforeign : o.Foreign p.owner) :
    (op.run place).Declines w fun cause => op.WellFormed w p → op.Blames w p.owner cause := by
  have unread : ∀ {β : Type} {x : Except (Failure α) β} {e : Failure α}, x = .error e →
      ¬∃ b, x = .ok b := by
    rintro β _ e rfl ⟨b, hb⟩
    cases hb
  cases op with
  | bounds target =>
    obtain rfl := List.mem_singleton.1 ho
    refine declines_target ho id hold hforeign fun v howner =>
      .discard (declines_inspect hold ?_ ?_)
    · intro b hb
      obtain ⟨_, hlower, -⟩ := Except.bind_eq_ok.1 hb
      obtain ⟨_, hplace, -⟩ := Except.bind_eq_ok.1 hlower
      exact howner (Subproblem.position_eq_ok hplace).1
    · intro e he
      rw [Subproblem.lowerBound, Subproblem.position_eq_error.2 ⟨howner, rfl⟩] at he
      cases he
      rfl
  | setLower target value =>
    obtain rfl := List.mem_singleton.1 ho
    refine .ofExcept_bind (fun x _ => ?_) fun e he well => (unread he well.2).elim
    exact declines_target ho (·.1) hold hforeign fun v howner =>
      declines_onSubproblem hold (Subproblem.declines_setLower howner)
  | setUpper target value =>
    obtain rfl := List.mem_singleton.1 ho
    refine .ofExcept_bind (fun x _ => ?_) fun e he well => (unread he well.2).elim
    exact declines_target ho (·.1) hold hforeign fun v howner =>
      declines_onSubproblem hold (Subproblem.declines_setUpper howner)
  | fix target value =>
    obtain rfl := List.mem_singleton.1 ho
    refine .ofExcept_bind (fun x _ => ?_) fun e he well => (unread he well.2).elim
    exact declines_target ho (·.1) hold hforeign fun v howner =>
      declines_onSubproblem hold (Subproblem.declines_atVariable howner)
  | unfix target =>
    obtain rfl := List.mem_singleton.1 ho
    exact declines_target ho id hold hforeign fun v howner =>
      declines_onSubproblem hold (Subproblem.declines_atVariable howner)
  | addConstraint lhs relation rhs name =>
    refine .discard
      (.ofExcept_bind (fun r _ => .after rfl ?_) fun e he well => (unread he well.1).elim)
    refine .ofExcept_bind (fun left hleft => ?_) fun e he well => (unread he well.2.1).elim
    refine .ofExcept_bind (fun right hright => ?_) fun e he well => (unread he well.2.2).elim
    have mentions : ∀ v, v ∈ (left.sub right).terms.keys ↔
        v ∈ lhs.mentioned ∨ v ∈ rhs.mentioned := by
      intro v
      rw [Affine.mem_keys_sub, Operand.keys_eq_mentioned hleft, Operand.keys_eq_mentioned hright]
    obtain ⟨v, hv, howner⟩ : ∃ v ∈ (left.sub right).terms.keys, v.owner ≠ p.owner := by
      obtain rfl | rfl := List.mem_pair.1 ho
      · obtain ⟨v, hv, howner⟩ := hforeign.of_toAffine hleft
        exact ⟨v, (mentions v).2 (.inl (Operand.keys_eq_mentioned hleft ▸ hv)), howner⟩
      · obtain ⟨v, hv, howner⟩ := hforeign.of_toAffine hright
        exact ⟨v, (mentions v).2 (.inr (Operand.keys_eq_mentioned hright ▸ hv)), howner⟩
    obtain ⟨u, hu⟩ : ∃ u, p.foreign? (left.sub right) = some u :=
      Option.isSome_iff_exists.1 (List.find?_isSome.2 ⟨v, hv, by simpa using howner⟩)
    refine declines_onSubproblem hold
      ⟨_, Subproblem.addConstraint_eq_error.2 (.inl ⟨rfl, u, hu, rfl⟩), fun _ => ?_⟩
    refine .inl ⟨u, ?_, by simpa using List.find?_some hu, rfl⟩
    simpa [Operation.given, Operation.operands] using (mentions u).1 (List.mem_of_find?_eq_some hu)
  | setCoefficient constraint target value =>
    obtain rfl := List.mem_singleton.1 ho
    refine .discard (.ofExcept_bind (fun x _ => ?_) fun e he well => (unread he well.2.2).elim)
    refine .ofExcept_bind (fun h _ => ?_) fun e he well => ?_
    · exact declines_target ho (·.2.1) hold hforeign fun v howner => .bind (declines_inspect hold
        (fun b hb => howner (Subproblem.position_eq_ok hb).1) fun e he =>
        (Subproblem.position_eq_error.1 he).2)
    · obtain ⟨h, rfl⟩ := well.1
      cases he
  | read item =>
    obtain rfl := List.mem_singleton.1 ho
    refine .after rfl (.discard (declines_inspect hold
      (fun _ hread => Subproblem.not_foreign_of_read hread hforeign) fun e he well => ?_))
    obtain ⟨⟨point, hpoint, hrange⟩, hitem⟩ := well
    obtain ⟨v, hv, found⟩ := Subproblem.read_eq_error hpoint hrange hitem he
    exact .inl ⟨v, List.mem_flatMap_of_mem ho hv, found⟩
  | fixedDual target =>
    obtain rfl := List.mem_singleton.1 ho
    refine declines_target ho id hold hforeign fun v howner =>
      .discard (declines_inspect hold ?_ ?_)
    · intro b hb
      obtain ⟨_, hplace, -⟩ := Except.bind_eq_ok.1 hb
      exact howner (Subproblem.position_eq_ok hplace).1
    · intro e he
      rw [Subproblem.fixedDual, Subproblem.position_eq_error.2 ⟨howner, rfl⟩] at he
      cases he
      rfl
  | _ => cases ho

/-! ### What is not checked -/

theorem run_setRhs {x : α} {value : Datum α} (h : ConstraintHandle)
    (hvalue : value.toScalar = .ok x) :
    (Operation.setRhs (.constraint h) value).run place w =
    .ok () (w.editing h fun c => { c with rhs := x }) := by
  exact Action.discard_eq_ok (b := h)
    (Action.bind_eq_ok.2 ⟨x, w, Action.ofExcept_eq_ok.2 ⟨hvalue, rfl⟩, rfl⟩)

theorem run_deleteConstraint (h : ConstraintHandle) :
    (Operation.deleteConstraint (.constraint h)).run place w =
      .ok () (w.editing h fun c => { c with active := false }) := rfl

/-- Where a coefficient is set the variable is checked, and the constraint is not. -/
theorem run_setCoefficient {x : α} {value : Datum α} {v : Variable} (hold : w.Holds place i p)
    (howner : v.owner = p.owner) (h : ConstraintHandle) (hvalue : value.toScalar = .ok x) :
    (Operation.setCoefficient (.constraint h) (.decision v) value).run place w =
      .ok () (w.editing h fun c => { c with coefficients := c.coefficients.insert v.index x }) := by
  have found : inspect place (fun p => p.position v) w = .ok v.index w := by
    refine Action.bind_eq_ok.2 ⟨p, w, subproblem_eq hold, Action.ofExcept_eq_ok.2 ⟨if_pos ?_, rfl⟩⟩
    simpa using howner
  refine Action.discard_eq_ok (b := h)
    (Action.bind_eq_ok.2 ⟨x, w, Action.ofExcept_eq_ok.2 ⟨hvalue, rfl⟩, ?_⟩)
  refine Action.bind_eq_ok.2 ⟨h, w, rfl, Action.bind_eq_ok.2 ⟨v, w, rfl, ?_⟩⟩
  exact Action.bind_eq_ok.2 ⟨v.index, w, found, rfl⟩

/-- An objective is not checked. -/
theorem run_setObjective {sense : Datum α} {objective : Operand α} {r : Sense} {e : Affine α}
    (hold : w.Holds place i p) (hr : Sense.ofDatum sense = .ok r)
    (he : objective.toAffine w.describe = .ok e) :
    (Operation.setObjective sense objective).run place w =
      .ok () (w.put i { p with sense := r, objective := e }) := by
  have at_place : (w.put i { p with sense := r }).Holds place i { p with sense := r } := hold.put
  have installed := onSubproblem_eq at_place (Subproblem.setObjective r e)
  have sensed := onSubproblem_eq hold (modify fun p => { p with sense := r })
  refine Action.bind_eq_ok.2 ⟨r, w, Action.ofExcept_eq_ok.2 ⟨hr, rfl⟩, ?_⟩
  refine Action.bind_eq_ok.2 ⟨(), w.put i { p with sense := r }, sensed, ?_⟩
  refine Action.bind_eq_ok.2 ⟨_, _, rfl, ?_⟩
  refine Action.bind_eq_ok.2
    ⟨e, _, Action.ofExcept_eq_ok.2 ⟨Operand.toAffine_of_describe he, rfl⟩, ?_⟩
  rw [installed]
  exact congrArg _ (put_put ..)

end Workspace

end Multistage
