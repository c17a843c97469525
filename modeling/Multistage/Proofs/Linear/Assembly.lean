import Multistage.Linear.Subproblem
import Multistage.Proofs.Action
import Multistage.Proofs.Linear.Mentions

/-!
# Assembling subproblems

What adding a variable, adding a constraint and giving a name a meaning do to a subproblem.

## Main definitions

- `Subproblem.constraintOf`: the constraint that relates two expressions.
- `Subproblem.pushConstraint`: the subproblem with another constraint.

## Main statements

- `Subproblem.triple_atVariable`, `Subproblem.triple_setLower`: changes at a variable.
- `Subproblem.triple_addVariable`, `Subproblem.triple_addConstraint`: the additions.
- `Subproblem.spreadBounds_eq_kept`: the bounds that a solve is given.
- `Subproblem.coefficients_constraintOf`: a constraint is over the variables of its expressions.
-/

namespace Multistage

namespace Subproblem

section

variable {α : Type} {p : Subproblem α} {name : Name}

/-! ### Changes at a variable -/

theorem position_eq_ok {v : Variable} {i : ℕ} (h : p.position v = .ok i) :
    v.owner = p.owner ∧ i = v.index := by
  unfold position at h
  split at h
  next howner =>
    cases h
    exact ⟨eq_of_beq howner, rfl⟩
  next => cases h

theorem position_eq_error {v : Variable} {cause : Failure α} :
    p.position v = .error cause ↔ v.owner ≠ p.owner ∧ cause = .ofVariable .foreignVariable v := by
  unfold position
  by_cases howner : v.owner = p.owner
  · simp [howner]
  · simp [howner, eq_comm (a := cause)]

theorem setBound_eq_ok {side side' : List (Extended α)} {v : Variable} {b : Extended α}
    (h : p.setBound side v b = .ok side') :
    v.owner = p.owner ∧ v.index < side.length ∧ side' = side.set v.index b := by
  obtain ⟨i, hi, h⟩ := Except.bind_eq_ok.1 h
  obtain ⟨howner, rfl⟩ := position_eq_ok hi
  split at h
  next hlt =>
    cases h
    exact ⟨howner, hlt, rfl⟩
  next => cases h

theorem setBound_eq_error {side : List (Extended α)} {v : Variable} {b : Extended α}
    (h : v.owner ≠ p.owner) :
    p.setBound side v b = .error (.ofVariable .foreignVariable v) :=
  Except.bind_eq_error.2 (.inl (position_eq_error.2 ⟨h, rfl⟩))

theorem atVariable_eq_ok {p' : Subproblem α} {v : Variable}
    {change : Subproblem α → ℕ → Subproblem α}
    (h : atVariable v change p = .ok () p') : v.owner = p.owner ∧ p' = change p v.index := by
  obtain ⟨_, _, hget, h⟩ := Action.bind_eq_ok.1 h
  cases hget
  obtain ⟨i, _, looked, h⟩ := Action.bind_eq_ok.1 h
  obtain ⟨hi, rfl⟩ := Action.ofExcept_eq_ok.1 looked
  obtain ⟨howner, rfl⟩ := position_eq_ok hi
  cases h
  exact ⟨howner, rfl⟩

variable (p)

theorem triple_atVariable {v : Variable} {change : Subproblem α → ℕ → Subproblem α} :
    Action.Triple (· = p) (atVariable v change) (fun _ p' => p' = change p v.index) (· = p) := by
  refine .get_bind ?_
  rintro p rfl
  refine .ofExcept_bind (fun i hi => .set fun _ _ => ?_) fun _ => id
  rw [(position_eq_ok hi).2]

theorem triple_setLower (v : Variable) (b : Extended α) :
    Action.Triple (· = p) (setLower v b)
      (fun _ p' => v.owner = p.owner ∧ v.index < p.lower.length ∧
        p' = { p with lower := p.lower.set v.index b }) (· = p) := by
  refine .get_bind ?_
  rintro _ rfl
  refine .ofExcept_bind (fun side hside => .set fun _ _ => ?_) fun _ => id
  obtain ⟨howner, hlt, rfl⟩ := setBound_eq_ok hside
  exact ⟨howner, hlt, rfl⟩

theorem triple_setUpper (v : Variable) (b : Extended α) :
    Action.Triple (· = p) (setUpper v b)
      (fun _ p' => v.owner = p.owner ∧ v.index < p.upper.length ∧
        p' = { p with upper := p.upper.set v.index b }) (· = p) := by
  refine .get_bind ?_
  rintro _ rfl
  refine .ofExcept_bind (fun side hside => .set fun _ _ => ?_) fun _ => id
  obtain ⟨howner, hlt, rfl⟩ := setBound_eq_ok hside
  exact ⟨howner, hlt, rfl⟩

theorem triple_register (o : Operand α) :
    Action.Triple (· = p) (register name o)
      (fun _ p' => p' = { p with registry := p.registry.insert name o }) fun _ => True := by
  refine .get_bind ?_
  rintro _ rfl
  refine .refuse (b := ()) (fun _ _ => trivial) fun _ => ?_
  refine .refuse (b := ()) (fun _ _ => trivial) fun _ => ?_
  exact .set fun _ _ => rfl

/-- A variable that was added is the last one, and its name may stand for it. -/
theorem triple_addVariable (lower upper : Except (Failure α) (Extended α)) :
    Action.Triple (· = p) (addVariable name lower upper)
      (fun v p' => ∃ l u registry, lower = .ok l ∧ upper = .ok u ∧
        v = ⟨p.owner, p.names.length, .ofName name⟩ ∧
        (registry = p.registry ∨ name ≠ .null ∧ registry = p.registry.insert name (.decision v)) ∧
        p' = { p with
          names := p.names ++ [name]
          lower := p.lower ++ [l]
          upper := p.upper ++ [u]
          registry := registry }) fun _ => True := by
  refine .get_bind ?_
  rintro _ rfl
  refine .run rfl (.ofExcept_bind (fun l hl => ?_) fun _ _ => trivial)
  refine .run rfl (.ofExcept_bind (fun u hu => ?_) fun _ _ => trivial)
  refine .run rfl ?_
  split
  · refine .pure ?_
    rintro _ rfl
    exact ⟨l, u, _, hl, hu, rfl, .inl rfl, rfl⟩
  next hname =>
    refine .bind (triple_register _ _) fun _ => .pure ?_
    rintro _ rfl
    exact ⟨l, u, _, hl, hu, rfl, .inr ⟨hname, rfl⟩, rfl⟩

/-! ### The bounds that a solve is given -/

variable {p}

theorem getElem?_keptBounds (i : ℕ) :
    p.keptBounds[i]? = (p.lower[i]?).bind fun l => (p.upper[i]?).map fun u =>
      if p.fixed.contains i then (none, none) else (l.finite?, u.finite?) := by
  unfold keptBounds
  rw [List.getElem?_map, List.getElem?_zipIdx, List.zip, List.getElem?_zipWith]
  cases p.lower[i]? with
  | none => rfl
  | some l => cases p.upper[i]? <;> simp

theorem length_keptBounds : p.keptBounds.length = min p.lower.length p.upper.length := by
  simp [keptBounds]

/-- If no bound is missing, a solve is given those of every variable. -/
theorem spreadBounds_eq_kept [Scalar α] (hlower : p.lower.length = p.names.length)
    (hupper : p.upper.length = p.names.length) : p.spreadBounds = .ok p.keptBounds := by
  have full : p.keptBounds.length = p.names.length := by
    rw [length_keptBounds, hlower, hupper, Nat.min_self]
  simp [spreadBounds, full]

/-- A variable that has a pair of bounds is given that pair, also if others have none. -/
theorem getElem?_of_spreadBounds [Scalar α] {bounds : List (Option α × Option α)}
    (h : p.spreadBounds = .ok bounds) {i : ℕ} (hi : i < p.names.length) {pair : Option α × Option α}
    (hpair : p.keptBounds[i]? = some pair) :
    bounds[i]? = some pair := by
  simp only [spreadBounds] at h
  split at h
  · cases h
    exact hpair
  · split at h
    next hkept =>
      rw [hkept] at hpair
      cases hpair
    next _ hkept =>
      cases h
      rw [hkept, List.getElem?_singleton] at hpair
      split at hpair
      · rw [List.getElem?_replicate, if_pos hi, hpair]
      · cases hpair
    next => cases h

theorem lowerBound_eq_ok {v : Variable} {b : Extended α} (h : p.lowerBound v = .ok b) :
    p.lower[v.index]? = some b := by
  obtain ⟨i, hi, h⟩ := Except.bind_eq_ok.1 h
  obtain ⟨-, rfl⟩ := position_eq_ok hi
  exact Except.elim_eq_ok.1 h

theorem upperBound_eq_ok {v : Variable} {b : Extended α} (h : p.upperBound v = .ok b) :
    p.upper[v.index]? = some b := by
  obtain ⟨i, hi, h⟩ := Except.bind_eq_ok.1 h
  obtain ⟨-, rfl⟩ := position_eq_ok hi
  exact Except.elim_eq_ok.1 h

/-! ### Solves -/

theorem bounds_of_program [Scalar α] {program : Program α} (h : p.program = .ok program) :
    program.size = p.names.length ∧ ∃ bounds, p.spreadBounds = .ok bounds ∧
      program.lower = bounds.map (·.1) ∧ program.upper = bounds.map (·.2) := by
  obtain ⟨cost, hcost, h⟩ := Except.bind_eq_ok.1 h
  obtain ⟨rows, -, h⟩ := Except.bind_eq_ok.1 h
  simp only at h
  split at h
  · cases h
  · obtain ⟨bounds, hbounds, h⟩ := Except.bind_eq_ok.1 h
    cases h
    refine ⟨?_, bounds, hbounds, rfl, rfl⟩
    unfold dense at hcost
    split at hcost
    · cases hcost
    · cases hcost
      rw [Program.size, List.length_map, List.length_range]

/-- A solve keeps what the solver finds for the program. -/
theorem optimize_eq_ok [Scalar α] {solver : Solver α} {p' : Subproblem α}
    (h : optimize solver p = .ok () p') :
    ∃ program, p.program = .ok program ∧ p' = p.withOutcome (solver program) := by
  have run : EStateM.bind (Action.ofExcept p.program)
      (fun program => set (p.withOutcome (solver program))) p = .ok () p' := h
  cases hp : p.program with
  | error e =>
    rw [hp] at run
    cases run
  | ok program =>
    rw [hp] at run
    cases run
    exact ⟨program, rfl, rfl⟩

end

/-! ### Constraints -/

variable (p : Subproblem ℚ) (lhs rhs : Affine ℚ) (relation : Relation) {name : Name}

/-- The constraint `lhs relation rhs` with variables on the left and constants on the right. -/
def constraintOf (name : Name) : Except (Failure ℚ) (Constraint ℚ) := do
  let coefficients ← (lhs.sub rhs).terms.entries.mapM fun (v, c) =>
    (p.position v).map fun i => (i, c)
  return ⟨Dict.ofList coefficients, relation, -(lhs.sub rhs).constant, name, true⟩

/-- The subproblem with another constraint. -/
def pushConstraint (k : Constraint ℚ) : Subproblem ℚ :=
    { p with constraints := p.constraints ++ [k] }

/-- A constraint without a name is added at the end, unless it mentions a foreign variable. -/
theorem addConstraint_null :
    addConstraint lhs relation rhs .null p =
      match p.constraintOf lhs rhs relation .null with
      | .ok k => .ok ⟨p.owner, p.constraints.length⟩ (p.pushConstraint k)
      | .error e => .error e p := by
  unfold constraintOf
  show (addConstraint lhs relation rhs .null : Action ℚ (Subproblem ℚ) ConstraintHandle) p = _
  unfold addConstraint
  cases h : (lhs.sub rhs).terms.entries.mapM fun (v, c) => (p.position v).map fun i => (i, c) with
  | error e =>
    show EStateM.bind (Action.ofExcept _) _ p = _
    rw [h]
    rfl
  | ok coefficients =>
    show EStateM.bind (Action.ofExcept _) _ p = _
    rw [h]
    rfl

/-- A constraint that was added is the last one, and its name may stand for it. -/
theorem triple_addConstraint :
    Action.Triple (· = p) (addConstraint lhs relation rhs name)
      (fun _ p' => ∃ k registry, p.constraintOf lhs rhs relation name = .ok k ∧
        (registry = p.registry ∨
          registry = p.registry.insert name (.constraint ⟨p.owner, p.constraints.length⟩)) ∧
        p' = { p with constraints := p.constraints ++ [k], registry := registry })
      fun _ => True := by
  refine .get_bind ?_
  rintro _ rfl
  refine .ofExcept_bind (fun coefficients hcoefficients => ?_) fun _ _ => trivial
  have constraint : constraintOf _ lhs rhs relation name = .ok
      ⟨Dict.ofList coefficients, relation, -(lhs.sub rhs).constant, name, true⟩ :=
    Except.bind_eq_ok.2 ⟨coefficients, hcoefficients, rfl⟩
  refine .run rfl ?_
  split
  · refine .pure ?_
    rintro _ rfl
    exact ⟨_, _, constraint, .inl rfl, rfl⟩
  · refine .bind (triple_register _ _) fun _ => .pure ?_
    rintro _ rfl
    exact ⟨_, _, constraint, .inr rfl, rfl⟩

variable {p lhs rhs relation} in
theorem coefficients_constraintOf {k : Constraint ℚ}
    (h : p.constraintOf lhs rhs relation name = .ok k) {owner count : ℕ}
    (hl : lhs.Within owner count) (hr : rhs.Within owner count) :
    ∀ i a, k.coefficients.get? i = some a → i < count := by
  intro i a hget
  obtain ⟨coefficients, hcoefficients, h⟩ := Except.bind_eq_ok.1 h
  cases h
  rw [Dict.get?_ofList, Option.map_eq_some_iff] at hget
  obtain ⟨e, he, -⟩ := hget
  obtain ⟨he, hkey⟩ := List.mem_filter.1 (List.mem_of_getLast? he)
  obtain ⟨t, ht, hte⟩ := Except.exists_of_mem_mapM hcoefficients he
  obtain ⟨j, hj, rfl⟩ := Except.map_eq_ok.1 hte
  obtain ⟨-, rfl⟩ := position_eq_ok hj
  rw [← eq_of_beq hkey]
  exact (hl.sub hr t.1 (List.mem_map_of_mem ht)).2

end Subproblem

end Multistage
