import Multistage.Linear.Workspace
import Multistage.Proofs.Linear.Assembly

/-!
# Declarations that fail

A variable is there before its bounds are read, and a variable or a constraint is there before its
name is tested. So a declaration that fails leaves what it wrote before the failure.

## Main definitions

- `Subproblem.Refuses`: a name cannot be given a meaning.
- `Subproblem.unfinished`: what is left of adding a variable.
- `Subproblem.foreign?`, `Subproblem.relating`: the first variable of another subproblem that a
  constraint mentions, and the subproblem with the constraint.

## Main statements

- `Subproblem.register_eq_error`, `Subproblem.addVariable_eq_error`,
  `Subproblem.addConstraint_eq_error`: when declarations fail, and what they leave.
- `Workspace.addConstraint_eq_error`: the same of a constraint between operands.
-/

namespace Multistage

/-! ### Declarations of a subproblem -/

namespace Subproblem

open Multistage.Action (Ensures)

section

variable {α : Type} {p p' : Subproblem α} {name : Name} {cause : Failure α}

/-- The name cannot be given a meaning: it is no key, or it has a meaning. -/
def Refuses (p : Subproblem α) (name : Name) (cause : Failure α) : Prop :=
  name.isKey = false ∧ cause = .wrongKind ∨
    name.isKey = true ∧ p.registry.contains name = true ∧ cause = .nameTaken name

/-- The subproblem with a variable that has no meaning yet, and with those of its bounds that could
be read: an upper bound is read only after the lower one. -/
def unfinished (p : Subproblem α) (name : Name) (lower upper : Except (Failure α) (Extended α)) :
    Subproblem α :=
  { p with
    names := p.names ++ [name]
    lower := p.lower ++ lower.toOption.toList
    upper := p.upper ++ (lower.toOption.bind fun _ => upper.toOption).toList }

theorem register_eq (meaning : Operand α) :
    register name meaning p =
      if name.isKey = false then .error .wrongKind p
      else if p.registry.contains name = true then .error (.nameTaken name) p
      else .ok () { p with registry := p.registry.insert name meaning } := by
  unfold register
  cases hkey : name.isKey with
  | false => rfl
  | true =>
    show (if p.registry.contains name = true then _ else _ : Action α (Subproblem α) Unit) p = _
    split <;> rfl

/-- A name that is refused changes nothing. -/
theorem register_eq_error {meaning : Operand α} :
    register name meaning p = .error cause p' ↔ p' = p ∧ p.Refuses name cause := by
  rw [register_eq, Refuses]
  cases name.isKey with
  | false => simp [eq_comm (a := p'), eq_comm (a := cause), and_comm]
  | true =>
    by_cases htaken : p.registry.contains name = true
    · simp [htaken, eq_comm (a := p'), eq_comm (a := cause), and_comm]
    · simp [htaken]

/-- The other subproblem has the same constraints, and what names stand for they stand for there. -/
def Keeps (p p' : Subproblem α) : Prop :=
  p'.constraints = p.constraints ∧
    ∀ name o, p.registry.get? name = some o → p'.registry.get? name = some o

theorem keeps_register {q : Subproblem α} {meaning : Operand α} :
    Ensures q.Keeps (register name meaning) fun _ => True := by
  refine .of_cases (fun p _ p' hp hrun => ⟨?_, trivial⟩) fun p _ p' hp hrun => ?_
  · rw [register_eq] at hrun
    split at hrun
    · cases hrun
    split at hrun
    · cases hrun
    next hnew =>
      cases hrun
      refine ⟨hp.1, fun known o ho => ?_⟩
      have found := hp.2 known o ho
      rw [Dict.get?_insert, if_neg ?_, found]
      intro hsame
      rw [Dict.contains_eq_isSome_get?, Dict.get?_congr hsame, found] at hnew
      exact hnew rfl
  · obtain ⟨rfl, -⟩ := register_eq_error.1 hrun
    exact hp

theorem keeps_addVariable {q : Subproblem α} {lower upper : Except (Failure α) (Extended α)} :
    Ensures q.Keeps (addVariable name lower upper) fun _ => True := by
  refine .bind .get fun p hp => .bind (.modify fun _ _ => hp) fun _ _ => ?_
  refine .bind (.ofExcept (R := fun _ => True) fun _ _ => trivial) fun l _ =>
    .bind (.modify fun _ => id) fun _ _ => ?_
  refine .bind (.ofExcept (R := fun _ => True) fun _ _ => trivial) fun u _ =>
    .bind (.modify fun _ => id) fun _ _ => ?_
  split
  · exact .pure trivial
  · exact .bind keeps_register fun _ _ => .pure trivial

/-- Give a name a meaning, if it is a name. -/
def nameAs (name : Name) (meaning : Operand α) : Action α (Subproblem α) Unit :=
  match name with
  | .null => pure ()
  | name => register name meaning

theorem nameAs_eq_error {meaning : Operand α} :
    nameAs name meaning p = .error cause p' ↔ p' = p ∧ name ≠ .null ∧ p.Refuses name cause := by
  by_cases hname : name = .null
  · subst hname
    have run : nameAs .null meaning p = .ok () p := rfl
    rw [run]
    simp
  · have run : nameAs name meaning = register name meaning := by
      cases name <;> first | rfl | exact absurd rfl hname
    rw [run, register_eq_error]
    simp [hname]

theorem nameAs_eq_ok {meaning : Operand α} (h : nameAs name meaning p = .ok () p') :
    ∃ registry, p' = { p with registry := registry } := by
  unfold nameAs at h
  split at h
  · cases h
    exact ⟨p.registry, rfl⟩
  · exact ⟨_, (triple_register p meaning).ok rfl h⟩

/-- Once its bounds are read, all that is left of adding a variable is to give its name a
meaning. -/
theorem addVariable_read (l u : Extended α) :
    addVariable name (.ok l) (.ok u) p =
      (nameAs name (.decision ⟨p.owner, p.names.length, .ofName name⟩) >>= fun _ =>
        pure ⟨p.owner, p.names.length, .ofName name⟩ : Action α (Subproblem α) Variable)
          (p.unfinished name (.ok l) (.ok u)) := by
  cases name <;> rfl

/-- A variable is there also if adding it fails. -/
theorem addVariable_eq_error {lower upper : Except (Failure α) (Extended α)} :
    addVariable name lower upper p = .error cause p' ↔
      p' = p.unfinished name lower upper ∧
        (lower = .error cause ∨ (∃ l, lower = .ok l) ∧ upper = .error cause ∨
          (∃ l u, lower = .ok l ∧ upper = .ok u) ∧ name ≠ .null ∧ p.Refuses name cause) := by
  cases lower with
  | error e =>
    have run : addVariable name (.error e) upper p =
        .error e (p.unfinished name (.error e) upper) := by
      simp only [unfinished, Except.toOption, Option.toList, Option.bind, List.append_nil]
      rfl
    rw [run]
    simp [eq_comm (a := p'), and_comm]
  | ok l =>
    cases upper with
    | error e =>
      have run : addVariable name (.ok l) (.error e) p =
          .error e (p.unfinished name (.ok l) (.error e)) := by
        simp only [unfinished, Except.toOption, Option.toList, Option.bind, List.append_nil]
        rfl
      rw [run]
      simp [eq_comm (a := p'), and_comm]
    | ok u =>
      rw [addVariable_read, Action.bind_eq_error, nameAs_eq_error]
      constructor
      · rintro (⟨rfl, refused⟩ | ⟨_, _, -, h⟩)
        · exact ⟨rfl, .inr (.inr ⟨⟨l, u, rfl, rfl⟩, refused⟩)⟩
        · cases h
      · rintro ⟨rfl, h | ⟨-, h⟩ | ⟨-, refused⟩⟩
        · cases h
        · cases h
        · exact .inl ⟨rfl, refused⟩

end

variable {α : Type} [Scalar α] {p p' : Subproblem α} {name : Name} {cause : Failure α}
  {lhs rhs : Affine α} {relation : Relation}

omit [Scalar α] in
/-- The first variable of an expression that belongs to another subproblem. -/
def foreign? (p : Subproblem α) (e : Affine α) : Option Variable :=
  e.terms.keys.find? fun v => v.owner != p.owner

/-- The subproblem with the constraint `lhs relation rhs` at the end. -/
def relating (p : Subproblem α) (lhs : Affine α) (relation : Relation) (rhs : Affine α)
    (name : Name) :
    Subproblem α :=
  { p with constraints := p.constraints ++
      [⟨Dict.ofList ((lhs.sub rhs).terms.entries.map fun t => (t.1.index, t.2)), relation,
        -(lhs.sub rhs).constant, name, true⟩] }

omit [Scalar α] in
/-- The variables of an expression are looked up in order, until one belongs to another
subproblem. -/
theorem mapM_position (e : Affine α) :
    (e.terms.entries.mapM fun t => (p.position t.1).map fun i => (i, t.2)) =
      match p.foreign? e with
      | some v => .error (.ofVariable .foreignVariable v)
      | none => .ok (e.terms.entries.map fun t => (t.1.index, t.2)) := by
  have terms : ∀ es : List (Variable × α),
      (es.mapM fun t => (p.position t.1).map fun i => (i, t.2)) =
        match (es.map (·.1)).find? fun v => v.owner != p.owner with
        | some v => .error (.ofVariable .foreignVariable v)
        | none => .ok (es.map fun t => (t.1.index, t.2)) := by
    intro es
    induction es with
    | nil => rfl
    | cons t rest ih =>
      rw [List.mapM_cons, ih, List.map_cons]
      by_cases howner : t.1.owner = p.owner
      · rw [List.find?_cons_of_neg (by simpa using howner)]
        have place : p.position t.1 = .ok t.1.index := if_pos (by simpa using howner)
        rw [place]
        cases (rest.map (·.1)).find? fun v => v.owner != p.owner <;> rfl
      · rw [List.find?_cons_of_pos (by simpa using howner)]
        have place : p.position t.1 = .error (.ofVariable .foreignVariable t.1) :=
          if_neg (by simpa using howner)
        rw [place]
        rfl
  exact terms e.terms.entries

theorem addConstraint_eq :
    addConstraint lhs relation rhs name p =
      match p.foreign? (lhs.sub rhs) with
      | some v => .error (.ofVariable .foreignVariable v) p
      | none => (nameAs name (.constraint ⟨p.owner, p.constraints.length⟩) >>= fun _ =>
          pure ⟨p.owner, p.constraints.length⟩ : Action α (Subproblem α) ConstraintHandle)
            (p.relating lhs relation rhs name) := by
  have looked := mapM_position (p := p) (lhs.sub rhs)
  show EStateM.bind (Action.ofExcept _) _ p = _
  cases hforeign : p.foreign? (lhs.sub rhs) with
  | some v =>
    rw [hforeign] at looked
    rw [looked]
    rfl
  | none =>
    rw [hforeign] at looked
    rw [looked]
    cases name <;> rfl

theorem addConstraint_eq_ok {h : ConstraintHandle}
    (hrun : addConstraint lhs relation rhs name p = .ok h p') :
    p.foreign? (lhs.sub rhs) = none ∧
      ∃ registry, p' = { p.relating lhs relation rhs name with registry := registry } := by
  rw [addConstraint_eq] at hrun
  cases hforeign : p.foreign? (lhs.sub rhs) with
  | some v =>
    rw [hforeign] at hrun
    cases hrun
  | none =>
    rw [hforeign] at hrun
    obtain ⟨_, _, named, returned⟩ := Action.bind_eq_ok.1 hrun
    obtain ⟨registry, rfl⟩ := nameAs_eq_ok named
    cases returned
    exact ⟨rfl, registry, rfl⟩

/-- A constraint that mentions a variable of another subproblem changes nothing. One whose name is
refused is there all the same. -/
theorem addConstraint_eq_error :
    addConstraint lhs relation rhs name p = .error cause p' ↔
      (p' = p ∧ ∃ v, p.foreign? (lhs.sub rhs) = some v ∧ cause = .ofVariable .foreignVariable v) ∨
        (p' = p.relating lhs relation rhs name ∧ p.foreign? (lhs.sub rhs) = none ∧ name ≠ .null ∧
          p.Refuses name cause) := by
  rw [addConstraint_eq]
  cases p.foreign? (lhs.sub rhs) with
  | some v => simp [eq_comm (a := p'), eq_comm (a := cause), and_comm]
  | none =>
    simp only [Action.bind_eq_error, nameAs_eq_error]
    constructor
    · rintro (⟨rfl, refused⟩ | ⟨_, _, -, h⟩)
      · exact .inr ⟨rfl, trivial, refused⟩
      · cases h
    · rintro (⟨-, _, h, -⟩ | ⟨rfl, -, refused⟩)
      · cases h
      · exact .inl ⟨rfl, refused⟩

end Subproblem

/-! ### Declarations in a workspace -/

namespace Workspace

variable {α : Type} {w w' : Workspace α} {place : ℤ} {i : ℕ} {p : Subproblem α} {cause : Failure α}

/-- The place is a position, at which there is the subproblem. -/
def Holds (w : Workspace α) (place : ℤ) (i : ℕ) (p : Subproblem α) : Prop :=
  placeOf w.subproblems.length place = some i ∧ w.subproblems[i]? = some p

/-- The workspace with another subproblem at a position. -/
def put (w : Workspace α) (i : ℕ) (p : Subproblem α) : Workspace α :=
  { w with subproblems := w.subproblems.set i p }

theorem Holds.put_self (h : w.Holds place i p) : w.put i p = w := by
  obtain ⟨hlt, rfl⟩ := List.getElem?_eq_some_iff.1 h.2
  rw [put, List.set_getElem_self]

theorem onSubproblem_eq {β : Type} (h : w.Holds place i p) (act : Action α (Subproblem α) β) :
    onSubproblem place act w =
      match act p with
      | .ok b p' => .ok b (w.put i p')
      | .error e p' => .error e (w.put i p') := by
  simp only [onSubproblem, h.1, h.2]
  rfl

theorem onSubproblem_absent {β : Type} (h : ∀ i p, ¬w.Holds place i p)
    (act : Action α (Subproblem α) β) :
    onSubproblem place act w = .error .indexOutOfRange w := by
  cases hplace : placeOf w.subproblems.length place with
  | none => simp only [onSubproblem, hplace]
  | some i =>
    cases hp : w.subproblems[i]? with
    | none => simp only [onSubproblem, hplace, hp]
    | some p => exact absurd ⟨hplace, hp⟩ (h i p)

/-- An action on a subproblem fails where there is none, or as it fails there. -/
theorem onSubproblem_eq_error {β : Type} {act : Action α (Subproblem α) β}
    (h : onSubproblem place act w = .error cause w') :
    w' = w ∨ ∃ i p p', w.Holds place i p ∧ act p = .error cause p' ∧ w' = w.put i p' := by
  by_cases hold : ∃ i p, w.Holds place i p
  · obtain ⟨i, p, hold⟩ := hold
    rw [onSubproblem_eq hold] at h
    cases hact : act p with
    | ok b p' =>
      rw [hact] at h
      cases h
    | error e p' =>
      rw [hact] at h
      cases h
      exact .inr ⟨i, p, p', hold, hact, rfl⟩
  · rw [onSubproblem_absent fun i p hp => hold ⟨i, p, hp⟩] at h
    cases h
    exact .inl rfl

theorem onSubproblem_eq_ok {β : Type} {act : Action α (Subproblem α) β} {b : β}
    (h : onSubproblem place act w = .ok b w') :
    ∃ i p p', w.Holds place i p ∧ act p = .ok b p' ∧ w' = w.put i p' := by
  by_cases hold : ∃ i p, w.Holds place i p
  · obtain ⟨i, p, hold⟩ := hold
    rw [onSubproblem_eq hold] at h
    cases hact : act p with
    | ok b p' =>
      rw [hact] at h
      cases h
      exact ⟨i, p, p', hold, hact, rfl⟩
    | error e p' =>
      rw [hact] at h
      cases h
  · rw [onSubproblem_absent fun i p hp => hold ⟨i, p, hp⟩] at h
    cases h

variable [Scalar α]

/-- A constraint that cannot be added changes nothing, unless only its name is refused. -/
theorem addConstraint_eq_error {lhs rhs : Operand α} {relation : Datum α} {name : Name}
    (h : addConstraint place lhs relation rhs name w = .error cause w') :
    w' = w ∨ ∃ i p r left right, w.Holds place i p ∧ Relation.ofDatum relation = .ok r ∧
      lhs.toAffine w.describe = .ok left ∧ rhs.toAffine w.describe = .ok right ∧
      p.foreign? (left.sub right) = none ∧ name ≠ .null ∧ p.Refuses name cause ∧
      w' = w.put i (p.relating left r right name) := by
  obtain failed | ⟨r, _, read_relation, read⟩ := Action.bind_eq_error.1 h
  · exact .inl (Action.ofExcept_eq_error.1 failed).2
  obtain ⟨hr, rfl⟩ := Action.ofExcept_eq_ok.1 read_relation
  obtain failed | ⟨_, _, hget, related⟩ := Action.bind_eq_error.1 read
  · cases failed
  cases hget
  obtain failed | ⟨left, _, read_left, related⟩ := Action.bind_eq_error.1 related
  · exact .inl (Action.ofExcept_eq_error.1 failed).2
  obtain ⟨hleft, rfl⟩ := Action.ofExcept_eq_ok.1 read_left
  obtain failed | ⟨right, _, read_right, added⟩ := Action.bind_eq_error.1 related
  · exact .inl (Action.ofExcept_eq_error.1 failed).2
  obtain ⟨hright, rfl⟩ := Action.ofExcept_eq_ok.1 read_right
  obtain rfl | ⟨i, p, p', hold, hrun, rfl⟩ := onSubproblem_eq_error added
  · exact .inl rfl
  obtain ⟨rfl, -⟩ | ⟨rfl, hforeign, hname, refused⟩ := Subproblem.addConstraint_eq_error.1 hrun
  · exact .inl hold.put_self
  · exact .inr ⟨i, p, r, left, right, hold, hr, hleft, hright, hforeign, hname, refused, rfl⟩

end Workspace

end Multistage
