import Multistage.Proofs.Linear.Failing
import Multistage.Stage

/-!
# Declarations of a stage that fail

The declaration of a state makes two variables and gives three names a meaning. It tests the name of
the state first, but not the other names, and it reads bounds and the initial value where they are
needed. So only a name that is no key or that a state has leaves the stage as it was.

## Main statements

- `Stage.addState_eq_error`: when the declaration of a state fails, and what it leaves.
- `Stage.failed_declarations`: what all declarations leave that fail.
-/

namespace Multistage

namespace Stage

open Multistage.Action (Ensures)
open Subproblem (addVariable register)

variable {α : Type} {s s' : Stage α} {name : Name} {initial : Except (Failure α) α}
  {lower upper : Except (Failure α) (Extended α)} {cause : Failure α}

/-- The name is not that of a new state. -/
def Refuses (s : Stage α) (name : Name) (cause : Failure α) : Prop :=
  name.isKey = false ∧ cause = .wrongKind ∨
    name.isKey = true ∧ s.states.contains name = true ∧ cause = .stateTaken name

/-- The declaration of a state fails at the name of the state, at one of the names of its copies, at
a bound, at the name again, which may be that of something else, or at the initial value. -/
theorem addState_eq_error (h : addState name initial lower upper s = .error cause s') :
    (s' = s ∧ s.Refuses name cause) ∨
    (s' = { s with
      subproblem := s.subproblem.unfinished (incomingName name) (.ok .negInf) (.ok .posInf) } ∧
        s.subproblem.Refuses (incomingName name) cause) ∨
    ∃ v p, addVariable (incomingName name) (.ok .negInf) (.ok .posInf) s.subproblem = .ok v p ∧
      ((s' = { s with subproblem := p.unfinished (outgoingName name) lower upper } ∧
        ((lower = .error cause ∨ (∃ l, lower = .ok l) ∧ upper = .error cause) ∨
          (∃ l u, lower = .ok l ∧ upper = .ok u) ∧ p.Refuses (outgoingName name) cause)) ∨
      ∃ v' p', addVariable (outgoingName name) lower upper p = .ok v' p' ∧
        ((s' = { s with subproblem := p' } ∧ p'.Refuses name cause) ∨
        (s' = { s with
            subproblem := { p' with registry := p'.registry.insert name (.state ⟨v, v'⟩) }
            states := s.states.insert name ⟨v, v'⟩ } ∧ initial = .error cause))) := by
  unfold addState at h
  cases hkey : name.isKey with
  | false =>
    rw [hkey] at h
    cases h
    exact .inl ⟨rfl, .inl ⟨hkey, rfl⟩⟩
  | true =>
    simp only [hkey, Bool.not_true, Bool.false_eq_true, if_false] at h
    obtain failed | ⟨_, _, hget, tested⟩ := Action.bind_eq_error.1 h
    · cases failed
    cases hget
    by_cases hstate : s.states.contains name = true
    · rw [if_pos hstate] at tested
      cases tested
      exact .inl ⟨rfl, .inr ⟨hkey, hstate, rfl⟩⟩
    rw [if_neg hstate] at tested
    refine .inr ?_
    obtain failed | ⟨v, _, first, rest⟩ := Action.bind_eq_error.1 tested
    · obtain ⟨p, hp, rfl⟩ := Action.focus_eq_error.1 failed
      obtain ⟨rfl, read | ⟨-, read⟩ | ⟨-, -, refused⟩⟩ := Subproblem.addVariable_eq_error.1 hp
      · cases read
      · cases read
      · exact .inl ⟨rfl, refused⟩
    obtain ⟨p, hv, rfl⟩ := Action.focus_eq_ok.1 first
    refine .inr ⟨v, p, hv, ?_⟩
    obtain failed | ⟨v', _, second, rest⟩ := Action.bind_eq_error.1 rest
    · obtain ⟨p', hp', rfl⟩ := Action.focus_eq_error.1 failed
      obtain ⟨rfl, read | read | ⟨read, -, refused⟩⟩ := Subproblem.addVariable_eq_error.1 hp'
      · exact .inl ⟨rfl, .inl (.inl read)⟩
      · exact .inl ⟨rfl, .inl (.inr read)⟩
      · exact .inl ⟨rfl, .inr ⟨read, refused⟩⟩
    obtain ⟨p', hv', rfl⟩ := Action.focus_eq_ok.1 second
    refine .inr ⟨v', p', hv', ?_⟩
    obtain failed | ⟨_, _, third, rest⟩ := Action.bind_eq_error.1 rest
    · obtain ⟨q, hq, rfl⟩ := Action.focus_eq_error.1 failed
      obtain ⟨rfl, refused⟩ := Subproblem.register_eq_error.1 hq
      exact .inl ⟨rfl, refused⟩
    obtain ⟨q, hq, rfl⟩ := Action.focus_eq_ok.1 third
    obtain rfl := (Subproblem.triple_register _ _).ok rfl hq
    obtain failed | ⟨_, _, hmodify, rest⟩ := Action.bind_eq_error.1 rest
    · cases failed
    cases hmodify
    obtain failed | ⟨x, _, -, done⟩ := Action.bind_eq_error.1 rest
    · obtain ⟨unread, rfl⟩ := Action.ofExcept_eq_error.1 failed
      exact .inr ⟨rfl, unread⟩
    · cases done

/-- The declaration of a state keeps of the subproblem what variables and names keep. -/
theorem keeps_addState {J : Subproblem α → Prop}
    (hvariable : ∀ name lower upper, Ensures J (addVariable name lower upper) fun _ => True)
    (hregister : ∀ name meaning, Ensures J (register name meaning) fun _ => True) :
    Ensures (fun s : Stage α => J s.subproblem) (addState name initial lower upper)
      fun _ => True := by
  have within : ∀ {β : Type} {act : Action α (Subproblem α) β}, Ensures J act (fun _ => True) →
      Ensures (fun s : Stage α => J s.subproblem) (onSubproblem act) fun _ => True :=
    fun h => .focus h (fun _ => id) fun _ _ _ => id
  unfold addState
  refine .when (R := fun _ => True) (b := ()) (fun _ => .throw) (fun _ => trivial) fun _ _ => ?_
  refine .bind .get fun s _ => ?_
  refine .when (R := fun _ => True) (b := ()) (fun _ => .throw) (fun _ => trivial) fun _ _ => ?_
  refine .bind (within (hvariable _ _ _)) fun incoming _ => .bind (within (hvariable _ _ _))
    fun outgoing _ =>
    .bind (within (hregister _ _)) fun _ _ => .bind (.modify fun _ => id) fun _ _ => ?_
  exact .bind (.ofExcept (R := fun _ => True) fun _ _ => trivial) fun x _ => .modify fun _ => id

variable [Scalar α]

/-- What declarations leave that fail. A name that is refused changes nothing. A variable is there
all the same, with the bounds that could be read, and its name has no meaning. A constraint is there
all the same if only its name is refused; otherwise nothing changes. The declaration of a state
changes nothing if the name is that of a state, or no name; otherwise it leaves what it did before
it failed, at one of its two variables, at its own name or at the initial value. It never changes
constraints, initial values or what names stand for. -/
theorem failed_declarations :
    (∀ (p p' : Subproblem α) name meaning cause, register name meaning p = .error cause p' →
      p' = p ∧ p.Refuses name cause) ∧
    (∀ (p p' : Subproblem α) name lower upper cause,
      addVariable name lower upper p = .error cause p' →
      p' = p.unfinished name lower upper ∧
        (lower = .error cause ∨ (∃ l, lower = .ok l) ∧ upper = .error cause ∨
          (∃ l u, lower = .ok l ∧ upper = .ok u) ∧ name ≠ .null ∧ p.Refuses name cause)) ∧
    (∀ (w w' : Workspace α) place lhs relation rhs name cause,
      Workspace.addConstraint place lhs relation rhs name w = .error cause w' →
        w' = w ∨ ∃ i p r left right, w.Holds place i p ∧ Relation.ofDatum relation = .ok r ∧
          lhs.toAffine w.describe = .ok left ∧ rhs.toAffine w.describe = .ok right ∧
          p.foreign? (left.sub right) = none ∧ name ≠ .null ∧ p.Refuses name cause ∧
          w' = w.put i (p.relating left r right name)) ∧
    ∀ (s s' : Stage α) name initial lower upper cause, addState name initial lower upper s =
      .error cause s' →
      s'.initial = s.initial ∧ s.subproblem.Keeps s'.subproblem ∧
      ((s' = s ∧ s.Refuses name cause) ∨
        (s' = { s with
          subproblem := s.subproblem.unfinished (incomingName name) (.ok .negInf) (.ok .posInf) } ∧
            s.subproblem.Refuses (incomingName name) cause) ∨
        ∃ v p, addVariable (incomingName name) (.ok .negInf) (.ok .posInf) s.subproblem = .ok v p ∧
          ((s' = { s with subproblem := p.unfinished (outgoingName name) lower upper } ∧
            ((lower = .error cause ∨ (∃ l, lower = .ok l) ∧ upper = .error cause) ∨
              (∃ l u, lower = .ok l ∧ upper = .ok u) ∧ p.Refuses (outgoingName name) cause)) ∨
          ∃ v' p', addVariable (outgoingName name) lower upper p = .ok v' p' ∧
            ((s' = { s with subproblem := p' } ∧ p'.Refuses name cause) ∨
            (s' = { s with
                subproblem := { p' with registry := p'.registry.insert name (.state ⟨v, v'⟩) }
                states := s.states.insert name ⟨v, v'⟩ } ∧ initial = .error cause)))) := by
  refine ⟨fun p p' name meaning cause h => Subproblem.register_eq_error.1 h,
    fun p p' name lower upper cause h => Subproblem.addVariable_eq_error.1 h,
    fun w w' place lhs relation rhs name cause h => Workspace.addConstraint_eq_error h,
    fun s s' name initial lower upper cause h => ⟨?_, ?_, addState_eq_error h⟩⟩
  · obtain ⟨rfl, -⟩ | ⟨rfl, -⟩ | ⟨v, p, -, ⟨rfl, -⟩ | ⟨v', p', -, ⟨rfl, -⟩ | ⟨rfl, -⟩⟩⟩ :=
      addState_eq_error h
    all_goals rfl
  · have kept : Ensures (fun t : Stage α => s.subproblem.Keeps t.subproblem)
        (addState name initial lower upper) fun _ => True :=
      keeps_addState (fun _ _ _ => Subproblem.keeps_addVariable) fun _ _ =>
        Subproblem.keeps_register
    exact kept.error ⟨rfl, fun _ _ => id⟩ h

/-- A variable, a constraint and a copy of a state whose names are taken. -/
theorem failed_declarations_of_taken_names :
    ∃ (p p' : Subproblem ℚ) (w w' : Workspace ℚ) (s s' : Stage ℚ),
      p.names.length = 1 ∧
      register (.text "x") (.datum .null) p = .error (.nameTaken (.text "x")) p ∧
      addVariable (.text "x") (.ok .negInf) (.ok .posInf) p = .error (.nameTaken (.text "x")) p' ∧
      p' = p.unfinished (.text "x") (.ok .negInf) (.ok .posInf) ∧ p'.names.length = 2 ∧
      Workspace.addConstraint 0 (.decision ⟨0, 0, .name "x"⟩) (.text ">=") (.datum (.real 2))
        (.text "c") w = .error (.nameTaken (.text "c")) w' ∧
      (w.subproblems.map fun q => q.activeConstraints.length) = [1] ∧
      (w'.subproblems.map fun q => q.activeConstraints.length) = [2] ∧
      addState (.text "x") (.ok 0) (.ok .negInf) (.ok .posInf) s =
        .error (.nameTaken (.text "x_out")) s' ∧
      s.subproblem.names.length = 1 ∧ s'.subproblem.names.length = 3 ∧ s'.states.size = 0 ∧
      s'.initial = s.initial := by
  let p := (addVariable (.text "x") (.ok .negInf) (.ok .posInf)).final
    (Subproblem.empty (α := ℚ) .null 0)
  let x : Operand ℚ := .decision ⟨0, 0, .name "x"⟩
  let w := (Workspace.addConstraint 0 x (.text ">=") (.datum (.real 1)) (.text "c")).final
    ⟨[p], Dict.empty⟩
  let s := (onSubproblem (addVariable (.text "x_out") (.ok .negInf) (.ok .posInf))).final
    (empty (α := ℚ) (.int 1) 0)
  obtain ⟨-, decided, -, stated⟩ := failed_declarations (α := ℚ)
  have refused : register (.text "x") (.datum .null) p = .error (.nameTaken (.text "x")) p := rfl
  have added :
      addVariable (.text "x") (.ok .negInf) (.ok .posInf) p = .error (.nameTaken (.text "x"))
      ((addVariable (.text "x") (.ok .negInf) (.ok .posInf)).final p) := rfl
  have constrained : Workspace.addConstraint 0 x (.text ">=") (.datum (.real 2)) (.text "c") w =
      .error (.nameTaken (.text "c"))
        ((Workspace.addConstraint 0 x (.text ">=") (.datum (.real 2)) (.text "c")).final w) := rfl
  have declared : addState (.text "x") (.ok 0) (.ok .negInf) (.ok .posInf) s =
      .error (.nameTaken (.text "x_out"))
        ((addState (.text "x") (.ok 0) (.ok .negInf) (.ok .posInf)).final s) := rfl
  obtain ⟨left, -⟩ := decided _ _ _ _ _ _ added
  obtain ⟨initial, -⟩ := stated _ _ _ _ _ _ _ declared
  exact ⟨p, _, w, _, s, _, rfl, refused, added, left, rfl, constrained, rfl, rfl, declared, rfl,
    rfl, rfl, initial⟩

end Stage

end Multistage
