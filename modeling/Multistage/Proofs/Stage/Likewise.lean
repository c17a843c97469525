import Multistage.Proofs.Except
import Multistage.Proofs.Node.Declaration
import Multistage.Proofs.Parallel

/-!
# Realizations of the noise in stages that are declared alike

Whether a realization of the noise can be applied does not depend on the numbers of a stage. In two
stages with the same declaration it is applied in both, or it fails in both for the same cause, but
for the text that shows a constraint where an expression is needed.

## Main definitions

- `Failure.Alike`: the same cause, but for what is shown of it.
- `Stage.Like`, `Node.Like`: the same declaration and as many bounds.

## Main statements

- `Formula.alike_eval`: the value of a formula does not depend on how constraints are shown.
- `Stage.likewise_applyNoise`: a realization is applied in both stages or in neither.
-/

namespace Multistage

open Multistage.Action (InStep)

variable {α β : Type}

/-- The failures have the same cause, but for what stands where an affine expression is needed. -/
def Failure.Alike (e e' : Failure α) : Prop :=
  e = e' ∨ ∃ misfit misfit', e = .notAffine misfit ∧ e' = .notAffine misfit'

theorem Failure.Alike.refl (e : Failure α) : e.Alike e := .inl rfl

/-! ### Formulas -/

/-- Both computations have the same answer, or they fail alike. -/
def Except.Alike (x x' : Except (Failure α) β) : Prop :=
  match x, x' with
  | .ok b, .ok b' => b = b'
  | .error e, .error e' => e.Alike e'
  | _, _ => False

namespace Except

theorem Alike.refl (x : Except (Failure α) β) : Alike x x := by
  cases x with
  | ok b => rfl
  | error e => exact Failure.Alike.refl e

/-- Computations that are alike stay so when what follows is alike. -/
theorem Alike.bind {γ : Type} {x x' : Except (Failure α) β} {f f' : β → Except (Failure α) γ}
    (h : Alike x x') (hf : ∀ b, Alike (f b) (f' b)) : Alike (x >>= f) (x' >>= f') := by
  cases x with
  | ok b =>
    cases x' with
    | ok b' =>
      cases h
      exact hf b
    | error e' => exact h.elim
  | error e =>
    cases x' with
    | ok b' => exact h.elim
    | error e' => exact h

end Except

variable [Scalar α]

namespace Operand

variable (describe describe' : ConstraintHandle → Misfit α) (a b : Operand α)

/-- How misfits are described matters only for the text of a failure. -/
theorem alike_toAffine : Except.Alike (a.toAffine describe) (a.toAffine describe') := by
  cases a with
  | constraint h => exact .inr ⟨_, _, rfl, rfl⟩
  | _ => exact .refl _

theorem alike_add : Except.Alike (add describe a b) (add describe' a b) := by
  unfold add
  split
  · exact .bind (alike_toAffine describe describe' _) fun _ => .refl _
  · exact .bind (alike_toAffine describe describe' _) fun _ => .refl _
  · exact .refl _
  · exact .refl _

theorem alike_sub : Except.Alike (sub describe a b) (sub describe' a b) := by
  unfold sub
  split
  · exact .bind (alike_toAffine describe describe' _) fun _ => .refl _
  · exact .bind (alike_toAffine describe describe' _) fun _ => .refl _
  · exact .refl _
  · exact .refl _

end Operand

/-- The value of a formula does not depend on how constraints are shown. -/
theorem Formula.alike_eval {scope scope' : Scope α} (hlookup : scope'.lookup = scope.lookup)
    (hnoise : scope'.noise = scope.noise) (f : Formula α) :
    Except.Alike (f.eval scope) (f.eval scope') := by
  induction f with
  | datum d => exact .refl _
  | name n =>
    unfold eval
    rw [hlookup]
    exact .refl _
  | noise =>
    unfold eval
    rw [hnoise]
    exact .refl _
  | component i =>
    unfold eval
    rw [hnoise]
    exact .refl _
  | neg a iha => exact .bind iha fun _ => .refl _
  | add a b iha ihb => exact .bind iha fun x => .bind ihb fun y => Operand.alike_add _ _ x y
  | sub a b iha ihb => exact .bind iha fun x => .bind ihb fun y => Operand.alike_sub _ _ x y
  | mul a b iha ihb => exact .bind iha fun _ => .bind ihb fun _ => .refl _
  | div a b iha ihb => exact .bind iha fun _ => .bind ihb fun _ => .refl _

namespace Action

variable {σ : Type} {R : σ → σ → Prop}

omit [Scalar α] in
/-- Results that are alike leave the states as they are. -/
theorem likewise_ofExcept {x x' : Except (Failure α) β} (h : Except.Alike x x') {s s' : σ}
    (hs : R s s') :
    Parallel (fun t t' => t = s ∧ t' = s') (ofExcept x) (ofExcept x')
      (fun b b' t t' => b = b' ∧ R t t')
      fun e e' t t' => e.Alike e' ∧ R t t' := by
  cases x with
  | ok b =>
    cases x' with
    | ok b' =>
      rintro _ _ ⟨rfl, rfl⟩
      exact ⟨h, hs⟩
    | error e' => exact h.elim
  | error e =>
    cases x' with
    | ok b' => exact h.elim
    | error e' =>
      rintro _ _ ⟨rfl, rfl⟩
      exact ⟨h, hs⟩

end Action

/-! ### Subproblems -/

/-- The same declaration and as many bounds. -/
structure Subproblem.Like (p p' : Subproblem α) : Prop where
  declaration : p'.declaration = p.declaration
  lower_length : p'.lower.length = p.lower.length
  upper_length : p'.upper.length = p.upper.length

namespace Subproblem

/-- From subproblems that are alike the action gives the same answer and leaves them alike, or it
fails alike. -/
abbrev Likewise {τ : Type} (act : Action α (Subproblem α) τ) : Prop :=
  InStep (fun _ : Set Empty => Like) Failure.Alike ∅ act fun _ => ∅

/-- A variable has the same position in both. -/
theorem Like.position_eq {p p' : Subproblem α} (h : p.Like p') (v : Variable) :
    p'.position v = p.position v := by
  have owner : p'.owner = p.owner := congrArg (·.owner) h.declaration
  unfold position
  rw [owner]

/-- Changes at the position of a variable. -/
theorem likewise_atVariable {v : Variable} {change : Subproblem α → ℕ → Subproblem α}
    (h : ∀ p p' i, p.Like p' → (change p i).Like (change p' i)) : Likewise
    (atVariable v change) := by
  refine Action.Parallel.get_bind fun p p' hp => ?_
  rw [hp.position_eq]
  cases p.position v with
  | ok i =>
    rintro _ _ ⟨rfl, rfl⟩
    exact ⟨rfl, h _ _ i hp⟩
  | error e =>
    rintro _ _ ⟨rfl, rfl⟩
    exact ⟨.refl e, hp⟩

/-- Storing a bound. -/
theorem likewise_setBound (side : Subproblem α → List (Extended α))
    (store : Subproblem α → List (Extended α) → Subproblem α)
    (hside : ∀ p p', p.Like p' → (side p').length = (side p).length)
    (hstore : ∀ p p' l l', p.Like p' → l'.length = l.length → (store p l).Like (store p' l'))
    (v : Variable) (bound : Extended α) :
    Likewise (do
      let p ← get
      set (store p (← Action.ofExcept (p.setBound (side p) v bound)))) := by
  refine Action.Parallel.get_bind fun p p' hp => ?_
  cases hv : p.position v with
  | ok i =>
    have hv' : p'.position v = .ok i := (hp.position_eq v).trans hv
    by_cases hi : i < (side p).length
    · have hi' : i < (side p').length := hside p p' hp ▸ hi
      rw [show p.setBound (side p) v bound = .ok _ from Except.bind_eq_ok.2 ⟨i, hv, if_pos hi⟩,
        show p'.setBound (side p') v bound = .ok _ from Except.bind_eq_ok.2 ⟨i, hv', if_pos hi'⟩]
      rintro _ _ ⟨rfl, rfl⟩
      exact ⟨rfl, hstore _ _ _ _ hp (by rw [List.length_set, List.length_set, hside _ _ hp])⟩
    · have hi' : ¬i < (side p').length := hside p p' hp ▸ hi
      rw [show p.setBound (side p) v bound =
        .error _ from Except.bind_eq_error.2 (.inr ⟨i, hv, if_neg hi⟩),
        show p'.setBound (side p') v bound =
            .error _ from Except.bind_eq_error.2 (.inr ⟨i, hv', if_neg hi'⟩)]
      rintro _ _ ⟨rfl, rfl⟩
      exact ⟨.refl _, hp⟩
  | error e =>
    have hv' : p'.position v = .error e := (hp.position_eq v).trans hv
    rw [show p.setBound (side p) v bound = .error e from Except.bind_eq_error.2 (.inl hv),
      show p'.setBound (side p') v bound = .error e from Except.bind_eq_error.2 (.inl hv')]
    rintro _ _ ⟨rfl, rfl⟩
    exact ⟨.refl e, hp⟩

theorem likewise_fix (v : Variable) (x : α) : Likewise (fix v x) :=
  likewise_atVariable fun _ _ _ hp => ⟨hp.declaration, hp.lower_length, hp.upper_length⟩

theorem likewise_unfix (v : Variable) : Likewise (unfix v : Action α (Subproblem α) Unit) :=
  likewise_atVariable fun _ _ _ hp => ⟨hp.declaration, hp.lower_length, hp.upper_length⟩

theorem likewise_setLower (v : Variable) (bound : Extended α) : Likewise (setLower v bound) :=
  likewise_setBound (·.lower) (fun p l => { p with lower := l }) (fun _ _ hp => hp.lower_length)
    (fun _ _ _ _ hp hl => ⟨hp.declaration, hl, hp.upper_length⟩) v bound

theorem likewise_setUpper (v : Variable) (bound : Extended α) : Likewise (setUpper v bound) :=
  likewise_setBound (·.upper) (fun p l => { p with upper := l }) (fun _ _ hp => hp.upper_length)
    (fun _ _ _ _ hp hl => ⟨hp.declaration, hp.lower_length, hl⟩) v bound

end Subproblem

/-! ### Stages -/

/-- The same declaration and as many bounds; if it is asked for, both stages have installed their
objective or neither has. -/
structure Stage.Like (asked : Prop) (s s' : Stage α) : Prop where
  declaration : s'.declaration = s.declaration
  lower_length : s'.subproblem.lower.length = s.subproblem.lower.length
  upper_length : s'.subproblem.upper.length = s.subproblem.upper.length
  installed : asked → s'.objectiveInstalled = s.objectiveInstalled

namespace Stage

variable {asked : Prop} {s s' : Stage α}

variable (asked) in
/-- From stages that are alike the action gives the same answer and leaves them alike, or it fails
alike. -/
abbrev Likewise {τ : Type} (act : Action α (Stage α) τ) : Prop :=
  InStep (fun _ : Set Empty => Like asked) Failure.Alike ∅ act fun _ => ∅

theorem Like.subproblem (h : Like asked s s') : s.subproblem.Like s'.subproblem :=
  ⟨congrArg (·.subproblem) h.declaration, h.lower_length, h.upper_length⟩

theorem Like.withSubproblem (h : Like asked s s') {p p' : Subproblem α} (hp : p.Like p') :
    Like asked { s with subproblem := p } { s' with subproblem := p' } := by
  refine ⟨?_, hp.lower_length, hp.upper_length, h.installed⟩
  show ({ s'.declaration with subproblem := p'.declaration } : Stage α) =
    { s.declaration with subproblem := p.declaration }
  rw [h.declaration, hp.declaration]

/-- Names mean the same in both. -/
theorem Like.lookup_eq (h : Like asked s s') : s'.lookup = s.lookup := by
  show s'.declaration.lookup = s.declaration.lookup
  rw [h.declaration]

theorem hereditary_like : Action.Hereditary fun _ : Set Empty =>
    (Like asked : Stage α → Stage α → Prop) :=
  fun _ _ _ _ _ => id

theorem likewise_ofExcept {τ : Type} (x : Except (Failure α) τ) :
    Likewise asked (Action.ofExcept x : Action α (Stage α) τ) :=
  .ofExcept hereditary_like .refl

/-- What follows a name that is looked up. -/
theorem likewise_lookup_bind {τ : Type} {f : Operand α → Action α (Stage α) τ} (name : Name)
    (hf : ∀ o, Likewise asked (f o)) :
    Likewise asked (do
      let o ← Action.ofExcept ((← get).lookup name)
      f o) :=
  .get_bind (fun s s' hs => by rw [hs.lookup_eq]) fun _ => .bind (likewise_ofExcept _) hf

/-- Actions on the subproblems of stages. -/
theorem likewise_onSubproblem {τ : Type} {act : Action α (Subproblem α) τ}
    (h : Subproblem.Likewise act) :
    Likewise asked (onSubproblem act) :=
  .focus h (fun _ _ hs => hs.subproblem) fun _ _ _ _ _ hs hp => hs.withSubproblem hp

/-- Both evaluate a formula to the same value, or fail alike. -/
theorem likewise_evaluate (value : Formula α) (noise : Datum α) :
    Likewise asked (evaluate value noise) := by
  refine Action.Parallel.get_bind fun s s' hs => ?_
  have lookup : (s'.scope noise).lookup = (s.scope noise).lookup := hs.lookup_eq
  exact Action.likewise_ofExcept (value.alike_eval lookup rfl) hs

/-- Both assign the same value to a variable. -/
theorem likewise_assign {set : Variable → α → Action α (Subproblem α) Unit}
    (hset : ∀ v x, Subproblem.Likewise (set v x)) (target : Name) (value : Formula α)
    (noise : Datum α) :
    Likewise asked (assign target value noise set) :=
  likewise_lookup_bind target fun _ => .bind (likewise_evaluate value noise) fun _ =>
    .bind (likewise_ofExcept _) fun x => .bind (likewise_ofExcept _) fun v =>
      likewise_onSubproblem (hset v x)

theorem likewise_editConstraint (k : ℕ) (edit : Constraint α → Constraint α) :
    Likewise asked (onSubproblem (modify fun p => p.editConstraint k edit)) :=
  likewise_onSubproblem (.modify fun _ _ hp => ⟨hp.declaration, hp.lower_length, hp.upper_length⟩)

/-- Both apply the same edit. -/
theorem likewise_applyEdit (noise : Datum α) (edit : Edit α) :
    Likewise asked (applyEdit noise edit) := by
  cases edit with
  | fix target value => exact likewise_assign Subproblem.likewise_fix target value noise
  | setLower target value =>
    exact likewise_assign (fun v _ => Subproblem.likewise_setLower v _) target value noise
  | setUpper target value =>
    exact likewise_assign (fun v _ => Subproblem.likewise_setUpper v _) target value noise
  | unfix target =>
    exact likewise_lookup_bind target fun _ => .bind (likewise_ofExcept _) fun v =>
      likewise_onSubproblem (Subproblem.likewise_unfix v)
  | setRhs constraint value =>
    exact likewise_lookup_bind constraint fun _ => .bind (likewise_evaluate value noise) fun _ =>
      .bind (likewise_ofExcept _) fun _ => .bind (likewise_ofExcept _) fun _ =>
        likewise_editConstraint _ _
  | setCoefficient constraint target value =>
    refine likewise_lookup_bind constraint fun c => likewise_lookup_bind target fun v => ?_
    refine .bind (likewise_evaluate value noise) fun y => .bind (likewise_ofExcept _) fun x => ?_
    refine .bind (likewise_ofExcept _) fun h => .bind (likewise_ofExcept _) fun v => ?_
    refine .get_bind (fun s s' hs => ?_) fun s => .bind (likewise_ofExcept _) fun i =>
      likewise_editConstraint _ _
    rw [hs.subproblem.position_eq]
  | objective value =>
    exact .bind (likewise_evaluate value noise) fun o => .modify fun _ _ hs =>
      ⟨hs.declaration, hs.lower_length, hs.upper_length, fun _ => rfl⟩

variable (asked) in
/-- A realization of the noise is applied in both stages, or it fails in both. -/
theorem likewise_applyNoise (noise : Datum α) : Likewise asked (applyNoise noise) := by
  refine .get_bind (fun s s' hs => ?_) fun s => .forM fun edit _ => likewise_applyEdit noise edit
  rw [show s'.edits = s.edits from congrArg (·.edits) hs.declaration]

end Stage

/-! ### Nodes -/

/-- The same declaration and as many bounds; if it is asked for, both nodes have installed their
objective or neither has. -/
structure Node.Like (asked : Prop) (n n' : Node α) : Prop where
  declaration : n'.declaration = n.declaration
  stage : Stage.Like asked n.stage n'.stage

namespace Node

variable {asked : Prop} {n n' : Node α}

variable (asked) in
/-- From nodes that are alike the action gives the same answer and leaves them alike, or it fails
alike. -/
abbrev Likewise {τ : Type} (act : Action α (Node α) τ) : Prop :=
  InStep (fun _ : Set Empty => Like asked) Failure.Alike ∅ act fun _ => ∅

theorem Like.withStage (h : Like asked n n') {s s' : Stage α} (hs : Stage.Like asked s s') :
    Like asked { n with stage := s } { n' with stage := s' } := by
  refine ⟨?_, hs⟩
  show ({ n'.declaration with stage := s'.declaration } : Node α) =
      { n.declaration with stage := s.declaration }
  rw [h.declaration, hs.declaration]

/-- Actions on the stages of nodes. -/
theorem likewise_onStage {τ : Type} {act : Action α (Stage α) τ} (h : Stage.Likewise asked act) :
    Likewise asked (onStage act) :=
  .focus h (fun _ _ hn => hn.stage) fun _ _ _ _ _ hn hs => hn.withStage hs

variable (asked) in
/-- Incoming copies are fixed in both nodes, or this fails in both. -/
theorem likewise_setIncoming (state : State α) : Likewise asked (setIncoming state) := by
  have hereditary : Action.Hereditary fun _ : Set Empty => (Like asked : Node α → Node α → Prop) :=
    fun _ _ _ _ _ => id
  refine .get_bind (fun n n' hn => ?_) fun n => .forM fun s _ => ?_
  · rw [show n'.stage.states = n.stage.states from congrArg (·.stage.states) hn.declaration]
  · exact .bind (.ofOption hereditary .refl) fun value =>
      .bind (.ofExcept hereditary .refl) fun x =>
      likewise_onStage (Stage.likewise_onSubproblem (Subproblem.likewise_fix _ x))

end Node

end Multistage
