import Multistage.Node
import Multistage.Proofs.Linear.Assembly
import Mathlib.Data.Rat.Defs

/-!
# Installed cuts

Installing a cut adds one constraint at the end of those of the subproblem and changes nothing else;
an attempt that fails changes nothing at all.

## Main definitions

- `Node.cutConstraint`: the constraint that installs a cut.
- `Node.withSubproblem`, `Node.withPool`: a node with one part changed.

## Main statements

- `Node.install_eq`: what installing a cut does.
- `Node.cutConstraint_congr`: what the constraint of a cut depends on.
-/

namespace Multistage

namespace Node

variable {α τ : Type}

/-- The node with another subproblem. -/
def withSubproblem (n : Node α) (p : Subproblem α) : Node α :=
  { n with stage := { n.stage with subproblem := p } }

/-- The node with another pool of cuts. -/
def withPool (n : Node α) (pool : CutPool α α) : Node α :=
  { n with cuts := { n.cuts with pool := pool } }

/-- An action on the subproblem replaces it, whether it fails or not. -/
theorem onSubproblem_eq (act : Action α (Subproblem α) τ) (n : Node α) :
    onSubproblem act n =
      match act n.stage.subproblem with
      | .ok b p => .ok b (n.withSubproblem p)
      | .error e p => .error e (n.withSubproblem p) := by
  unfold onSubproblem onStage Stage.onSubproblem Action.focus
  cases act n.stage.subproblem <;> rfl

theorem onSubproblem_eq_ok {act : Action α (Subproblem α) τ} {n n' : Node α} {b : τ} :
    onSubproblem act n = .ok b n' ↔
      ∃ p, act n.stage.subproblem = .ok b p ∧ n' = n.withSubproblem p := by
  rw [onSubproblem_eq]
  cases act n.stage.subproblem <;> simp [eq_comm]

/-- An action on the recorded cuts replaces them, whether it fails or not. -/
theorem onPool_eq (act : Action α (CutPool α α) τ) (n : Node α) :
    onPool act n =
      match act n.cuts.pool with
      | .ok b pool => .ok b (n.withPool pool)
      | .error e pool => .error e (n.withPool pool) := by
  unfold onPool Action.focus
  cases act n.cuts.pool <;> rfl

/-- The constraint that installs a cut. -/
def cutConstraint (sense : Sense) (n : Node ℚ) (c : Cut ℚ) : Except (Failure ℚ) (Constraint ℚ) := do
  let e ← n.cutExpression c
  n.stage.subproblem.constraintOf e (Affine.ofScalar c.intercept) sense.cutRelation .null

/-- Installing a cut adds its constraint at the end, unless the cut cannot be expressed. -/
theorem install_eq (sense : Sense) (c : Cut ℚ) (n : Node ℚ) :
    install sense c n =
      match n.cutConstraint sense c with
      | .ok k => .ok { c with constraint? := some n.stage.subproblem.constraints.length }
          (n.withSubproblem (n.stage.subproblem.pushConstraint k))
      | .error e => .error e n := by
  unfold install cutConstraint
  cases h : n.cutExpression c with
  | error e =>
    show EStateM.bind (Action.ofExcept (n.cutExpression c)) _ n = _
    rw [h]
    rfl
  | ok e =>
    show EStateM.bind (Action.ofExcept (n.cutExpression c)) _ n = _
    rw [h]
    show EStateM.bind (onSubproblem _) _ n = _
    unfold EStateM.bind
    rw [onSubproblem_eq, Subproblem.addConstraint_null]
    show _ = match n.stage.subproblem.constraintOf e _ _ _ with
      | .ok k => _
      | .error e => _
    cases n.stage.subproblem.constraintOf e
      (Affine.ofScalar c.intercept) sense.cutRelation .null with
    | error e => rfl
    | ok k => rfl

/-- Installing adds the constraint of the cut at the end. -/
theorem triple_install (sense : Sense) (c : Cut ℚ) (n : Node ℚ) :
    Action.Triple (· = n) (install sense c)
      (fun c' n' => ∃ k, n.cutConstraint sense c = .ok k ∧
        c' = { c with constraint? := some n.stage.subproblem.constraints.length } ∧
        n' = n.withSubproblem (n.stage.subproblem.pushConstraint k))
      fun n' => n' = n ∧ ∃ e, n.cutConstraint sense c = .error e := by
  rintro _ rfl
  rw [install_eq]
  cases h : cutConstraint sense _ c with
  | ok k => exact ⟨k, rfl, rfl, rfl⟩
  | error e => exact ⟨rfl, e, rfl⟩

/-- What an action does to the recorded cuts, it does to those of the node. -/
theorem triple_onPool {act : Action α (CutPool α α) τ} {n : Node α}
    {Q : τ → CutPool α α → Prop} {E : CutPool α α → Prop}
    (h : Action.Triple (· = n.cuts.pool) act Q E) :
    Action.Triple (· = n) (onPool act) (fun b n' => ∃ pool, n' = n.withPool pool ∧ Q b pool)
      fun n' => ∃ pool, n' = n.withPool pool ∧ E pool :=
  .focus h

/-- What an action does to the subproblem, it does to that of the node. -/
theorem triple_onSubproblem {act : Action α (Subproblem α) τ} {n : Node α}
    {Q : τ → Subproblem α → Prop} {E : Subproblem α → Prop}
    (h : Action.Triple (· = n.stage.subproblem) act Q E) :
    Action.Triple (· = n) (onSubproblem act) (fun b n' => ∃ p, n' = n.withSubproblem p ∧ Q b p)
      fun n' => ∃ p, n' = n.withSubproblem p ∧ E p := by
  rintro _ rfl
  have := h _ rfl
  rw [onSubproblem_eq]
  cases hr : act _ with
  | ok b p =>
    rw [hr] at this
    exact ⟨p, rfl, this⟩
  | error e p =>
    rw [hr] at this
    exact ⟨p, rfl, this⟩

theorem triple_onPool_modify (f : CutPool α α → CutPool α α) (n : Node α) :
    Action.Triple (· = n) (onPool (modifyThe (CutPool α α) f))
      (fun _ n' => n' = n.withPool (f n.cuts.pool)) fun _ => False := by
  rintro _ rfl
  rw [onPool_eq]
  rfl

theorem triple_onSubproblem_modify (f : Subproblem α → Subproblem α) (n : Node α) :
    Action.Triple (· = n) (onSubproblem (modifyThe (Subproblem α) f))
      (fun _ n' => n' = n.withSubproblem (f n.stage.subproblem)) fun _ => False := by
  rintro _ rfl
  rw [onSubproblem_eq]
  rfl

/-- The constraint of a cut depends on the intercept and the coefficients of the cut, and on the
states, the value term and the owner of the node. -/
theorem cutConstraint_congr (sense : Sense) {n n' : Node ℚ} {c c' : Cut ℚ}
    (hstates : n'.stage.states = n.stage.states) (hterm : n'.cuts.term = n.cuts.term)
    (howner : n'.stage.subproblem.owner = n.stage.subproblem.owner)
    (hintercept : c'.intercept = c.intercept) (hslope : c'.coefficients = c.coefficients) :
    n'.cutConstraint sense c' = n.cutConstraint sense c := by
  unfold cutConstraint cutExpression Subproblem.constraintOf Subproblem.position
  rw [hstates, hterm, howner, hintercept, hslope]

end Node

end Multistage
