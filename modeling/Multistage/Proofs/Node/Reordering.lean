import Multistage.Proofs.Node.Alike
import Multistage.Proofs.Session.Echoing
import Multistage.Proofs.Settles

/-!
# Nodes with their edges and noise terms in another order

A solve reads neither the edges of a node nor its noise terms. Two nodes that differ in the order of
these, and that were used in different ways, therefore have the same solutions as long as the same
cuts are installed in them.

## Main definitions

- `Action.Overlooks`: an action neither reads nor writes what a function changes.
- `Node.Reorders`: the same node with its edges and its noise terms in another order.
- `Node.arranged`: a node with the edges and the noise terms of another one.

## Main statements

- `Node.overlooks_solve`: a solve overlooks edges and noise terms.
- `Node.Reorders.found_solve`: solves of nodes in use that were built in different orders.
-/

namespace Multistage

open Multistage.Action (InStep)

/-! ### What actions overlook -/

namespace Action

variable {α σ τ β γ : Type} {g : σ → σ} {act : Action α σ β}

/-- The action neither reads nor writes what the function changes. -/
abbrev Overlooks (g : σ → σ) (act : Action α σ β) : Prop :=
  InStep (fun _ : Set Empty => fun s s' => s' = g s) Eq ∅ act fun _ => ∅

theorem overlooks_ofExcept (x : Except (Failure α) β) : Overlooks g (ofExcept x) :=
  .ofExcept (fun _ _ _ _ _ => id) fun _ => rfl

theorem overlooks_ofOption (e : Failure α) (x : Option β) : Overlooks g (ofOption e x) :=
  .ofOption (fun _ _ _ _ _ => id) fun _ => rfl

theorem overlooks_modify {f : σ → σ} (h : ∀ s, f (g s) = g (f s)) :
    Overlooks g (modifyThe σ f : Action α σ PUnit) := by
  refine .modify fun s s' hs => ?_
  rw [hs]
  exact h s

/-- An action on a part that the function leaves alone. -/
theorem overlooks_focus {part : σ → τ} {replace : σ → τ → σ} (act : Action α τ β)
    (hpart : ∀ s, part (g s) = part s)
    (hreplace : ∀ s t, replace (g s) t = g (replace s t)) : Overlooks g
    (focus part replace act) := by
  have same : InStep (fun _ : Set Empty => fun t t' : τ => t' = t) Eq ∅ act fun _ => ∅ := by
    intro t t' ht
    rw [ht]
    cases act t with
    | ok b u => exact ⟨rfl, rfl⟩
    | error e u => exact ⟨rfl, rfl⟩
  refine .focus same ?_ ?_
  · rintro s _ rfl
    exact hpart s
  · intro _ s s' t t' hs ht
    rw [hs, ht]
    exact hreplace s t

theorem Overlooks.found_eq (h : Overlooks g act) (s : σ) : act.found (g s) = act.found s :=
  Parallel.found_eq h (fun _ _ _ _ => And.left) rfl

end Action

/-! ### Noise terms and edges -/

namespace Stage

variable {α : Type}

/-- The stage with other noise terms. -/
def withNoise (terms : List (NoiseTerm α)) (s : Stage α) : Stage α := { s with noise := terms }

variable (terms : List (NoiseTerm α)) (noise : Datum α)

theorem overlooks_onSubproblem {τ : Type} (act : Action α (Subproblem α) τ) :
    (onSubproblem act).Overlooks (withNoise terms) :=
  Action.overlooks_focus act (fun _ => rfl) fun _ _ => rfl

variable [Scalar α]

theorem overlooks_evaluate (value : Formula α) :
    (evaluate value noise).Overlooks (withNoise terms) :=
  .get_bind (by rintro s _ rfl; rfl) fun _ => Action.overlooks_ofExcept _

theorem overlooks_assign (target : Name) (value : Formula α)
    (set : Variable → α → Action α (Subproblem α) Unit) :
    (assign target value noise set).Overlooks (withNoise terms) := by
  refine .get_bind (by rintro s _ rfl; rfl) fun s => .bind (Action.overlooks_ofExcept _)
    fun operand => ?_
  refine .bind (overlooks_evaluate terms noise value) fun y => .bind (Action.overlooks_ofExcept _)
    fun x => ?_
  exact .bind (Action.overlooks_ofExcept _) fun v => overlooks_onSubproblem terms _

theorem overlooks_applyEdit (edit : Edit α) :
    (applyEdit noise edit).Overlooks (withNoise terms) := by
  cases edit with
  | fix target value => exact overlooks_assign terms noise target value _
  | setLower target value => exact overlooks_assign terms noise target value _
  | setUpper target value => exact overlooks_assign terms noise target value _
  | unfix target =>
    refine .get_bind (by rintro s _ rfl; rfl) fun s => .bind (Action.overlooks_ofExcept _)
      fun operand => ?_
    refine .bind (Action.overlooks_ofExcept _) fun v => ?_
    exact overlooks_onSubproblem terms _
  | setRhs constraint value =>
    refine .get_bind (by rintro s _ rfl; rfl) fun s => .bind (Action.overlooks_ofExcept _)
      fun operand => ?_
    refine .bind (overlooks_evaluate terms noise value) fun y => ?_
    refine .bind (Action.overlooks_ofExcept _) fun x => .bind (Action.overlooks_ofExcept _)
      fun h => ?_
    exact overlooks_onSubproblem terms _
  | setCoefficient constraint target value =>
    refine .get_bind (by rintro s _ rfl; rfl) fun s => .bind (Action.overlooks_ofExcept _)
      fun c => ?_
    refine .get_bind (by rintro s _ rfl; rfl) fun s => .bind (Action.overlooks_ofExcept _)
      fun v => ?_
    refine .bind (overlooks_evaluate terms noise value) fun y => .bind (Action.overlooks_ofExcept _)
      fun x => ?_
    refine .bind (Action.overlooks_ofExcept _) fun h => .bind (Action.overlooks_ofExcept _)
      fun v => ?_
    refine .get_bind (by rintro s _ rfl; rfl) fun s => .bind (Action.overlooks_ofExcept _)
      fun i => ?_
    exact overlooks_onSubproblem terms _
  | objective value =>
    refine .bind (overlooks_evaluate terms noise value) fun o => ?_
    exact Action.overlooks_modify fun _ => rfl

/-- A realization of the noise is applied whatever the noise terms are. -/
theorem overlooks_applyNoise : (applyNoise noise).Overlooks (withNoise terms) :=
  .get_bind (by rintro s _ rfl; rfl) fun _ => .forM fun edit _ =>
    overlooks_applyEdit terms noise edit

end Stage

namespace Node

section

variable {α : Type}

/-- The node with the edges and the noise terms of another one. -/
def arranged (start n : Node α) : Node α :=
  { n with children := start.children, stage := n.stage.withNoise start.stage.noise }

variable (start : Node α)

theorem overlooks_onStage {τ : Type} {act : Action α (Stage α) τ}
    (h : act.Overlooks (Stage.withNoise start.stage.noise)) :
    (onStage act).Overlooks start.arranged := by
  refine .focus h ?_ ?_
  · rintro n _ rfl
    rfl
  · rintro _ n _ s _ rfl rfl
    rfl

theorem overlooks_onSubproblem {τ : Type} (act : Action α (Subproblem α) τ) :
    (onSubproblem act).Overlooks start.arranged :=
  overlooks_onStage start (Stage.overlooks_onSubproblem _ act)

variable [Scalar α]

theorem overlooks_setIncoming (x : State α) : (setIncoming x).Overlooks start.arranged := by
  refine .get_bind (by rintro n _ rfl; rfl) fun n => .forM fun s _ => ?_
  refine .bind (Action.overlooks_ofOption _ _) fun value => .bind (Action.overlooks_ofExcept _)
    fun x => ?_
  exact overlooks_onSubproblem start _

theorem overlooks_installObjective (sense : Sense) :
    (installObjective sense).Overlooks start.arranged := by
  refine .bind (Action.overlooks_modify fun _ => rfl) fun _ => .get_bind (by rintro n _ rfl; rfl)
    fun n => ?_
  exact .bind (Action.overlooks_ofExcept _) fun objective => overlooks_onSubproblem start _

end

variable {sense : Sense} {start start' n n' : Node ℚ} {solver : Solver ℚ}

/-- Reading the answer overlooks edges and noise terms. -/
theorem overlooks_conclude (solver : Solver ℚ) (needsDuals : Bool) :
    (conclude solver needsDuals).Overlooks start.arranged := by
  refine .bind (overlooks_onSubproblem start _) fun _ => .get_bind (by rintro n _ rfl; rfl)
    fun n => ?_
  have refused : ∀ e : Failure ℚ,
      Action.Overlooks start.arranged (throw e : Action ℚ (Node ℚ) Unit) := fun _ =>
    .throw (fun _ _ _ _ _ => id) fun _ => rfl
  refine .ite (fun _ => .bind (refused _) fun _ => ?_) fun _ => ?_
  all_goals
    refine .bind (Action.overlooks_ofExcept _) fun _ => .bind (Action.overlooks_ofExcept _)
      fun _ => ?_
    exact .bind (Action.overlooks_ofExcept _) fun _ => .bind (Action.overlooks_ofOption _ _)
      fun _ => .pure fun _ => ∅

/-- A solve overlooks edges and noise terms. -/
theorem overlooks_solve (solver : Solver ℚ) (sense : Sense) (x : State ℚ) (noise : Datum ℚ)
    (needsDuals : Bool) :
    (solve solver sense x noise needsDuals).Overlooks start.arranged := by
  rw [solve_eq]
  refine .bind ?_ fun _ => overlooks_conclude solver needsDuals
  refine .bind (overlooks_setIncoming start x) fun _ => ?_
  refine .bind (overlooks_onStage start (Stage.overlooks_applyNoise _ noise)) fun _ => ?_
  refine .get_bind (by rintro n _ rfl; rfl) fun n => ?_
  exact .ite (fun _ => overlooks_installObjective start sense) fun _ => .pure fun _ => ∅

/-! ### Nodes in another order -/

/-- The same node with its edges and its noise terms in another order. -/
structure Reorders (n n' : Node ℚ) : Prop where
  children : n'.children.Perm n.children
  noise : n'.stage.noise.Perm n.stage.noise
  rest : n.arranged n' = n

/-- What may be assigned does not depend on the noise terms. -/
theorem assignable_arranged {f : Field} : (start.arranged n).stage.Assignable f ↔
    n.stage.Assignable f := by
  have fields :
      ∀ edit : Edit ℚ, edit.field (start.arranged n).stage = edit.field n.stage := fun edit => by
    cases edit <;> rfl
  unfold Stage.Assignable
  simp only [fields]
  rfl

theorem Used.arranged {rows : List (Constraint ℚ)} (k : Node ℚ) (h : Used sense start rows n) :
    Used sense (k.arranged start) rows (k.arranged n) :=
  { h with
    declaration := congrArg k.arranged h.declaration
    content := fun f hf ha => h.content f hf fun ha' => ha (assignable_arranged.2 ha')
    unset := fun ha => h.unset fun ha' => ha (assignable_arranged.2 ha') }

theorem Backed.arranged {base : ℕ} (k : Node ℚ) (h : Backed sense base n) :
    Backed sense base (k.arranged n) :=
  ⟨h.distinct, h.removed, h.active⟩

theorem Seated.arranged (k : Node ℚ) (h : Seated sense n) : Seated sense (k.arranged n) :=
  ⟨h.constrained, h.injective⟩

namespace Reorders

theorem symm (h : Reorders n n') : Reorders n' n where
  children := h.children.symm
  noise := h.noise.symm
  rest := by
    rw [← h.rest]
    rfl

/-- Neither edges nor noise terms are part of what a function reads. -/
theorem eq_of_arranged {τ : Type} {f : Node ℚ → τ} (h : Reorders n n')
    (hf : ∀ k m : Node ℚ, f (k.arranged m) = f m) :
    f n' = f n := by
  rw [← hf n n', h.rest]

theorem blank (h : Reorders start start') (hb : start.Blank) : start'.Blank := by
  have bounds :
      start.cuts.settings.bounds start'.children = start.cuts.settings.bounds start.children := by
    unfold CutSettings.bounds
    rw [h.children.isEmpty_eq]
  rw [← h.symm.rest]
  exact
    { hb with
      tidy := { hb.tidy with }
      lower_term := hb.lower_term.trans (by rw [← bounds]; rfl)
      upper_term := hb.upper_term.trans (by rw [← bounds]; rfl) }

/-- Nodes in use that were built in different orders, with the same cuts, are solved with the same
solutions, or neither of them is solved. -/
theorem found_solve (h : Reorders start start') (hsolver : solver.IgnoresOrder) (hb : start.Blank)
    (hn : Operating solver sense start n) (hn' : Operating solver sense start' n')
    (hcuts : n'.installed.Perm n.installed)
    (hobjectives : ¬start.Poses → n'.stage.objectiveInstalled = n.stage.objectiveInstalled)
    (x : State ℚ) (noise : Datum ℚ) (needsDuals : Bool) :
    (solve solver sense x noise needsDuals).found n' =
    (solve solver sense x noise needsDuals).found n := by
  have hb' := h.blank hb
  obtain ⟨used, backed⟩ := hn.used_backed hb
  obtain ⟨used', backed'⟩ := hn'.used_backed hb'
  -- with the edges and the noise terms of the first node the second one was built alike
  have alike : Used sense start [] (start.arranged n') := h.rest ▸ used'.arranged start
  have rowCount_eq : start'.rowCount = start.rowCount := h.eq_of_arranged fun _ _ => rfl
  have paired : Paired sense start n (start.arranged n') :=
    { left := used
      right := alike
      backed := backed
      rows := later_perm used alike backed (rowCount_eq ▸ backed'.arranged start) (hn.seated hb)
        ((hn'.seated hb').arranged start) hcuts
      installed := hobjectives }
  rw [← (overlooks_solve solver sense x noise needsDuals).found_eq n']
  exact (paired.parallel_solve hsolver hb x noise needsDuals).found_eq
    (fun _ _ _ _ => And.left) ⟨rfl, rfl⟩

end Reorders

end Node

end Multistage
