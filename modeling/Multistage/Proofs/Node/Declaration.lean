import Multistage.Node
import Multistage.Proofs.Action

/-!
# What is declared of a node

Solving, refining and pruning change the numbers of a node: bounds, fixed values, constraints, the
objective, the result of the last solve and the cuts. What was declared stays.

## Main definitions

- `Subproblem.declaration`, `Stage.declaration`, `Node.declaration`: the part that stays.

## Main statements

- `Node.declaration_solve`, `Node.declaration_refine`, `Node.declaration_prune`: it stays.
-/

namespace Multistage

variable {α β δ : Type} [Scalar α] [Quantity β α] [Quantity δ α]

/-- The names and what they stand for. -/
def Subproblem.declaration (p : Subproblem α) : Subproblem α :=
  { Subproblem.empty p.label p.owner with names := p.names, registry := p.registry }

/-- The stage without its numbers. -/
def Stage.declaration (s : Stage α) : Stage α :=
  { s with
    subproblem := s.subproblem.declaration
    objective := .datum .null
    objectiveInstalled := false }

/-- The node without its numbers and its cuts. -/
def Node.declaration (n : Node α) : Node α :=
  { n with
    stage := n.stage.declaration
    cuts := { n.cuts with pool := CutPool.empty } }

/-! ### Subproblems -/

namespace Subproblem

variable {d : Subproblem α}

/-- An action that only changes numbers keeps the declaration. -/
theorem declaration_atVariable {v : Variable} {change : Subproblem α → ℕ → Subproblem α}
    (h : ∀ p i, (change p i).declaration = p.declaration) :
    Action.Ensures (fun p => p.declaration = d) (atVariable v change) fun _ => True := by
  refine .bind .get fun p hp => .bind (.ofExcept fun i _ => trivial) fun i _ => ?_
  exact Action.Triple.set fun _ _ => ⟨(h p i).trans hp, trivial⟩

/-- Fixing a variable keeps the declaration. -/
theorem declaration_fix (v : Variable) (x : α) :
    Action.Ensures (fun p => p.declaration = d) (fix v x) fun _ => True :=
  declaration_atVariable fun _ _ => rfl

theorem declaration_unfix (v : Variable) :
    Action.Ensures (fun p => p.declaration = d) (unfix v) fun _ => True :=
  declaration_atVariable fun _ _ => rfl

theorem declaration_setLower (v : Variable) (bound : Extended α) :
    Action.Ensures (fun p => p.declaration = d) (setLower v bound) fun _ => True := by
  refine .bind .get fun p hp => .bind (.ofExcept fun i _ => trivial) fun i _ => ?_
  exact Action.Triple.set fun _ _ => ⟨hp, trivial⟩

theorem declaration_setUpper (v : Variable) (bound : Extended α) :
    Action.Ensures (fun p => p.declaration = d) (setUpper v bound) fun _ => True := by
  refine .bind .get fun p hp => .bind (.ofExcept fun i _ => trivial) fun i _ => ?_
  exact Action.Triple.set fun _ _ => ⟨hp, trivial⟩

/-- A constraint without a name is no part of the declaration. -/
theorem declaration_addConstraint (lhs rhs : Affine α) (relation : Relation) :
    Action.Ensures (fun p => p.declaration = d) (addConstraint lhs relation rhs .null)
      fun _ => True := by
  refine .bind .get fun p hp => .bind (.ofExcept fun i _ => trivial) fun i _ => ?_
  exact .bind (R := fun _ => True) (Action.Triple.set fun _ _ => ⟨hp, trivial⟩) fun _ _ =>
    .pure trivial

theorem declaration_setObjective (sense : Sense) (e : Affine α) :
    Action.Ensures (fun p => p.declaration = d) (setObjective sense e) fun _ => True :=
  .modify fun _ => id

/-- The result of a solve is no part of the declaration. -/
theorem declaration_withOutcome (p : Subproblem α) (outcome : Outcome α) :
    (p.withOutcome outcome).declaration = p.declaration := by
  cases outcome <;> rfl

/-- Solving a subproblem keeps the declaration, whether or not it can be solved. -/
theorem declaration_optimize (solver : Solver α) :
    Action.Ensures (fun p => p.declaration = d) (optimize solver) fun _ => True := by
  refine .bind .get fun p hp => .bind (.ofExcept fun i _ => trivial) fun program _ => ?_
  exact Action.Triple.set fun _ _ => ⟨(declaration_withOutcome p _).trans hp, trivial⟩

end Subproblem

/-! ### Stages -/

namespace Stage

variable {d : Stage α}

/-- Acting on the subproblem keeps the declaration of the stage if it keeps that of the
subproblem. -/
theorem declaration_onSubproblem {τ : Type} {act : Action α (Subproblem α) τ} {R : τ → Prop}
    (h : ∀ e, Action.Ensures (fun p => p.declaration = e) act R) :
    Action.Ensures (fun s => s.declaration = d) (onSubproblem act) R := by
  refine .focus (h d.subproblem) (fun s hs => congrArg (·.subproblem) hs) fun s p hs hp => ?_
  rw [← hs]
  show ({ s with subproblem := p.declaration, objective := _, objectiveInstalled := _ } : Stage α) =
      _
  rw [hp, ← hs]
  rfl

/-- An assignment keeps the declaration if what it does to its variable does. -/
theorem declaration_assign (target : Name) (value : Formula α) (noise : Datum α)
    {set : Variable → α → Action α (Subproblem α) Unit}
    (h : ∀ v x e, Action.Ensures (fun p => p.declaration = e) (set v x) fun _ => True) :
    Action.Ensures (fun s => s.declaration = d) (assign target value noise set)
      fun _ => True := by
  refine .bind .get fun s _ => .bind (.ofExcept fun _ _ => trivial) fun operand _ => ?_
  refine .bind (.bind .get fun s _ => .ofExcept fun _ _ => trivial) fun o _ => ?_
  refine .bind (.ofExcept fun _ _ => trivial) fun x _ => ?_
  exact .bind (.ofExcept fun _ _ => trivial) fun v _ => declaration_onSubproblem (h v x)

theorem declaration_setObjective (o : Operand α) :
    Action.Ensures (fun s => s.declaration = d) (setObjective o) fun _ => True :=
  .modify fun _ => id

/-- Every edit of the noise keeps the declaration of the stage. -/
theorem declaration_applyEdit (noise : Datum α) (edit : Edit α) :
    Action.Ensures (fun s => s.declaration = d) (applyEdit noise edit) fun _ => True := by
  cases edit with
  | fix target value =>
    exact declaration_assign target value noise fun v x _ => Subproblem.declaration_fix v x
  | setLower target value =>
    exact declaration_assign target value noise fun v _ _ => Subproblem.declaration_setLower v _
  | setUpper target value =>
    exact declaration_assign target value noise fun v _ _ => Subproblem.declaration_setUpper v _
  | unfix target =>
    refine .bind .get fun s _ => .bind (.ofExcept fun _ _ => trivial) fun operand _ => ?_
    exact .bind (.ofExcept fun _ _ => trivial) fun v _ =>
      declaration_onSubproblem fun _ => Subproblem.declaration_unfix v
  | setRhs constraint value =>
    refine .bind .get fun s _ => .bind (.ofExcept fun _ _ => trivial) fun operand _ => ?_
    refine .bind (.bind .get fun s _ => .ofExcept fun _ _ => trivial) fun o _ => ?_
    refine .bind (.ofExcept fun _ _ => trivial) fun x _ => ?_
    exact .bind (.ofExcept fun _ _ => trivial) fun h _ =>
      declaration_onSubproblem fun _ => .modify fun _ => id
  | setCoefficient constraint target value =>
    refine .bind .get fun s _ => .bind (.ofExcept fun _ _ => trivial) fun c _ => ?_
    refine .bind .get fun s _ => .bind (.ofExcept fun _ _ => trivial) fun v _ => ?_
    refine .bind (.bind .get fun s _ => .ofExcept fun _ _ => trivial) fun o _ => ?_
    refine .bind (.ofExcept fun _ _ => trivial) fun x _ => ?_
    refine .bind (.ofExcept fun _ _ => trivial) fun h _ => ?_
    refine .bind (.ofExcept fun _ _ => trivial) fun u _ => ?_
    refine .bind .get fun s _ => .bind (.ofExcept fun _ _ => trivial) fun i _ => ?_
    exact declaration_onSubproblem fun _ => .modify fun _ => id
  | objective value =>
    exact .bind (.bind .get fun s _ => .ofExcept fun _ _ => trivial) fun o _ =>
      declaration_setObjective o

/-- Applying noise keeps the declaration of the stage. -/
theorem declaration_applyNoise (noise : Datum α) :
    Action.Ensures (fun s => s.declaration = d) (applyNoise noise) fun _ => True :=
  .bind .get fun _ _ => .forM fun edit _ => declaration_applyEdit noise edit

end Stage

/-! ### Nodes -/

namespace Node

variable {d : Node α}

/-- Acting on the stage keeps the declaration of the node if it keeps that of the stage. -/
theorem declaration_onStage {τ : Type} {act : Action α (Stage α) τ} {R : τ → Prop}
    (h : ∀ e, Action.Ensures (fun s => s.declaration = e) act R) :
    Action.Ensures (fun n => n.declaration = d) (onStage act) R := by
  refine .focus (h d.stage) (fun n hn => congrArg (·.stage) hn) fun n s hn hs => ?_
  rw [← hn]
  show ({ n with stage := s.declaration, cuts := _ } : Node α) = _
  rw [hs, ← hn]
  rfl

theorem declaration_onSubproblem {τ : Type} {act : Action α (Subproblem α) τ} {R : τ → Prop}
    (h : ∀ e, Action.Ensures (fun p => p.declaration = e) act R) :
    Action.Ensures (fun n => n.declaration = d) (onSubproblem act) R :=
  declaration_onStage fun _ => Stage.declaration_onSubproblem h

/-- The cuts are no part of the declaration. -/
theorem declaration_onPool {τ : Type} (act : Action α (CutPool α α) τ) :
    Action.Ensures (fun n => n.declaration = d) (onPool act) fun _ => True :=
  .elsewhere act fun _ _ => id

/-- Putting a node into a state keeps its declaration. -/
theorem declaration_setIncoming (state : State β) :
    Action.Ensures (fun n => n.declaration = d) (setIncoming state) fun _ => True := by
  refine .bind .get fun n _ => .forM fun e _ => ?_
  refine .bind (.ofOption fun _ _ => trivial) fun value _ => ?_
  exact .bind (.ofExcept fun _ _ => trivial) fun x _ =>
    declaration_onSubproblem fun _ => Subproblem.declaration_fix _ x

/-- Installing the objective keeps the declaration, also if there is none to install. -/
theorem declaration_installObjective (sense : Sense) :
    Action.Ensures (fun n => n.declaration = d) (installObjective sense) fun _ => True := by
  refine .bind (.modify fun _ => id) fun _ _ => .bind .get fun n _ => ?_
  exact .bind (.ofExcept fun _ _ => trivial) fun e _ =>
    declaration_onSubproblem fun _ => Subproblem.declaration_setObjective sense _

/-- Solving a node keeps its declaration, however it ends. -/
theorem declaration_solve (solver : Solver α) (sense : Sense) (state : State β) (noise : Datum α)
    (needsDuals : Bool) :
    Action.Ensures (fun n => n.declaration = d) (solve solver sense state noise needsDuals)
      fun _ => True := by
  refine .bind (declaration_setIncoming state) fun _ _ => ?_
  refine .bind (declaration_onStage fun _ => Stage.declaration_applyNoise noise) fun _ _ => ?_
  refine .bind .get fun n _ => .when (b := ()) (fun _ => declaration_installObjective sense)
    (fun _ => trivial) fun _ _ => ?_
  refine .bind (declaration_onSubproblem fun _ => Subproblem.declaration_optimize solver)
    fun _ _ => ?_
  refine .bind .get fun n _ =>
    .when (b := ()) (R := fun _ => True) (fun _ => .throw) (fun _ => trivial)
    fun _ _ => ?_
  refine .bind (.ofExcept fun _ _ => trivial) fun _ _ => .bind (.ofExcept fun _ _ => trivial)
    fun _ _ => ?_
  exact .bind (.ofExcept fun _ _ => trivial) fun _ _ => .bind (.ofOption fun _ _ => trivial)
    fun _ _ => .pure trivial

/-- Solving works on the stage only, and keeps the cuts. -/
theorem cuts_solve (solver : Solver α) (sense : Sense) (state : State β) (noise : Datum α)
    (needsDuals : Bool) {k : CutModel α} :
    Action.Ensures (fun n => n.cuts = k) (solve solver sense state noise needsDuals)
      fun _ => True := by
  have onStage : ∀ {τ : Type} (act : Action α (Stage α) τ),
      Action.Ensures (fun n : Node α => n.cuts = k) (onStage act) fun _ => True :=
    fun act => .elsewhere act fun _ _ => id
  have setIncoming : Action.Ensures (fun n : Node α => n.cuts = k) (setIncoming state)
      fun _ => True := by
    refine .bind .get fun n _ => .forM fun e _ => ?_
    refine .bind (.ofOption fun _ _ => trivial) fun value _ => ?_
    exact .bind (.ofExcept fun _ _ => trivial) fun x _ => onStage _
  have installObjective : Action.Ensures (fun n : Node α => n.cuts = k) (installObjective sense)
      fun _ => True := by
    refine .bind (.modify fun _ => id) fun _ _ => .bind .get fun n _ => ?_
    exact .bind (.ofExcept fun _ _ => trivial) fun e _ => onStage _
  refine .bind setIncoming fun _ _ => .bind (onStage _) fun _ _ => ?_
  refine .bind .get fun n _ => .when (b := ()) (fun _ => installObjective) (fun _ => trivial)
    fun _ _ => .bind (onStage _) fun _ _ => ?_
  refine .bind .get fun n _ => .when (b := ()) (R := fun _ => True) (fun _ => .throw)
    (fun _ => trivial) fun _ _ => ?_
  refine .bind (.ofExcept fun _ _ => trivial) fun _ _ => .bind (.ofExcept fun _ _ => trivial)
    fun _ _ => ?_
  exact .bind (.ofExcept fun _ _ => trivial) fun _ _ => .bind (.ofOption fun _ _ => trivial)
    fun _ _ => .pure trivial

/-- Installing a cut keeps the declaration. -/
theorem declaration_install (sense : Sense) (c : Cut α) :
    Action.Ensures (fun n => n.declaration = d) (install sense c) fun _ => True := by
  refine .bind .get fun n _ => .bind (.ofExcept fun _ _ => trivial) fun e _ => ?_
  exact .bind (declaration_onSubproblem fun _ => Subproblem.declaration_addConstraint e _ _)
    fun _ _ => .pure trivial

theorem declaration_reinstall (sense : Sense) (place : ℕ) :
    Action.Ensures (fun n => n.declaration = d) (reinstall sense place) fun _ => True := by
  refine .bind .get fun n _ => ?_
  split
  · refine .ite (fun _ => ?_) fun _ => .pure trivial
    exact .bind (declaration_install sense _) fun _ _ => declaration_onPool _
  · exact .pure trivial

/-- Recording a cut keeps the declaration, whether or not the cut is installed. -/
theorem declaration_addCut (sense : Sense) (state : State α) (given : State β) (c : Cut α)
    (height : α) :
    Action.Ensures (fun n => n.declaration = d) (addCut sense state given c height)
      fun _ => True := by
  refine .bind .get fun n _ => .when (fun _ => declaration_install sense c) (fun _ => trivial)
    fun c _ => ?_
  refine .bind (declaration_onPool _) fun _ _ => .bind .get fun n _ => ?_
  exact .forM fun place _ => declaration_reinstall sense place

/-- Refining a node keeps its declaration, however it ends. -/
theorem declaration_refine (sense : Sense) (measure : Measure α) (state : State β)
    (duals : List (State δ)) (probabilities objectives : List α) :
    Action.Ensures (fun n => n.declaration = d)
      (refine sense measure state duals probabilities objectives) fun _ => True := by
  refine .bind (.ofExcept fun _ _ => trivial) fun q _ => .bind (.ofExcept fun _ _ => trivial)
    fun rows _ => ?_
  refine .bind (.ofExcept fun _ _ => trivial) fun point _ => .bind (.ofExcept fun _ _ => trivial)
    fun found _ => ?_
  exact declaration_addCut sense point state found.1 found.2

theorem declaration_pruneCut (place : ℕ) :
    Action.Ensures (fun n => n.declaration = d) (pruneCut place : Action α (Node α) Bool)
      fun _ => True := by
  refine .bind .get fun n _ => ?_
  split
  · split
    · refine .ite (fun _ => ?_) fun _ => .pure trivial
      refine .bind (declaration_onSubproblem fun _ => .modify fun _ => id) fun _ _ => ?_
      exact .bind (declaration_onPool _) fun _ _ => .pure trivial
    · exact .pure trivial
  · exact .pure trivial

/-- Pruning a node keeps its declaration. -/
theorem declaration_prune :
    Action.Ensures (fun n => n.declaration = d) (prune : Action α (Node α) ℕ) fun _ => True := by
  refine .bind .get fun n _ => .bind (R := fun _ => True) ?_ fun _ _ => .pure trivial
  exact (Action.Ensures.mapM (S := fun _ _ => True) fun place _ =>
    declaration_pruneCut place).weaken
    fun _ _ => trivial

end Node

end Multistage
