import Multistage.Proofs.Cut.Recording
import Multistage.Proofs.Node.AverageCut
import Multistage.Proofs.Node.Install

/-!
# Adding and taking out cuts, step by step

To add a cut is to record it, with a constraint or without one, and then to give constraints to cuts
that were taken out. What these steps keep is kept by every refinement, also by one that fails. To
prune is to take out one installed cut after the other.

## Main definitions

- `Node.Records`: a pool with one more cut.
- `Node.withRow`, `Node.reinstalledAt`: the node with one more constraint, and with a cut that has
  it.
- `Node.takenOutAt`: the node without an installed cut.

## Main statements

- `Node.triple_addCut`, `Node.ensures_addCut`, `Node.ensures_prune`: what the steps keep.
-/

namespace Multistage

namespace Node

/-- The pool is that of the node with one more cut, but for the counts. -/
def Records (n : Node ℚ) (c : Cut ℚ) (pool : CutPool ℚ ℚ) : Prop :=
  pool.cuts.map Cut.uncounted = n.cuts.pool.cuts.map Cut.uncounted ++ [c.uncounted]

/-- The node with one more constraint. -/
def withRow (n : Node ℚ) (k : Constraint ℚ) : Node ℚ :=
  n.withSubproblem (n.stage.subproblem.pushConstraint k)

/-- The cut with the next constraint of a node. -/
def next (n : Node ℚ) (c : Cut ℚ) : Cut ℚ :=
  { c with constraint? := some n.stage.subproblem.constraints.length }

/-- The node with one more constraint, which is that of the cut at a position. -/
def reinstalledAt (n : Node ℚ) (place : ℕ) (d : Cut ℚ) (k : Constraint ℚ) : Node ℚ :=
  (n.withRow k).withPool { n.cuts.pool with
    cuts := n.cuts.pool.cuts.set place { n.next d with removed := false } }

/-- The node after the cut at a position was taken out, whose constraint is switched off. -/
def takenOutAt (n : Node ℚ) (place i : ℕ) (c : Cut ℚ) : Node ℚ :=
  (n.withSubproblem
    (n.stage.subproblem.editConstraint i fun k => { k with active := false })).withPool
    { n.cuts.pool with
      cuts := n.cuts.pool.cuts.set place { c with constraint? := none, removed := true } }

variable {sense : Sense} {n : Node ℚ} {x given : State ℚ} {c : Cut ℚ} {height : ℚ}
  {I E : Node ℚ → Prop}

/-- A cut is given a constraint only if it was taken out and has become the best somewhere. -/
theorem triple_reinstall
    (reinstalled : ∀ m place d k, I m → m.cuts.pool.cuts[place]? = some d → d.removed = true →
      m.cutConstraint sense d = .ok k → I (m.reinstalledAt place d k)) (place : ℕ) :
    Action.Ensures I (reinstall sense place) fun _ => True := by
  refine Action.Triple.get_bind ?_
  intro m hm
  split
  next d hd =>
    refine .ite (fun hif => ?_) fun _ => .pure ?_
    · refine .bind ((triple_install sense d m).consequence (fun _ => id) (fun _ _ => id) ?_)
        fun d' => .of_forall ?_
      · rintro _ ⟨rfl, -⟩
        exact hm
      rintro _ ⟨k, hk, rfl, rfl⟩
      refine (triple_onPool_modify _ _).consequence (fun _ => id) ?_ fun _ => False.elim
      rintro _ _ rfl
      exact ⟨reinstalled m place d k hm hd (Bool.and_eq_true_iff.1 hif).1 hk, trivial⟩
    · rintro _ rfl
      exact ⟨hm, trivial⟩
  next =>
    refine .pure ?_
    rintro _ rfl
    exact ⟨hm, trivial⟩

/-- Adding a cut to a known node. -/
theorem triple_addCut (hE : ∀ m, I m → E m)
    (refused : (∃ e, n.cutConstraint sense c = .error e) → E n)
    (installed : ∀ k pool, n.isImprovement height = true → n.cutConstraint sense c = .ok k →
      n.Records (n.next c) pool → I ((n.withRow k).withPool pool))
    (skipped : ∀ pool, n.isImprovement height = false → n.Records c pool → I (n.withPool pool))
    (reinstalled : ∀ m place d k, I m → m.cuts.pool.cuts[place]? = some d → d.removed = true →
      m.cutConstraint sense d = .ok k → I (m.reinstalledAt place d k)) :
    Action.Triple (· = n) (addCut sense x given c height) (fun _ => I) E := by
  -- however recording ends, the cut is in the pool
  have recorded : ∀ (m : Node ℚ) (c' : Cut ℚ), (∀ pool, m.Records c' pool → I (m.withPool pool)) →
      Action.Triple (· = m)
        (do
          onPool (CutPool.add sense c' x given)
          (List.range (← get).cuts.pool.cuts.length).forM (reinstall sense))
        (fun _ => I) E := by
    intro m c' hpool
    refine .bind (Q := fun _ => I)
      ((triple_onPool (CutPool.triple_add c' x given m.cuts.pool)).consequence
      (fun _ => id) ?_ ?_) fun _ => ?_
    · rintro _ _ ⟨pool, rfl, h⟩
      exact hpool pool h
    · rintro _ ⟨pool, rfl, h⟩
      exact hE _ (hpool pool h)
    · have examined : Action.Ensures I
          (do (List.range (← get).cuts.pool.cuts.length).forM (reinstall sense)) fun _ => True :=
        .bind .get fun m _ => .forM fun place _ => triple_reinstall reinstalled place
      exact examined.consequence (fun _ => id) (fun _ _ h => h.1) hE
  refine .get_bind ?_
  rintro n rfl
  refine .ite (fun himprove => ?_) fun himprove => recorded n c fun pool => skipped pool ?_
  · refine .bind ((triple_install sense c n).consequence (fun _ => id) (fun _ _ => id) ?_)
      fun c' => .of_forall ?_
    · rintro _ ⟨rfl, hrefused⟩
      exact refused hrefused
    rintro _ ⟨k, hk, rfl, rfl⟩
    exact recorded (n.withRow k) (n.next c) fun pool => installed k pool himprove hk
  · simpa using himprove

/-- What the steps keep is kept. -/
theorem ensures_addCut
    (installed : ∀ n k pool, I n → n.cutConstraint sense c = .ok k →
      n.Records (n.next c) pool → I ((n.withRow k).withPool pool))
    (skipped : ∀ n pool, I n → n.Records c pool → I (n.withPool pool))
    (reinstalled : ∀ n place d k, I n → n.cuts.pool.cuts[place]? = some d → d.removed = true →
      n.cutConstraint sense d = .ok k → I (n.reinstalledAt place d k)) :
    Action.Ensures I (addCut sense x given c height) fun _ => True :=
  Action.Triple.of_forall fun n hn => (triple_addCut (fun _ => id) (fun _ => hn)
    (fun k pool _ => installed n k pool hn)
    (fun pool _ => skipped n pool hn) reinstalled).consequence
      (fun _ => id) (fun _ _ h => ⟨h, trivial⟩) fun _ => id

/-! ### Pruning -/

/-- Only an installed cut is taken out. -/
theorem ensures_pruneCut
    (takenOut : ∀ n place i c, I n → n.cuts.pool.cuts[place]? = some c → c.constraint? = some i →
      I (n.takenOutAt place i c)) (place : ℕ) :
    Action.Ensures I (pruneCut place) fun _ => True := by
  refine Action.Triple.get_bind ?_
  intro n h
  have unchanged : ∀ b : Bool, Action.Triple (· = n) (Pure.pure b : Action ℚ (Node ℚ) Bool)
      (fun _ n' => I n' ∧ True) I := by
    refine fun b => .pure ?_
    rintro _ rfl
    exact ⟨h, trivial⟩
  split
  next c hc =>
    split
    next i hi =>
      refine .ite (fun _ => ?_) fun _ => unchanged false
      refine .bind ((triple_onSubproblem_modify _ n).consequence (fun _ => id) (fun _ _ => id)
        fun _ => False.elim) fun _ => ?_
      refine .bind (Q := fun _ => I) (.of_forall ?_) fun _ => .pure fun _ h => ⟨h, trivial⟩
      rintro _ rfl
      refine (triple_onPool_modify _ _).consequence (fun _ => id) ?_ fun _ => False.elim
      rintro _ _ rfl
      exact takenOut n place i c h hc hi
    next => exact unchanged false
  next => exact unchanged false

/-- What taking out one cut keeps is kept. -/
theorem ensures_prune
    (takenOut : ∀ n place i c, I n → n.cuts.pool.cuts[place]? = some c → c.constraint? = some i →
      I (n.takenOutAt place i c)) : Action.Ensures I prune fun _ => True :=
  .bind .get fun _ _ => .bind (R := fun _ => True)
    ((Action.Ensures.mapM (S := fun _ _ => True) fun place _ =>
      ensures_pruneCut takenOut place).weaken
      fun _ _ => trivial) fun _ _ => .pure trivial

end Node

end Multistage
