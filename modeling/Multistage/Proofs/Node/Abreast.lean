import Multistage.Proofs.Node.Alike

/-!
# Nodes abreast

Two nodes with the same cuts and the same constraints for them stay like that when both are solved
and refined alike. Whether a refinement installs its cut may depend on the last optimal value: where
there is a tolerance, the nodes must have the same one.

## Main definitions

- `Node.Level`: the same cuts, at the same places.
- `Node.Abreast`: two nodes in use that are level.
- `Node.Inspected`: a node that was solved, and nothing else.

## Main statements

- `Node.inStep_refine`: refinements keep nodes level.
- `Node.Abreast.parallel_solve`, `Node.Abreast.parallel_refine`: the two operations.
- `Node.Inspected.abreast`: a node before and after it was solved.
-/

namespace Multistage

open Multistage.Action (InStep Parallel)

namespace Node

/-- The nodes have the same cuts and the same constraints for them. If they are judged alike, the
last solves found the same optimal value, unless there is no tolerance. -/
structure Level (start : Node ℚ) (judged : Prop) (n n' : Node ℚ) : Prop where
  declaration : n'.declaration = n.declaration
  same : SameCuts start n n'
  rowCount_le : start.rowCount ≤ n.rowCount
  rowCount_eq : n'.rowCount = n.rowCount
  installed : ¬start.Poses → n'.stage.objectiveInstalled = n.stage.objectiveInstalled
  optimum : judged → n.cuts.settings.improvement ≤ 0 ∨
    n'.stage.subproblem.optimum? = n.stage.subproblem.optimum?

/-- Two nodes in use that are level. -/
structure Abreast (sense : Sense) (start : Node ℚ) (judged : Prop) (n n' : Node ℚ) : Prop
    extends Level start judged n n' where
  left : Used sense start [] n
  right : Used sense start [] n'
  backed : Backed sense start.rowCount n

variable {sense : Sense} {start n n' m m' : Node ℚ} {judged judged' : Prop} {x : State ℚ}
  {noise : Datum ℚ}
  {solver : Solver ℚ}

namespace Level

/-- A cut is worth installing in both nodes or in neither. -/
theorem isImprovement_eq (h : Level start judged n n') (hjudged : judged) (height : ℚ) :
    n'.isImprovement height = n.isImprovement height := by
  unfold isImprovement
  rw [show n'.cuts.settings = n.cuts.settings from congrArg (·.settings) h.same.cuts]
  rcases h.optimum hjudged with hnone | hsame
  · have never : decide (0 < n.cuts.settings.improvement) = false :=
      decide_eq_false (not_lt.2 hnone)
    simp only [never, Bool.false_and, Bool.false_eq_true, if_false]
    cases n'.stage.subproblem.optimum? <;> cases n.stage.subproblem.optimum? <;> rfl
  · rw [hsame]

theorem cutConstraint_eq (h : Level start judged n n') (sense : Sense) (c : Cut ℚ) :
    n'.cutConstraint sense c = n.cutConstraint sense c :=
  cutConstraint_congr sense (congrArg (·.stage.states) h.declaration)
    (congrArg (·.term) h.same.cuts)
    (congrArg (·.stage.subproblem.owner) h.declaration) rfl rfl

theorem withPool (h : Level start judged n n') (pool : CutPool ℚ ℚ) :
    Level start judged (n.withPool pool) (n'.withPool pool) :=
  { h with
    same := ⟨congrArg (fun cuts : CutModel ℚ => { cuts with pool := pool }) h.same.cuts,
      h.same.rows⟩
    declaration := h.declaration }

theorem withRow (h : Level start judged n n') (k : Constraint ℚ) :
    Level start judged (n.withRow k) (n'.withRow k) where
  declaration := h.declaration
  same := by
    refine ⟨h.same.cuts, ?_⟩
    show (n'.stage.subproblem.constraints ++ [k]).drop _ =
        (n.stage.subproblem.constraints ++ [k]).drop _
    rw [List.drop_append_of_le_length (h.rowCount_le.trans h.rowCount_eq.ge),
      List.drop_append_of_le_length h.rowCount_le, h.same.rows]
  rowCount_le :=
    h.rowCount_le.trans
      (by simp [rowCount, Node.withRow, withSubproblem, Subproblem.pushConstraint])
  rowCount_eq := by
    have := h.rowCount_eq
    unfold rowCount at this
    simp [rowCount, Node.withRow, withSubproblem, Subproblem.pushConstraint, this]
  installed := h.installed
  optimum := h.optimum

end Level

/-! ### Refining -/

theorem hereditary_level : Action.Hereditary fun _ : Set Empty => Level start judged :=
    fun _ _ _ _ _ => id

theorem inStep_install (sense : Sense) (c : Cut ℚ) :
    InStep (fun _ : Set Empty => Level start judged) Eq ∅ (install sense c) fun _ => ∅ := by
  refine .of_cases fun n n' h => ?_
  rw [install_eq, install_eq, h.cutConstraint_eq]
  cases n.cutConstraint sense c with
  | ok k =>
    refine .inl ⟨_, _, _, _, rfl, rfl, ?_, h.withRow k⟩
    have count : n'.stage.subproblem.constraints.length = n.stage.subproblem.constraints.length :=
      h.rowCount_eq
    rw [count]
  | error e => exact .inr ⟨e, e, n, n', rfl, rfl, rfl, h⟩

theorem inStep_onPool {τ : Type} (act : Action ℚ (CutPool ℚ ℚ) τ) :
    InStep (fun _ : Set Empty => Level start judged) Eq ∅ (onPool act) fun _ => ∅ := by
  refine .of_cases fun n n' h => ?_
  rw [onPool_eq, onPool_eq, h.same.cuts]
  cases act n.cuts.pool with
  | ok b pool => exact .inl ⟨b, b, _, _, rfl, rfl, rfl, h.withPool pool⟩
  | error e pool => exact .inr ⟨e, e, _, _, rfl, rfl, rfl, h.withPool pool⟩

theorem inStep_reinstall (sense : Sense) (place : ℕ) :
    InStep (fun _ : Set Empty => Level start judged) Eq ∅ (reinstall sense place) fun _ => ∅ := by
  refine .get_bind (fun n n' h => by rw [h.same.cuts]) fun n => ?_
  split
  · exact .ite (fun _ => .bind (inStep_install sense _) fun c => inStep_onPool _) fun _ =>
      .pure fun _ => ∅
  · exact .pure fun _ => ∅

theorem inStep_addCut (hjudged : judged) (sense : Sense) (x given : State ℚ) (c : Cut ℚ)
    (height : ℚ) :
    InStep (fun _ : Set Empty => Level start judged) Eq ∅ (addCut sense x given c height)
      fun _ => ∅ := by
  have recorded : ∀ c, InStep (fun _ : Set Empty => Level start judged) Eq ∅
      (do
        onPool (CutPool.add sense c x given)
        (List.range (← get).cuts.pool.cuts.length).forM (reinstall sense)) fun _ => ∅ := fun c =>
    .bind (inStep_onPool _) fun _ => .get_bind (fun n n' h => by rw [h.same.cuts]) fun n =>
      .forM fun place _ => inStep_reinstall sense place
  refine .get_bind (fun n n' h => by rw [h.isImprovement_eq hjudged]) fun n => ?_
  split
  · exact .bind (inStep_install sense c) recorded
  · exact recorded c

/-- Nodes that are judged alike are refined alike. -/
theorem inStep_refine (hjudged : judged) (sense : Sense) (measure : Measure ℚ) (x : State ℚ)
    (duals : List (State ℚ)) (probabilities objectives : List ℚ) :
    InStep (fun _ : Set Empty => Level start judged) Eq ∅
      (refine sense measure x duals probabilities objectives) fun _ => ∅ := by
  rw [refine_eq]
  exact .bind (.ofExcept hereditary_level fun _ => rfl) fun cut =>
    inStep_addCut hjudged sense x x cut.1 cut.2

/-! ### Nodes in use -/

theorem Used.rowCount_eq {rows : List (Constraint ℚ)} (h : Used sense start rows n) :
    n.rowCount = start.rowCount + (later start n).length := by
  have := h.rowCount_le
  unfold later
  rw [List.length_drop]
  unfold rowCount at this ⊢
  omega

namespace Abreast

theorem mono (h : Abreast sense start judged n n') (hjudged : judged' → judged) :
    Abreast sense start judged' n n' :=
  { h with optimum := fun hj => h.optimum (hjudged hj) }

theorem paired (h : Abreast sense start judged n n') : Paired sense start n n' where
  left := h.left
  right := h.right
  backed := h.backed
  rows := by
    unfold later
    rw [h.same.rows]
  installed := h.installed

/-- Solves of both nodes leave their cuts. -/
theorem of_sameCuts (h : Abreast sense start judged n n') (hpaired : Paired sense start m m')
    (same : SameCuts start n m) (same' : SameCuts start n' m')
    (hoptimum : judged' → m'.stage.subproblem.optimum? = m.stage.subproblem.optimum?) :
    Abreast sense start judged' m m' where
  declaration := hpaired.right.declaration.trans hpaired.left.declaration.symm
  same := ⟨same'.cuts.trans (h.same.cuts.trans same.cuts.symm),
    same'.rows.trans (h.same.rows.trans same.rows.symm)⟩
  rowCount_le := hpaired.left.rowCount_le
  rowCount_eq := by
    rw [hpaired.left.rowCount_eq, hpaired.right.rowCount_eq]
    unfold later
    rw [same'.rows, same.rows, h.same.rows]
  installed := hpaired.installed
  optimum := fun hj => .inr (hoptimum hj)
  left := hpaired.left
  right := hpaired.right
  backed := hpaired.backed

/-- Both nodes are solved with the same answer, and are judged alike from then on, or both solves
fail alike. -/
theorem parallel_solve (hsolver : solver.IgnoresOrder) (hb : start.Blank)
    (h : Abreast sense start judged n n') (x : State ℚ) (noise : Datum ℚ) (needsDuals : Bool) :
    Parallel (fun a b => a = n ∧ b = n') (solve solver sense x noise needsDuals)
      (solve solver sense x noise needsDuals)
      (fun answer answer' r r' => answer = answer' ∧ Abreast sense start True r r')
      fun e e' r r' => e.Alike e' ∧ Abreast sense start False r r' :=
  (h.paired.parallel_solve hsolver hb x noise needsDuals).consequence (fun _ _ => id)
    (fun _ _ _ _ ⟨ha, ho, hp, same, same'⟩ => ⟨ha, h.of_sameCuts hp same same' fun _ => ho⟩)
    fun _ _ _ _ ⟨he, hp, same, same'⟩ => ⟨he, h.of_sameCuts hp same same' False.elim⟩

/-- Nodes that are judged alike are refined alike. -/
theorem parallel_refine (h : Abreast sense start judged n n') (hjudged : judged)
    (measure : Measure ℚ)
    (x : State ℚ) (duals : List (State ℚ)) (probabilities objectives : List ℚ) :
    Parallel (fun a b => a = n ∧ b = n') (refine sense measure x duals probabilities objectives)
      (refine sense measure x duals probabilities objectives)
      (fun _ _ r r' => Abreast sense start judged r r')
      fun e e' r r' => e = e' ∧ Abreast sense start judged r r' := by
  have level : InStep (fun _ : Set Empty => Level start judged) Eq ∅
      (refine sense measure x duals probabilities objectives) fun _ => ∅ :=
      inStep_refine hjudged _ _ _ _ _ _
  have used : Action.Ensures (Used sense start [])
      (refine sense measure x duals probabilities objectives)
      fun _ => True := used_refine _ _ _ _ _
  have backed : Action.Ensures (Backed sense start.rowCount)
      (refine sense measure x duals probabilities objectives) fun _ => True :=
      backed_refine _ _ _ _ _
  refine (level.and (used.and backed) used).consequence
    ?_ ?_ ?_
  · rintro _ _ ⟨rfl, rfl⟩
    exact ⟨h.toLevel, ⟨h.left, h.backed⟩, h.right⟩
  · rintro _ _ r r' ⟨⟨-, level⟩, ⟨⟨left, backed⟩, -⟩, right, -⟩
    exact { level with left := left, right := right, backed := backed }
  · rintro e e' r r' ⟨⟨rfl, level⟩, ⟨left, backed⟩, right⟩
    exact ⟨rfl, { level with left := left, right := right, backed := backed }⟩

end Abreast

/-! ### Solves that answer -/

/-- Solves that answered led from one node to the other. -/
structure Inspected (sense : Sense) (start n n' : Node ℚ) : Prop where
  used : Used sense start [] n'
  same : SameCuts start n n'
  installed : ¬start.Poses → n'.stage.objectiveInstalled = n.stage.objectiveInstalled

/-- A node that is posed has its objective installed. -/
theorem installed_of_pose (h : pose sense x noise n = .ok () m) :
    m.stage.objectiveInstalled = true := by
  obtain ⟨_, n₁, -, h⟩ := Action.bind_eq_ok.1 h
  obtain ⟨_, n₂, -, h⟩ := Action.bind_eq_ok.1 h
  obtain ⟨_, _, read, h⟩ := Action.bind_eq_ok.1 h
  cases read
  cases hi : n₂.stage.objectiveInstalled with
  | true =>
    rw [hi] at h
    cases h
    exact hi
  | false =>
    simp only [hi, Bool.not_false, if_true] at h
    obtain ⟨_, _, -, rfl⟩ := (triple_installObjective n₂).ok rfl h
    rfl

/-- Solves that answer change no cut, and they answer only if the objective was or can be
installed. -/
theorem completes_inspected (hb : start.Blank) (x : State ℚ) (noise : Datum ℚ) (needsDuals : Bool) :
    Action.Completes (Inspected sense start n) (solve solver sense x noise needsDuals)
      fun _ => True := by
  refine .of_ok fun m answer r h hrun => ?_
  obtain ⟨⟨used, same⟩, -⟩ := (triple_solve hb h.used needsDuals).ok rfl hrun
  refine ⟨⟨used, h.same.trans same, fun hnot => ?_⟩, trivial⟩
  rw [solve_eq] at hrun
  obtain ⟨_, t, posed, hrun⟩ := Action.bind_eq_ok.1 hrun
  obtain ⟨ready, -⟩ := (triple_pose hb h.used).ok rfl posed
  have left := ((triple_conclude ready.toUsed needsDuals).ok rfl hrun).2.node_eq
  have installed : m.stage.objectiveInstalled = true := by
    by_contra hi
    exact hnot (poses_of_pose hb h.used (fun htrue => absurd htrue hi) posed)
  have posed : t.stage.objectiveInstalled = true := installed_of_pose posed
  rw [← h.installed hnot, installed, left]
  exact posed

/-- A node is abreast of what solves made of it. -/
theorem Inspected.abreast (h : Inspected sense start n n') (used : Used sense start [] n)
    (backed : Backed sense start.rowCount n)
    (hoptimum : judged → n.cuts.settings.improvement ≤ 0 ∨
      n'.stage.subproblem.optimum? = n.stage.subproblem.optimum?) : Abreast sense start
        judged n n' where
  declaration := h.used.declaration.trans used.declaration.symm
  same := h.same
  rowCount_le := used.rowCount_le
  rowCount_eq := by
    rw [used.rowCount_eq, h.used.rowCount_eq]
    unfold later
    rw [h.same.rows]
  installed := h.installed
  optimum := hoptimum
  left := used
  right := h.used
  backed := backed

end Node

end Multistage
