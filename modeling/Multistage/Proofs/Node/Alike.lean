import Multistage.Proofs.Linear.Rearranged
import Multistage.Proofs.Node.Monotone
import Multistage.Proofs.Node.Posing
import Multistage.Proofs.Stage.Likewise

/-!
# Two nodes in use

Two nodes that were used in different ways are solved alike if they have the same installed cuts:
what a solve changes before it solves is overwritten by the next solve, so that the programs differ
in the order of their rows at most. A solver that ignores this order answers the same in both.

## Main definitions

- `Node.Paired`: two nodes in use with the same active constraints for their cuts.

## Main statements

- `Node.Ready.rearranges`: the subproblems of both nodes when they are ready.
- `Node.parallel_pose`: both nodes are posed, or neither is.
- `Node.parallel_solve`: both solves give the same answer, or both fail alike.
-/

namespace Multistage

namespace Node

variable {sense : Sense} {start n n' m m' : Node ℚ} {rows rows' : List (Constraint ℚ)} {x : State ℚ}
  {noise : Datum ℚ} {solver : Solver ℚ}

/-- Two nodes in use whose active constraints for cuts are the same in some order. If the objective
of the node that was built cannot be installed, neither of them has installed it or both have. -/
structure Paired (sense : Sense) (start n n' : Node ℚ) : Prop where
  left : Used sense start [] n
  right : Used sense start [] n'
  backed : Backed sense start.rowCount n
  rows : ((later start n').filter (·.active)).Perm ((later start n).filter (·.active))
  installed : ¬start.Poses → n'.stage.objectiveInstalled = n.stage.objectiveInstalled

namespace Paired

/-- Later nodes with the same cuts. -/
theorem of_sameCuts (h : Paired sense start n n') (hm : Used sense start [] m)
    (hm' : Used sense start [] m') (same : SameCuts start n m) (same' : SameCuts start n' m')
    (hinstalled : ¬start.Poses → m'.stage.objectiveInstalled = m.stage.objectiveInstalled) :
    Paired sense start m m' where
  left := hm
  right := hm'
  backed := h.backed.of_sameCuts h.left hm same
  rows := by
    unfold later
    rw [same.rows, same'.rows]
    exact h.rows
  installed := hinstalled

theorem like (h : Paired sense start n n') : Like (¬start.Poses) n n' where
  declaration := h.right.declaration.trans h.left.declaration.symm
  stage :=
    { declaration := congrArg (·.stage) (h.right.declaration.trans h.left.declaration.symm)
      lower_length := h.right.lower_length.trans h.left.lower_length.symm
      upper_length := h.right.upper_length.trans h.left.upper_length.symm
      installed := h.installed }

end Paired

/-! ### Nodes that are ready -/

/-- A later constraint that is active is no equation. -/
theorem Backed.relation_ne (h : Backed sense start.rowCount n) {c : Constraint ℚ}
    (hc : c ∈ (later start n).filter (·.active)) : c.relation ≠ .equal := by
  obtain ⟨hmem, hactive⟩ := List.mem_filter.1 hc
  obtain ⟨i, hi⟩ := List.getElem?_of_mem hmem
  rw [later, List.getElem?_drop] at hi
  obtain ⟨d, -, -, hcut⟩ := h.active _ c (Nat.le_add_right _ _) hi hactive
  obtain ⟨e, -, hcut⟩ := Except.bind_eq_ok.1 hcut
  rw [Subproblem.constraintOf_eq_ok hcut]
  cases sense <;> exact nofun

namespace Ready

variable (h : Ready sense start rows x noise m) (h' : Ready sense start rows' x noise m')

include h h'

/-- The constraints that were declared say the same. -/
theorem declared_sameRow :
    List.Forall₂ Constraint.SameRow
      ((m.stage.subproblem.constraints.take start.rowCount).filter (·.active))
      ((m'.stage.subproblem.constraints.take start.rowCount).filter (·.active)) := by
  have all : List.Forall₂ (fun c c' : Constraint ℚ => c.SameRow c' ∧ c'.active = c.active)
      (m.stage.subproblem.constraints.take start.rowCount)
      (m'.stage.subproblem.constraints.take start.rowCount) := by
    have length : (m.stage.subproblem.constraints.take start.rowCount).length = start.rowCount :=
      List.length_take_of_le h.rowCount_le
    have length' : (m'.stage.subproblem.constraints.take start.rowCount).length = start.rowCount :=
      List.length_take_of_le h'.rowCount_le
    refine List.forall₂_iff_get.2 ⟨length.trans length'.symm, fun k hk hk' => ?_⟩
    have hlt : k < start.rowCount := length ▸ hk
    have hc : m.stage.subproblem.constraints[k]? =
        some ((m.stage.subproblem.constraints.take start.rowCount).get ⟨k, hk⟩) := by
      rw [← List.getElem?_take_of_lt hlt, List.getElem?_eq_getElem hk]
      rfl
    have hc' : m'.stage.subproblem.constraints[k]? =
        some ((m'.stage.subproblem.constraints.take start.rowCount).get ⟨k, hk'⟩) := by
      rw [← List.getElem?_take_of_lt hlt, List.getElem?_eq_getElem hk']
      rfl
    generalize (m.stage.subproblem.constraints.take start.rowCount).get ⟨k, hk⟩ = c at hc
    generalize (m'.stage.subproblem.constraints.take start.rowCount).get ⟨k, hk'⟩ = c' at hc'
    have kind := (h'.kind k hlt).trans (h.kind k hlt).symm
    have rhs := h.content_eq h' (f := .rhs k) hlt rfl
    have coefficient := fun i => h.content_eq h' (f := .coefficient k i) hlt rfl
    simp only [Stage.content, hc, hc', Option.map_some, Option.bind_some,
      Option.some.injEq] at kind rhs coefficient
    exact ⟨⟨congrArg Prod.fst kind, Option.some.inj (Content.number.inj rhs),
      fun i => Content.number.inj (coefficient i)⟩, congrArg Prod.snd kind⟩
  have filtered :=
    List.rel_filter (R := fun c c' : Constraint ℚ => c.SameRow c' ∧ c'.active = c.active)
    (p := (·.active)) (q := (·.active)) (fun c c' hc => (Bool.eq_iff_iff.1 hc.2).symm) all
  exact filtered.imp fun _ _ hc => hc.1

/-- The subproblems of nodes that are ready for the same state and the same realization of the noise
differ in the order of fixed variables and cuts. -/
theorem rearranges (hb : start.Blank) (hbacked : Backed sense start.rowCount m)
    (hrows : ((later start m').filter (·.active)).Perm ((later start m).filter (·.active))) :
    m.stage.subproblem.Rearranges m'.stage.subproblem where
  label := congrArg (·.stage.subproblem.label) (h'.declaration.trans h.declaration.symm)
  owner := congrArg (·.stage.subproblem.owner) (h'.declaration.trans h.declaration.symm)
  names := h'.names_eq.trans h.names_eq.symm
  lower := List.ext_getElem? fun i =>
    Content.bound.inj (h.content_eq h' (f := .lower i) trivial rfl)
  upper := List.ext_getElem? fun i =>
    Content.bound.inj (h.content_eq h' (f := .upper i) trivial rfl)
  sense := (h.objective_eq h').1
  objective := (h.objective_eq h').2
  distinct := h.distinct
  distinct' := h'.distinct
  fixed := h.fixed_eq h'
  fixed_lt := h.fixed_lt_names hb
  rows := by
    refine ⟨_, _, _, _, ?_, ?_, h.declared_sameRow h', hrows, fun c hc => hbacked.relation_ne hc⟩
    · rw [← List.filter_append, later, List.take_append_drop]
      rfl
    · rw [← List.filter_append, later, List.take_append_drop]
      rfl

end Ready

/-! ### Posing -/

theorem parallel_installObjective (h : n'.stage.objective = n.stage.objective) :
    Action.Parallel (fun a b => a = n ∧ b = n') (installObjective sense) (installObjective sense)
      (fun _ _ _ _ => True) fun e e' _ _ => e.Alike e' := by
  refine .bind (Q := fun _ _ a b => b.stage.objective = a.stage.objective) (.modify ?_)
    fun _ _ => ?_
  · rintro _ _ ⟨rfl, rfl⟩
    exact h
  refine .get_bind fun a b hab => ?_
  have alike : Except.Alike (a.stage.objective.toAffine a.stage.subproblem.describe)
      (b.stage.objective.toAffine b.stage.subproblem.describe) := hab ▸ Operand.alike_toAffine _ _ _
  refine .bind
    ((Action.likewise_ofExcept (R := fun _ _ => True) alike trivial).consequence (fun _ _ => id)
    (fun _ _ _ _ _ => trivial) fun _ _ _ _ he => he.1) fun e e' => ?_
  intro c c' _
  exact trivial

variable (sense) in
theorem exists_installObjective (h : ∃ describe e, n.stage.objective.toAffine describe = .ok e) :
    ∃ m, installObjective sense n = .ok () m := by
  obtain ⟨describe, e, he⟩ := h
  cases hr : installObjective sense n with
  | ok _ m => exact ⟨m, rfl⟩
  | error e' m => exact absurd he (((triple_installObjective n).error rfl hr).1 describe e)

/-- The last step of posing: the objective is installed, unless it was. -/
theorem ready_unlessInstalled (h : Used sense start rows n)
    (hobjective : start.stage.Assignable .objective → n.stage.objectiveInstalled = false)
    (hincoming : ∀ s ∈ start.stage.states.entries, ∃ v, x.get? s.1 = some v)
    (hassigned : ∃ as, start.stage.Assigned noise as ∧ ∀ f, f.Below start.rowCount →
      n.stage.content f = overwrite (start.contentFrom x) as f) :
    Action.Triple (· = n)
      (if !n.stage.objectiveInstalled then installObjective sense else pure PUnit.unit)
      (fun _ m => (Ready sense start rows x noise m ∧ SameCuts start n m) ∧
        m.stage.objectiveInstalled = true)
      fun m => (Used sense start rows m ∧ SameCuts start n m) ∧
        m.stage.objectiveInstalled = true := by
  refine .ite (fun _ => .of_cases (fun s _ m hs hr => ⟨?_, ?_⟩) fun s _ m hs hr => ⟨?_, ?_⟩)
    fun hinstalled => ?_
  · exact (ready_installObjective h hincoming hassigned).ok hs hr
  · obtain ⟨_, _, -, rfl⟩ := (triple_installObjective n).ok hs hr
    rfl
  · exact (ready_installObjective h hincoming hassigned).error hs hr
  · obtain ⟨-, rfl⟩ := (triple_installObjective n).error hs hr
    rfl
  · refine .pure ?_
    rintro n rfl
    have hinstalled : n.stage.objectiveInstalled = true := by simpa using hinstalled
    exact ⟨⟨h.ready hinstalled hobjective hincoming hassigned, .refl _ _⟩, hinstalled⟩

/-- The last step of posing succeeds in both nodes, or it fails alike. -/
theorem parallel_unlessInstalled (h : n'.stage.objective = n.stage.objective)
    (hinstalled : ¬start.Poses → n'.stage.objectiveInstalled = n.stage.objectiveInstalled)
    (haffine : start.Poses → n.stage.objectiveInstalled = true ∨
      n'.stage.objectiveInstalled = true →
      ∃ describe e, n.stage.objective.toAffine describe = .ok e) :
    Action.Parallel (fun a b => a = n ∧ b = n')
      (if !n.stage.objectiveInstalled then installObjective sense else pure PUnit.unit)
      (if !n'.stage.objectiveInstalled then installObjective sense else pure PUnit.unit)
      (fun _ _ _ _ => True) fun e e' _ _ => e.Alike e' := by
  have poses : n'.stage.objectiveInstalled ≠ n.stage.objectiveInstalled → start.Poses :=
    fun hne => by_contra fun hnot => hne (hinstalled hnot)
  cases hi : n.stage.objectiveInstalled with
  | false =>
    cases hi' : n'.stage.objectiveInstalled with
    | false => exact parallel_installObjective h
    | true =>
      obtain ⟨m, hm⟩ := exists_installObjective sense
        (haffine (poses (by rw [hi, hi']; decide)) (.inr hi'))
      rintro _ _ ⟨rfl, rfl⟩
      simp [hm, pure, EStateM.pure]
  | true =>
    cases hi' : n'.stage.objectiveInstalled with
    | false =>
      obtain ⟨m, hm⟩ := exists_installObjective sense
        (h ▸ haffine (poses (by rw [hi, hi']; decide)) (.inl hi))
      rintro _ _ ⟨rfl, rfl⟩
      simp [hm, pure, EStateM.pure]
    | true => exact .pure fun _ _ _ => trivial

/-- Both nodes are posed, or this fails in both. -/
theorem Paired.parallel_pose (hb : start.Blank) (h : Paired sense start n n') (x : State ℚ)
    (noise : Datum ℚ) :
    Action.Parallel (fun a b => a = n ∧ b = n') (pose sense x noise) (pose sense x noise)
      (fun _ _ m m' => Ready sense start [] x noise m ∧ Ready sense start [] x noise m' ∧
        Paired sense start m m')
      fun e e' m m' => e.Alike e' ∧ Paired sense start m m' := by
  have entered :=
    (likewise_setIncoming (¬start.Poses) x).and (triple_setIncoming hb h.left)
    (triple_setIncoming hb h.right)
  refine .bind (entered.consequence ?_ (fun _ _ _ _ => id) ?_) fun _ _ => .of_forall ?_
  · rintro _ _ ⟨rfl, rfl⟩
    exact ⟨h.like, rfl, rfl⟩
  · rintro e e' m m' ⟨⟨he, like⟩, ⟨used, same⟩, used', same'⟩
    exact ⟨he, h.of_sameCuts used used' same same' like.stage.installed⟩
  rintro n₁ n₁' ⟨⟨-, like₁⟩, ⟨h₁, same₁, hincoming, hcontent⟩, h₁', same₁', -, hcontent'⟩
  have paired₁ := h.of_sameCuts h₁ h₁' same₁ same₁' like₁.stage.installed
  have realized := (likewise_onStage (Stage.likewise_applyNoise (¬start.Poses) noise)).and
    (triple_onStage_applyNoise hb h₁ hcontent) (triple_onStage_applyNoise hb h₁' hcontent')
  refine .bind (realized.consequence ?_ (fun _ _ _ _ => id) ?_) fun _ _ => .get_bind ?_
  · rintro _ _ ⟨rfl, rfl⟩
    exact ⟨like₁, rfl, rfl⟩
  · rintro e e' m m' ⟨⟨he, like⟩, ⟨used, same⟩, used', same'⟩
    exact ⟨he, paired₁.of_sameCuts used used' same same' like.stage.installed⟩
  rintro n₂ n₂' ⟨⟨-, like₂⟩, ⟨h₂, same₂, hobjective, hassigned⟩, h₂', same₂', hobjective',
    hassigned'⟩
  have paired₂ := paired₁.of_sameCuts h₂ h₂' same₂ same₂' like₂.stage.installed
  -- both realizations make the same assignments
  have same : n₂'.stage.objective = n₂.stage.objective := by
    obtain ⟨as, has, hc⟩ := hassigned
    obtain ⟨as', has', hc'⟩ := hassigned'
    refine Content.operand.inj
      ((hc' .objective trivial).trans (Eq.trans ?_ (hc .objective trivial).symm))
    rw [has.unique rfl has']
  have affine : start.Poses → n₂.stage.objectiveInstalled = true ∨
      n₂'.stage.objectiveInstalled = true →
      ∃ describe e, n₂.stage.objective.toAffine describe = .ok e := by
    intro hposes hi
    have ha : ¬start.stage.Assignable .objective := fun ha => by
      rw [hobjective ha, hobjective' ha] at hi
      rcases hi with hi | hi <;> cases hi
    rw [Content.operand.inj (h₂.content .objective trivial ha fun _ _ => nofun)]
    exact hposes.resolve_left ha
  refine ((parallel_unlessInstalled same paired₂.installed affine).and
    (ready_unlessInstalled h₂ hobjective hincoming hassigned)
    (ready_unlessInstalled h₂' hobjective' hincoming hassigned')).consequence ?_ ?_ ?_
  · rintro _ _ ⟨rfl, rfl⟩
    exact ⟨⟨rfl, rfl⟩, rfl, rfl⟩
  · rintro _ _ m m' ⟨-, ⟨⟨hm, same⟩, hi⟩, ⟨hm', same'⟩, hi'⟩
    exact ⟨hm, hm', paired₂.of_sameCuts hm.toUsed hm'.toUsed same same' fun _ => hi'.trans hi.symm⟩
  · rintro e e' m m' ⟨he, ⟨⟨hm, same⟩, hi⟩, ⟨hm', same'⟩, hi'⟩
    exact ⟨he, paired₂.of_sameCuts hm hm' same same' fun _ => hi'.trans hi.symm⟩

/-! ### Solving -/

/-- Nodes after the program was solved in both, with the same result. -/
def Concluded (m m' r r' : Node ℚ) : Prop :=
  ∃ p p' : Subproblem ℚ, r = m.withSubproblem p ∧ r' = m'.withSubproblem p' ∧ p.SameResult p'

/-- Two nodes whose last solves found the same read the same answer. -/
theorem Concluded.answers {r r' : Node ℚ} (h : Concluded m m' r r')
    (hdeclaration : m'.declaration = m.declaration)
    (hobjective : m'.stage.objective = m.stage.objective) :
    r'.incomingDuals = r.incomingDuals ∧ r'.outgoing = r.outgoing ∧
      r'.stage.objectiveValue = r.stage.objectiveValue := by
  obtain ⟨p, p', rfl, rfl, same⟩ := h
  have states : m'.stage.states = m.stage.states := congrArg (·.stage.states) hdeclaration
  refine ⟨?_, ?_, ?_⟩
  · unfold incomingDuals withSubproblem
    simp only [states, same.fixedDual_eq]
  · unfold outgoing withSubproblem
    simp only [states, same.valueOf_eq, same.upperBound_eq, same.lowerBound_eq]
  · unfold Stage.objectiveValue withSubproblem
    simp only [hobjective, same.valueOf_eq]

/-- Acting on the subproblems of two known nodes. -/
theorem parallel_onSubproblem {τ : Type} {act act' : Action ℚ (Subproblem ℚ) τ}
    {Q : τ → τ → Subproblem ℚ → Subproblem ℚ → Prop}
    {E : Failure ℚ → Failure ℚ → Subproblem ℚ → Subproblem ℚ → Prop}
    (h : Action.Parallel
      (fun p p' => p = n.stage.subproblem ∧ p' = n'.stage.subproblem) act act' Q E) :
    Action.Parallel (fun a b => a = n ∧ b = n') (onSubproblem act) (onSubproblem act')
      (fun b b' m m' => ∃ p p', m = n.withSubproblem p ∧ m' = n'.withSubproblem p' ∧ Q b b' p p')
      fun e e' m m' => ∃ p p', m = n.withSubproblem p ∧ m' = n'.withSubproblem p' ∧
        E e e' p p' := by
  have stages : Action.Parallel (fun s s' => s = n.stage ∧ s' = n'.stage) (Stage.onSubproblem act)
      (Stage.onSubproblem act') _ _ := Action.Parallel.focus h
  have nodes :
      Action.Parallel (fun a b => a = n ∧ b = n') (onSubproblem act) (onSubproblem act') _ _ :=
    Action.Parallel.focus stages
  refine nodes.consequence (fun _ _ => id) ?_ ?_
  · rintro b b' _ _ ⟨_, _, rfl, rfl, p, p', rfl, rfl, hp⟩
    exact ⟨p, p', rfl, rfl, hp⟩
  · rintro e e' _ _ ⟨_, _, rfl, rfl, p, p', rfl, rfl, hp⟩
    exact ⟨p, p', rfl, rfl, hp⟩

/-- The programs of two nodes that are ready are solved, and the same answer is read. -/
theorem parallel_conclude (hsolver : solver.IgnoresOrder) (hb : start.Blank)
    (hm : Ready sense start [] x noise m) (hm' : Ready sense start [] x noise m')
    (h : Paired sense start m m') (needsDuals : Bool) :
    Action.Parallel (fun a b => a = m ∧ b = m') (conclude solver needsDuals)
      (conclude solver needsDuals)
      (fun answer answer' r r' => answer = answer' ∧ Concluded m m' r r')
      fun e e' r r' => e = e' ∧ ∃ p p', r = m.withSubproblem p ∧ r' = m'.withSubproblem p' := by
  have declared : m'.declaration = m.declaration := hm'.declaration.trans hm.declaration.symm
  have objective : m'.stage.objective = m.stage.objective :=
    Content.operand.inj (hm.content_eq hm' (f := .objective) trivial rfl)
  have solved :=
    parallel_onSubproblem ((hm.rearranges hm' hb h.backed h.rows).parallel_optimize hsolver)
  refine .bind (Q := fun _ _ => Concluded m m')
    (solved.consequence (fun _ _ => id) (fun _ _ _ _ => id) ?_)
    fun _ _ => .get_bind fun r r' hr => ?_
  · rintro e e' _ _ ⟨p, p', rfl, rfl, rfl, -⟩
    exact ⟨rfl, p, p', rfl, rfl⟩
  obtain ⟨duals, outgoing, stageObjective⟩ := hr.answers declared objective
  obtain ⟨p, p', hp, hp', same⟩ := hr
  have index : r'.stage.index = r.stage.index := by
    rw [hp, hp']
    exact congrArg (·.stage.index) declared
  have subproblem : r.stage.subproblem = p := congrArg (·.stage.subproblem) hp
  have subproblem' : r'.stage.subproblem = p' := congrArg (·.stage.subproblem) hp'
  simp only [duals, outgoing, stageObjective, index, subproblem, subproblem', same.primal,
    same.termination,
    same.dual, same.label, same.optimum]
  -- from here on both runs do the same, and change nothing
  have hereditary : Action.Hereditary fun _ : Set Empty => fun a b : Node ℚ => a = r ∧ b = r' :=
    fun _ _ _ _ _ => id
  refine Action.Parallel.consequence (P := fun a b => a = r ∧ b = r')
    (Q := fun a a' s s' => a = a' ∧ s = r ∧ s' = r')
    (E := fun e e' s s' => e = e' ∧ s = r ∧ s' = r') ?_ (fun _ _ => id) ?_ ?_
  · refine show Action.InStep (fun _ : Set Empty => fun a b : Node ℚ => a = r ∧ b = r') Eq ∅ _
      fun _ => ∅ from ?_
    have refused : Action.InStep (fun _ : Set Empty => fun a b : Node ℚ => a = r ∧ b = r') Eq ∅
      (throw (.unsolved r.stage.index p.termination p.primal p.dual) : Action ℚ (Node ℚ) Unit)
      fun _ => ∅ :=
        .throw hereditary fun _ => rfl
    refine .ite (fun _ => .bind refused fun _ => ?_) fun _ => ?_
    all_goals
      refine .bind (.ofExcept hereditary fun _ => rfl) fun _ =>
        .bind (.ofExcept hereditary fun _ => rfl) fun _ => ?_
      exact .bind (.ofExcept hereditary fun _ => rfl) fun _ =>
        .bind (.ofOption hereditary fun _ => rfl) fun _ =>
        .pure fun _ => ∅
  · rintro a a' _ _ ⟨ha, rfl, rfl⟩
    exact ⟨ha, p, p', hp, hp', same⟩
  · rintro e e' _ _ ⟨he, rfl, rfl⟩
    exact ⟨he, p, p', hp, hp'⟩

/-- Both nodes are solved with the same answer and the same optimal value, or both solves fail
alike. -/
theorem Paired.parallel_solve (hsolver : solver.IgnoresOrder) (hb : start.Blank)
    (h : Paired sense start n n') (x : State ℚ) (noise : Datum ℚ) (needsDuals : Bool) :
    Action.Parallel (fun a b => a = n ∧ b = n') (solve solver sense x noise needsDuals)
      (solve solver sense x noise needsDuals)
      (fun answer answer' r r' => answer = answer' ∧
        r'.stage.subproblem.optimum? = r.stage.subproblem.optimum? ∧
          Paired sense start r r' ∧ SameCuts start n r ∧ SameCuts start n' r')
      fun e e' r r' => e.Alike e' ∧ Paired sense start r r' ∧ SameCuts start n r ∧
        SameCuts start n' r' := by
  have solved : Action.Parallel (fun a b => a = n ∧ b = n') (solve solver sense x noise needsDuals)
      (solve solver sense x noise needsDuals)
      (fun answer answer' r r' => answer = answer' ∧
        r'.stage.subproblem.optimum? = r.stage.subproblem.optimum? ∧
          (¬start.Poses → r'.stage.objectiveInstalled = r.stage.objectiveInstalled))
      fun e e' r r' => e.Alike e' ∧
        (¬start.Poses → r'.stage.objectiveInstalled = r.stage.objectiveInstalled) := by
    rw [solve_eq]
    refine .bind ((h.parallel_pose hb x noise).consequence (fun _ _ => id) (fun _ _ _ _ => id)
      fun e e' r r' he => ⟨he.1, he.2.installed⟩) fun _ _ => .of_forall fun m m' hm => ?_
    obtain ⟨hm, hm', paired⟩ := hm
    refine (parallel_conclude hsolver hb hm hm' paired needsDuals).consequence (fun _ _ => id) ?_ ?_
    · rintro answer answer' _ _ ⟨ha, p, p', rfl, rfl, same⟩
      exact ⟨ha, same.optimum, paired.installed⟩
    · rintro e e' _ _ ⟨rfl, p, p', rfl, rfl⟩
      exact ⟨.refl e, paired.installed⟩
  refine (solved.and (triple_solve hb h.left needsDuals)
    (triple_solve hb h.right needsDuals)).consequence ?_ ?_ ?_
  · rintro _ _ ⟨rfl, rfl⟩
    exact ⟨⟨rfl, rfl⟩, rfl, rfl⟩
  · rintro answer answer' r r' ⟨⟨ha, ho, hi⟩, ⟨⟨used, same⟩, -⟩, ⟨used', same'⟩, -⟩
    exact ⟨ha, ho, h.of_sameCuts used used' same same' hi, same, same'⟩
  · rintro e e' r r' ⟨⟨he, hi⟩, ⟨used, same⟩, used', same'⟩
    exact ⟨he, h.of_sameCuts used used' same same' hi, same, same'⟩

end Node

end Multistage
