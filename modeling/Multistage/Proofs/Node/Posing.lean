import Multistage.Proofs.Node.Monotone

/-!
# Nodes that can be posed

Whether a node can be posed for a state and a realization of the noise is a matter of its
declaration: what was done to the node in between does not get in the way.

## Main definitions

- `Stage.VariablesExist`: variables that names stand for belong to the stage and have bounds.
- `Node.Poses`: the objective of the stage is affine, or the noise assigns it.

## Main statements

- `Stage.answers_applyNoise`: a realization whose assignments are declared is applied.
- `Node.exists_pose`: a node is posed where another node in use is.
-/

namespace Multistage

namespace Stage

variable {s s' : Stage ℚ} {noise : Datum ℚ}

/-- Variables that names stand for belong to the stage and have bounds. -/
def VariablesExist (s : Stage ℚ) : Prop :=
  ∀ name v, s.lookup name = .ok (.decision v) → v.owner = s.subproblem.owner ∧
    v.index < s.subproblem.lower.length ∧ v.index < s.subproblem.upper.length

theorem SameFrame.variablesExist (h : s.SameFrame s') (hs : s.VariablesExist) :
    s'.VariablesExist := by
  intro name v hv
  rw [lookup_of_declaration_eq h.declaration] at hv
  rw [h.lower_length, h.upper_length, show s'.subproblem.owner = s.subproblem.owner from
    congrArg (·.subproblem.owner) h.declaration]
  exact hs name v hv

theorem lookup_of_toVariable {name : Name} {o : Operand ℚ} {v : Variable}
    (ho : s.lookup name = .ok o) (hv : o.toVariable = .ok v) :
    s.lookup name = .ok (.decision v) := by
  cases o with
  | decision u =>
    cases hv
    exact ho
  | _ => cases hv

/-! ### Assignments that are made -/

theorem answers_evaluate {value : Formula ℚ} {y : Operand ℚ}
    (hy : value.eval (s.scope noise) = .ok y) :
    Action.Triple (· = s) (evaluate value noise) (fun b t => b = y ∧ t = s) fun _ => False := by
  refine .get_bind ?_
  rintro s rfl
  refine .ofExcept (fun b t hb ht => ⟨?_, ht⟩) fun e _ he _ => ?_
  · exact Except.ok.inj (hb.symm.trans hy)
  · cases he.symm.trans hy

theorem answers_onSubproblem {act : Action ℚ (Subproblem ℚ) Unit} {Q : Unit → Subproblem ℚ → Prop}
    (h : Action.Triple (· = s.subproblem) act Q fun _ => False) :
    Action.Triple (· = s) (onSubproblem act) (fun _ _ => True) fun _ => False :=
  (Action.Triple.focus h).consequence (fun _ => id) (fun _ _ _ => trivial)
    fun _ ⟨_, _, hfalse⟩ => hfalse

theorem answers_assign {target : Name} {value : Formula ℚ}
    {set : Variable → ℚ → Action ℚ (Subproblem ℚ) Unit} {o y : Operand ℚ} {v : Variable} {x : ℚ}
    (ho : s.lookup target = .ok o) (hy : value.eval (s.scope noise) = .ok y)
    (hx : y.toScalar = .ok x) (hv : o.toVariable = .ok v)
    (hset : Action.Triple (· = s.subproblem) (set v x) (fun _ _ => True) fun _ => False) :
    Action.Triple (· = s) (assign target value noise set) (fun _ _ => True) fun _ => False := by
  refine .get_bind ?_
  rintro s rfl
  refine .answered_bind ho (.bind (answers_evaluate hy) fun _ => .of_forall ?_)
  rintro s ⟨rfl, rfl⟩
  exact .answered_bind hx (.answered_bind hv (answers_onSubproblem hset))

theorem answers_atVariable {p : Subproblem ℚ} {v : Variable} (hv : v.owner = p.owner)
    (change : Subproblem ℚ → ℕ → Subproblem ℚ) :
    Action.Triple (· = p) (Subproblem.atVariable v change) (fun _ p' => p' = change p v.index)
      fun _ => False := by
  refine .get_bind ?_
  rintro p rfl
  exact .answered_bind (if_pos (by simpa using hv)) (.set fun _ _ => rfl)

theorem setBound_of_lt {p : Subproblem ℚ} {side : List (Extended ℚ)} {v : Variable} {b : Extended ℚ}
    (hv : v.owner = p.owner) (hlt : v.index < side.length) :
    p.setBound side v b = .ok (side.set v.index b) :=
  Except.bind_eq_ok.2 ⟨v.index, if_pos (by simpa using hv), if_pos hlt⟩

/-- An edit whose assignment is declared makes it. -/
theorem answers_applyEdit (hs : s.VariablesExist) {edit : Edit ℚ} {a : Field × Content}
    (ha : edit.Assigns s noise a) :
    Action.Triple (· = s) (applyEdit noise edit) (fun _ _ => True) fun _ => False := by
  obtain ⟨hfield, hcontent⟩ := ha
  cases edit with
  | fix target value =>
    obtain ⟨o, ho, hfield⟩ := Except.bind_eq_ok.1 hfield
    obtain ⟨v, hv, -⟩ := Except.bind_eq_ok.1 hfield
    obtain ⟨y, hy, hcontent⟩ := Except.bind_eq_ok.1 hcontent
    obtain ⟨x, hx, -⟩ := Except.bind_eq_ok.1 hcontent
    have own := (hs target v (lookup_of_toVariable ho hv)).1
    exact answers_assign ho hy hx hv ((answers_atVariable own _).consequence (fun _ => id)
      (fun _ _ _ => trivial) fun _ => id)
  | setLower target value =>
    obtain ⟨o, ho, hfield⟩ := Except.bind_eq_ok.1 hfield
    obtain ⟨v, hv, -⟩ := Except.bind_eq_ok.1 hfield
    obtain ⟨y, hy, hcontent⟩ := Except.bind_eq_ok.1 hcontent
    obtain ⟨x, hx, -⟩ := Except.bind_eq_ok.1 hcontent
    obtain ⟨howner, hlower, -⟩ := hs target v (lookup_of_toVariable ho hv)
    refine answers_assign ho hy hx hv (.get_bind ?_)
    rintro p rfl
    exact .answered_bind (setBound_of_lt howner hlower) (.set fun _ _ => trivial)
  | setUpper target value =>
    obtain ⟨o, ho, hfield⟩ := Except.bind_eq_ok.1 hfield
    obtain ⟨v, hv, -⟩ := Except.bind_eq_ok.1 hfield
    obtain ⟨y, hy, hcontent⟩ := Except.bind_eq_ok.1 hcontent
    obtain ⟨x, hx, -⟩ := Except.bind_eq_ok.1 hcontent
    obtain ⟨howner, -, hupper⟩ := hs target v (lookup_of_toVariable ho hv)
    refine answers_assign ho hy hx hv (.get_bind ?_)
    rintro p rfl
    exact .answered_bind (setBound_of_lt howner hupper) (.set fun _ _ => trivial)
  | unfix target =>
    obtain ⟨o, ho, hfield⟩ := Except.bind_eq_ok.1 hfield
    obtain ⟨v, hv, -⟩ := Except.bind_eq_ok.1 hfield
    refine .get_bind ?_
    rintro s rfl
    exact .answered_bind ho (.answered_bind hv (answers_onSubproblem
      (answers_atVariable (hs target v (lookup_of_toVariable ho hv)).1 _)))
  | setRhs constraint value =>
    obtain ⟨o, ho, hfield⟩ := Except.bind_eq_ok.1 hfield
    obtain ⟨h, hh, -⟩ := Except.bind_eq_ok.1 hfield
    obtain ⟨y, hy, hcontent⟩ := Except.bind_eq_ok.1 hcontent
    obtain ⟨x, hx, -⟩ := Except.bind_eq_ok.1 hcontent
    refine .get_bind ?_
    rintro s rfl
    refine .answered_bind ho (.bind (answers_evaluate hy) fun _ => .of_forall ?_)
    rintro s ⟨rfl, rfl⟩
    exact .answered_bind hx
      (.answered_bind hh (answers_onSubproblem (.modify (Q := fun _ _ => True) fun _ _ => trivial)))
  | setCoefficient constraint target value =>
    obtain ⟨c, hc, hfield⟩ := Except.bind_eq_ok.1 hfield
    obtain ⟨h, hh, hfield⟩ := Except.bind_eq_ok.1 hfield
    obtain ⟨o, ho, hfield⟩ := Except.bind_eq_ok.1 hfield
    obtain ⟨v, hv, -⟩ := Except.bind_eq_ok.1 hfield
    obtain ⟨y, hy, hcontent⟩ := Except.bind_eq_ok.1 hcontent
    obtain ⟨x, hx, -⟩ := Except.bind_eq_ok.1 hcontent
    refine .get_bind ?_
    rintro s rfl
    refine .answered_bind hc (.get_bind ?_)
    rintro s rfl
    refine .answered_bind ho (.bind (answers_evaluate hy) fun _ => .of_forall ?_)
    rintro s ⟨rfl, rfl⟩
    refine .answered_bind hx (.answered_bind hh (.answered_bind hv (.get_bind ?_)))
    rintro s rfl
    have place : s.subproblem.position v = .ok v.index :=
      if_pos (by simpa using (hs target v (lookup_of_toVariable ho hv)).1)
    exact .answered_bind place
      (answers_onSubproblem (.modify (Q := fun _ _ => True) fun _ _ => trivial))
  | objective value =>
    obtain ⟨y, hy, -⟩ := Except.bind_eq_ok.1 hcontent
    refine .bind (answers_evaluate hy) fun _ => .of_forall ?_
    rintro s ⟨rfl, rfl⟩
    exact .modify fun _ _ => trivial

/-- A realization whose assignments are declared is applied. -/
theorem answers_applyNoise (hd : s.subproblem.fixed.Distinct) (hrows : s.RowsExist)
    (hs : s.VariablesExist) {as : List (Field × Content)} (has : s.Assigned noise as) :
    Action.Triple (· = s) (applyNoise noise) (fun _ _ => True) fun _ => False := by
  refine .get_bind ?_
  rintro s rfl
  refine (Action.Triple.forM_prefix (I := fun _ s' => s.SameFrame s')
    fun before edit after hedits => .of_forall fun s' hframe => ?_).consequence ?_
    (fun _ _ _ => trivial) fun _ => id
  · obtain ⟨a, ha⟩ : ∃ a, edit.Assigns s noise a := by
      have hmem : edit ∈ s.edits := hedits ▸ List.mem_append_right _ List.mem_cons_self
      obtain ⟨i, hi, rfl⟩ := List.getElem_of_mem hmem
      exact ⟨_, List.forall₂_iff_get.1 has |>.2 i hi (has.length_eq ▸ hi)⟩
    have answers := answers_applyEdit (hframe.variablesExist hs)
      (ha.of_declaration_eq hframe.declaration)
    obtain ⟨_, s'', hrun, -⟩ := answers.exists_ok rfl
    rintro _ rfl
    rw [hrun]
    exact hframe.trans ((triple_applyEdit (hframe.distinct hd) (hframe.rowsExist hrows) edit).ok
      rfl hrun).1
  · rintro _ rfl
    exact .refl _

end Stage

namespace Node

/-- The objective of the stage is affine, or the noise assigns it. -/
def Poses (start : Node ℚ) : Prop :=
  start.stage.Assignable .objective ∨ ∃ describe e, start.stage.objective.toAffine describe = .ok e

variable {sense : Sense} {start n m : Node ℚ} {rows rows' : List (Constraint ℚ)} {x : State ℚ}
  {noise : Datum ℚ}

theorem Used.variablesExist (hb : start.Blank) (h : Used sense start rows n) :
    n.stage.VariablesExist := by
  intro name v hv
  have declared : n.stage.declaration = start.stage.declaration := congrArg (·.stage) h.declaration
  rw [Stage.lookup_of_declaration_eq declared] at hv
  obtain ⟨howner, hlt⟩ := hb.tidy.lookup_within hv
  have named : v.index < start.stage.subproblem.names.length := lt_of_lt_of_le hlt hb.tidy.count_le
  rw [h.lower_length, h.upper_length, hb.tidy.lower_length, hb.tidy.upper_length, h.owner_eq]
  exact ⟨howner, named, named⟩

/-- Incoming copies are fixed to a state with a value for every name. -/
theorem Used.answers_setIncoming (hb : start.Blank) (h : Used sense start rows n)
    (hincoming : ∀ s ∈ start.stage.states.entries, ∃ v, x.get? s.1 = some v) :
    Action.Triple (· = n) (setIncoming x) (fun _ _ => True) fun _ => False := by
  refine .get_bind ?_
  rintro n rfl
  rw [h.states_eq]
  refine (Action.Triple.forM_prefix
    (I := fun _ n' => n'.stage.subproblem.owner = n.stage.subproblem.owner)
    fun before s after hentries => .of_forall fun n' howner => ?_).consequence ?_
    (fun _ _ _ => trivial) fun _ => id
  · have hmem : s ∈ start.stage.states.entries :=
      hentries ▸ List.mem_append_right _ List.mem_cons_self
    obtain ⟨v, hv⟩ := hincoming s hmem
    have own : s.2.incoming.owner = n'.stage.subproblem.owner := by
      rw [howner, h.owner_eq]
      exact (hb.tidy.copies s hmem).1.1
    refine .bind (Q := fun b t => b = v ∧ t = n') (.ofOption (fun b t hb ht => ⟨?_, ht⟩) ?_)
      fun _ => .of_forall ?_
    · exact Option.some.inj (hb.symm.trans hv)
    · intro t hnone
      rw [hv] at hnone
      cases hnone
    rintro n' ⟨rfl, rfl⟩
    refine .answered_bind (b := _) rfl ((triple_onSubproblem
      (Stage.answers_atVariable own _)).consequence (fun _ => id) ?_ fun _ ⟨_, _, hfalse⟩ => hfalse)
    rintro _ _ ⟨_, rfl, rfl⟩
    exact howner
  · rintro _ rfl
    rfl

/-- The objective of a node that is ready is affine. -/
theorem Ready.exists_affine (hposes : start.Poses) (h : Ready sense start rows x noise m) :
    ∃ describe e, m.stage.objective.toAffine describe = .ok e ∧ m.stage.subproblem.sense = sense ∧
      m.stage.subproblem.objective = e.add (Affine.ofVariable start.cuts.term) :=
  h.posed.resolve_right fun ⟨hassigned, haffine, _⟩ =>
    hposes.elim hassigned fun ⟨describe, e, he⟩ => haffine describe e he

/-- Unless objectives that are installed were posed before, only a node that poses is posed. -/
theorem poses_of_pose (hb : start.Blank) (h : Used sense start rows n)
    (hinstalled : n.stage.objectiveInstalled = true → start.Poses)
    (hrun : pose sense x noise n = .ok () m) : start.Poses := by
  obtain ⟨_, n₁, entered, hrun⟩ := Action.bind_eq_ok.1 hrun
  obtain ⟨_, n₂, realized, hrun⟩ := Action.bind_eq_ok.1 hrun
  obtain ⟨h₁, -, -, hcontent⟩ := (triple_setIncoming hb h).ok rfl entered
  obtain ⟨h₂, -⟩ := (triple_onStage_applyNoise hb h₁ hcontent).ok rfl realized
  -- neither step installs an objective
  have fixing : Action.Ensures (fun n : Node ℚ => n.stage.objectiveInstalled = true → start.Poses)
      (setIncoming x) fun _ => True := by
    refine .bind .get fun n _ => .forM fun s _ => .bind (.ofOption fun _ _ => trivial) fun _ _ =>
      .bind (.ofExcept fun _ _ => trivial) fun u _ => ?_
    exact .focus (J := fun s : Stage ℚ => s.objectiveInstalled = true → start.Poses)
      (.elsewhere (Subproblem.fix s.2.incoming u) fun _ _ h => h) (fun _ => id) fun _ _ _ => id
  have realizing : Action.Triple (· = n₁.stage) (Stage.applyNoise noise)
      (fun _ s => n₁.stage.SameFrame s) fun _ => True :=
    (Stage.triple_applyNoise h₁.distinct (h₁.rowsExist hb)).consequence (fun _ => id)
      (fun _ _ h => h.1) fun _ _ => trivial
  obtain ⟨s, rfl, frame⟩ := (Action.Triple.focus realizing).ok rfl realized
  have kept : s.objectiveInstalled = true → start.Poses := fun hi =>
    (fixing.ok hinstalled entered).1 (frame.installed hi).1
  obtain ⟨n₂, _, read, hrun⟩ := Action.bind_eq_ok.1 hrun
  cases read
  cases hi : s.objectiveInstalled with
  | true => exact kept hi
  | false =>
    simp only [hi, Bool.not_false, if_true] at hrun
    obtain ⟨describe, e, he, -⟩ := (triple_installObjective _).ok rfl hrun
    by_cases ha : start.stage.Assignable .objective
    · exact .inl ha
    · -- what the noise does not assign is as it was declared
      rw [Content.operand.inj (h₂.content .objective trivial ha fun _ _ => nofun)] at he
      exact .inr ⟨describe, e, he⟩

/-- A node in use is posed where another one is. -/
theorem exists_pose (hb : start.Blank) (hposes : start.Poses) (h : Used sense start rows n)
    (h' : Ready sense start rows' x noise m) : ∃ m', pose sense x noise n = .ok () m' := by
  obtain ⟨as, has, hcontent'⟩ := h'.assigned
  obtain ⟨_, n₁, entered, -⟩ := (h.answers_setIncoming hb h'.incoming).exists_ok rfl
  obtain ⟨h₁, -, hincoming, hcontent⟩ := (triple_setIncoming hb h).ok rfl entered
  -- the assignments are declared
  have assigned : n₁.stage.Assigned noise as := by
    have declared : n₁.stage.declaration = start.stage.declaration :=
      congrArg (·.stage) h₁.declaration
    unfold Stage.Assigned at has ⊢
    rw [h₁.edits_eq]
    exact has.imp fun edit a ha => ha.of_declaration_eq declared
  have applied : Action.Triple (· = n₁) (onStage (Stage.applyNoise noise)) (fun _ _ => True)
      fun _ => False :=
    (Action.Triple.focus (Stage.answers_applyNoise h₁.distinct (h₁.rowsExist hb)
      (h₁.variablesExist hb) assigned)).consequence (fun _ => id) (fun _ _ _ => trivial)
        fun _ ⟨_, _, hfalse⟩ => hfalse
  obtain ⟨_, n₂, realized, -⟩ := applied.exists_ok rfl
  obtain ⟨-, -, -, as', has', hcontent₂⟩ :=
    (triple_onStage_applyNoise hb h₁ hcontent).ok rfl realized
  -- the objective is that of the other node
  obtain ⟨describe, e, he, -⟩ := h'.exists_affine hposes
  have same : n₂.stage.objective = m.stage.objective := by
    refine Content.operand.inj ((hcontent₂ .objective trivial).trans ?_)
    rw [has'.unique rfl has]
    exact (hcontent' .objective trivial).symm
  have posed : Action.Triple (· = n) (pose sense x noise) (fun _ _ => True) fun _ => False := by
    refine .run entered (.run realized (.get_bind ?_))
    rintro n₂ rfl
    refine .ite (fun _ => ?_) fun _ => .pure fun _ _ => trivial
    refine (triple_installObjective n₂).consequence (fun _ => id) (fun _ _ _ => trivial) ?_
    rintro _ ⟨haffine, -⟩
    exact haffine describe e (same ▸ he)
  obtain ⟨_, m', hrun, -⟩ := posed.exists_ok rfl
  exact ⟨m', hrun⟩

end Node

end Multistage
