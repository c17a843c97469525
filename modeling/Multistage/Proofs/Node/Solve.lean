import Multistage.Proofs.Linear.Sensitivity
import Multistage.Proofs.Node.CutConstraint
import Multistage.Proofs.Node.Used

/-!
# What a solve solves

A solve fixes the incoming copies, lets the noise assign its fields, installs the objective if it is
new, and then solves. What the program of the subproblem consists of below the constraints of the
cuts depends on the state and the noise alone, whatever was done to the node before.

## Main definitions

- `Node.contentFrom`: what the fields of the node that was built hold for an incoming state.
- `Node.Ready`: a node in use that is ready to be solved.
- `Node.Solved`: what a solve that succeeds leaves and answers.
- `Node.pose`, `Node.conclude`: a solve up to its program, and from there on.

## Main statements

- `Node.triple_pose`, `Node.triple_conclude`: the two parts of a solve.
- `Node.triple_solve`: a solve of a node in use.
-/

namespace Multistage

namespace Node

/-- What the fields hold when the incoming copies are fixed to a state. -/
def contentFrom (start : Node ℚ) (state : State ℚ) : Field → Content
  | .fixed i =>
    match start.stage.states.entries.find? fun s => s.2.incoming.index == i with
    | some s => .number (state.get? s.1)
    | none => start.stage.content (.fixed i)
  | f => start.stage.content f

/-- The cuts and their constraints are the same. -/
structure SameCuts (start n n' : Node ℚ) : Prop where
  cuts : n'.cuts = n.cuts
  rows : n'.stage.subproblem.constraints.drop start.rowCount =
    n.stage.subproblem.constraints.drop start.rowCount

/-- The node is ready to be solved for an incoming state and a realization of the noise. An
objective that is not affine is never installed. -/
structure Ready (sense : Sense) (start : Node ℚ) (rows : List (Constraint ℚ)) (state : State ℚ)
    (noise : Datum ℚ) (m : Node ℚ) : Prop extends Used sense start rows m where
  incoming : ∀ s ∈ start.stage.states.entries, ∃ x, state.get? s.1 = some x
  assigned : ∃ as, start.stage.Assigned noise as ∧ ∀ f, f.Below start.rowCount →
    m.stage.content f = overwrite (start.contentFrom state) as f
  posed : (∃ describe e, m.stage.objective.toAffine describe = .ok e ∧
      m.stage.subproblem.sense = sense ∧
      m.stage.subproblem.objective = e.add (Affine.ofVariable start.cuts.term)) ∨
    (¬start.stage.Assignable .objective ∧
      (∀ describe e, start.stage.objective.toAffine describe ≠ .ok e) ∧
      m.stage.subproblem.sense = start.stage.subproblem.sense ∧
      m.stage.subproblem.objective = start.stage.subproblem.objective)

/-- What a solve of a node that was ready leaves and answers. -/
structure Solved (solver : Solver ℚ) (needsDuals : Bool) (m : Node ℚ) (answer : Solution ℚ)
    (n' : Node ℚ) : Prop where
  node_eq : n' = m.withSubproblem n'.stage.subproblem
  optimize : Subproblem.optimize solver m.stage.subproblem = .ok () n'.stage.subproblem
  primal : n'.stage.subproblem.primal = .feasiblePoint
  objective : n'.stage.subproblem.optimum? = some answer.objective
  outgoing : n'.outgoing = .ok answer.outgoing
  stageObjective : n'.stage.objectiveValue = .ok answer.stageObjective
  duals : needsDuals = true → n'.incomingDuals = .ok answer.duals

variable {sense : Sense} {start n n' m : Node ℚ} {rows : List (Constraint ℚ)} {state : State ℚ}
  {noise : Datum ℚ} {solver : Solver ℚ}

theorem SameCuts.refl (start n : Node ℚ) : SameCuts start n n := ⟨rfl, rfl⟩

theorem SameCuts.trans {n'' : Node ℚ} (h : SameCuts start n n') (h' : SameCuts start n' n'') :
    SameCuts start n n'' :=
  ⟨h'.cuts.trans h.cuts, h'.rows.trans h.rows⟩

/-! ### Fixing the incoming copies -/

/-- Other values for fixed variables, of which those of the incoming copies may be any. -/
theorem Used.withFixed (h : Used sense start rows n) {d : Dict ℕ ℚ} (hd : d.Distinct)
    (hget : ∀ i, (∀ s ∈ start.stage.states.entries, i ≠ s.2.incoming.index) →
      d.get? i = n.stage.subproblem.fixed.get? i) :
    Used sense start rows (n.withSubproblem { n.stage.subproblem with fixed := d }) :=
  { h with
    distinct := hd
    content := fun f hf hassigned hincoming => by
      rw [← h.content f hf hassigned hincoming]
      cases f with
      | fixed i =>
        exact congrArg Content.number (hget i fun s hs heq => hincoming s hs (by rw [heq]))
      | _ => rfl }

theorem triple_setIncoming (hb : start.Blank) (h : Used sense start rows n) :
    Action.Triple (· = n) (setIncoming state)
      (fun _ n' => Used sense start rows n' ∧ SameCuts start n n' ∧
        (∀ s ∈ start.stage.states.entries, ∃ x, state.get? s.1 = some x) ∧
        ∀ f, f.Below start.rowCount → ¬start.stage.Assignable f →
          n'.stage.content f = start.contentFrom state f)
      fun n' => Used sense start rows n' ∧ SameCuts start n n' := by
  have placed := hb.placed
  -- the copies before the one that is next are fixed, and nothing but incoming copies was
  let I : List (Name × StateVariable) → Node ℚ → Prop := fun before n' =>
    ∃ d : Dict ℕ ℚ, n' = n.withSubproblem { n.stage.subproblem with fixed := d } ∧ d.Distinct ∧
      (∀ s ∈ before, ∃ x, state.get? s.1 = some x ∧ d.get? s.2.incoming.index = some x) ∧
      ∀ i, (∀ s ∈ start.stage.states.entries, i ≠ s.2.incoming.index) →
        d.get? i = n.stage.subproblem.fixed.get? i
  refine .get_bind ?_
  rintro n rfl
  rw [h.states_eq]
  refine (Action.Triple.forM_prefix (I := I) (E := I []) fun before b after hentries =>
    ?_).consequence
    ?_ ?_ ?_
  · refine .of_forall ?_
    rintro _ ⟨d, rfl, hd, hbefore, helse⟩
    have hmem : b ∈ start.stage.states.entries := by rw [hentries]; simp
    refine .bind (Q := fun x n' => state.get? b.1 = some x ∧
      n' = n.withSubproblem { n.stage.subproblem with fixed := d }) (.ofOption ?_ ?_) fun x => ?_
    · rintro x _ hx rfl
      exact ⟨hx, rfl⟩
    · rintro _ - rfl
      exact ⟨d, rfl, hd, nofun, helse⟩
    refine .of_forall ?_
    rintro _ ⟨hx, rfl⟩
    refine (triple_onSubproblem (Subproblem.triple_atVariable _)).consequence (fun _ => id) ?_ ?_
    · rintro - _ ⟨_, rfl, rfl⟩
      refine ⟨d.insert b.2.incoming.index x, rfl, hd.insert, fun s hs => ?_, fun i hi => ?_⟩
      · rw [Dict.get?_insert]
        -- an equal copy is that of the same state, so that those before keep their values
        by_cases hsb : b.2.incoming.index = s.2.incoming.index
        · have hs' : s ∈ start.stage.states.entries := by
            rw [hentries]
            rcases List.mem_append.1 hs with hs | hs
            · exact List.mem_append_left _ hs
            · rw [List.mem_singleton.1 hs]
              simp
          have same : b = s := placed.eq_of_mem_indices hmem hs' (i := b.2.incoming.index)
            (by simp [StateVariable.indices]) (by simp [StateVariable.indices, hsb])
          subst same
          exact ⟨x, hx, by simp⟩
        · rw [if_neg (by simpa using hsb)]
          rcases List.mem_append.1 hs with hs | hs
          · exact hbefore s hs
          · exact absurd (by rw [List.mem_singleton.1 hs]) hsb
      · rw [Dict.get?_insert, if_neg (by simpa using (hi b hmem).symm)]
        exact helse i hi
    · rintro _ ⟨_, rfl, rfl⟩
      exact ⟨d, rfl, hd, nofun, helse⟩
  · rintro n rfl
    exact ⟨n.stage.subproblem.fixed, rfl, h.distinct, nofun, fun _ _ => rfl⟩
  · rintro - _ ⟨d, rfl, hd, hfixed, helse⟩
    refine ⟨h.withFixed hd helse, ⟨rfl, rfl⟩, fun s hs => ?_, fun f hf hassigned => ?_⟩
    · obtain ⟨x, hx, -⟩ := hfixed s hs
      exact ⟨x, hx⟩
    · cases f with
      | fixed i =>
        show Content.number (d.get? i) = _
        rw [contentFrom]
        split
        next s hs =>
          obtain ⟨x, hx, hget⟩ := hfixed s (List.mem_of_find?_eq_some hs)
          have hi : s.2.incoming.index = i := by simpa using List.find?_some hs
          rw [← hi, hget, hx]
        next hnone =>
          have other : ∀ s ∈ start.stage.states.entries, i ≠ s.2.incoming.index := by
            intro s hs heq
            simpa [heq] using List.find?_eq_none.1 hnone s hs
          -- what is no incoming copy is not touched
          rw [helse i other]
          exact h.content (.fixed i) hf hassigned fun s hs heq => other s hs (Field.fixed.inj heq)
      | _ => exact h.content _ hf hassigned fun _ _ hfixed => by cases hfixed
  · rintro _ ⟨d, rfl, hd, -, helse⟩
    exact ⟨h.withFixed hd helse, rfl, rfl⟩

/-! ### Applying the noise -/

theorem Used.assignable_iff (h : Used sense start rows n) {f : Field} :
    n.stage.Assignable f ↔ start.stage.Assignable f := by
  have declared : n.stage.declaration = start.stage.declaration := congrArg (·.stage) h.declaration
  unfold Stage.Assignable
  rw [h.edits_eq]
  simp only [Edit.field_of_declaration_eq declared]

/-- A realization of the noise changes what it may assign. -/
theorem Used.withStage (hb : start.Blank) (h : Used sense start rows n) {s : Stage ℚ}
    (hframe : n.stage.SameFrame s)
    (hcontent : ∀ f, ¬n.stage.Assignable f → s.content f = n.stage.content f) :
    Used sense start rows { n with stage := s } ∧ SameCuts start n { n with stage := s } := by
  -- later constraints have no names, so that no edit changes them
  have tail : s.subproblem.constraints.drop start.rowCount =
      n.stage.subproblem.constraints.drop start.rowCount := by
    apply List.ext_getElem?
    intro i
    rw [List.getElem?_drop, List.getElem?_drop]
    refine hframe.unnamed _ fun name k hk => ?_
    have := h.named_lt hb hk
    omega
  refine ⟨?_, rfl, tail⟩
  exact {
    declaration := by
      rw [← h.declaration]
      show ({ n with stage := s.declaration, cuts := _ } : Node ℚ) = _
      rw [hframe.declaration]
      rfl
    distinct := hframe.distinct h.distinct
    lower_length := hframe.lower_length.trans h.lower_length
    upper_length := hframe.upper_length.trans h.upper_length
    rowCount_le := by
      rw [rowCount, rowCount, hframe.length_constraints]
      exact h.rowCount_le
    kind := fun i hi => by
      rw [← h.kind i hi, ← List.getElem?_map, ← List.getElem?_map, hframe.kinds]
    content := fun f hf hassigned hincoming => by
      rw [← h.content f hf hassigned hincoming]
      exact hcontent f (mt h.assignable_iff.1 hassigned)
    objective := fun hi describe e he => by
      obtain ⟨hi, ho⟩ := hframe.installed hi
      rw [hframe.sense, hframe.objective]
      rw [ho] at he
      exact h.objective hi describe e he
    unset := fun hassigned haffine => by
      rw [hframe.sense, hframe.objective]
      exact h.unset hassigned haffine
    rows := by
      rw [tail]
      exact h.rows
    installed := h.installed }

/-- Applying a realization of the noise after the incoming copies were fixed. -/
theorem triple_onStage_applyNoise (hb : start.Blank) (h : Used sense start rows n)
    (hcontent : ∀ f, f.Below start.rowCount → ¬start.stage.Assignable f →
      n.stage.content f = start.contentFrom state f) :
    Action.Triple (· = n) (onStage (Stage.applyNoise noise))
      (fun _ n' => Used sense start rows n' ∧ SameCuts start n n' ∧
        (start.stage.Assignable .objective → n'.stage.objectiveInstalled = false) ∧
        ∃ as, start.stage.Assigned noise as ∧ ∀ f, f.Below start.rowCount →
          n'.stage.content f = overwrite (start.contentFrom state) as f)
      fun n' => Used sense start rows n' ∧ SameCuts start n n' := by
  have declared : start.stage.declaration = n.stage.declaration :=
    (congrArg (·.stage) h.declaration).symm
  refine (Action.Triple.focus (Stage.triple_applyNoise h.distinct (h.rowsExist hb))).consequence
    (fun _ => id) ?_ ?_
  · rintro _ _ ⟨s, rfl, hframe, hobjective, as, has, hs⟩
    have fields : ∀ {f}, f ∈ as.map (·.1) ↔ n.stage.Assignable f := Stage.mem_fields_iff has
    obtain ⟨used, same⟩ := h.withStage hb hframe fun f hf => by
      rw [hs, overwrite_of_notMem (mt fields.1 hf)]
    have assigned : start.stage.Assigned noise as := by
      unfold Stage.Assigned at has ⊢
      rw [← h.edits_eq]
      exact has.imp fun edit a ha => ha.of_declaration_eq declared
    refine ⟨used, same, fun ha => hobjective (h.assignable_iff.2 ha), as, assigned, fun f hf => ?_⟩
    show s.content f = _
    rw [hs]
    refine overwrite_congr ?_
    by_cases ha : n.stage.Assignable f
    · exact .inl (fields.2 ha)
    · exact .inr (hcontent f hf (mt h.assignable_iff.2 ha))
  · rintro _ ⟨s, rfl, hframe, hs⟩
    exact h.withStage hb hframe hs

/-! ### Installing the objective -/

/-- Installing the objective. An objective that is not affine counts as installed all the same. -/
theorem triple_installObjective (n : Node ℚ) :
    Action.Triple (· = n) (installObjective sense)
      (fun _ n' => ∃ describe e, n.stage.objective.toAffine describe = .ok e ∧
        n' = { n with stage := { n.stage with
          objectiveInstalled := true
          subproblem := { n.stage.subproblem with
            sense := sense
            objective := e.add (Affine.ofVariable n.cuts.term) } } })
      fun n' => (∀ describe e, n.stage.objective.toAffine describe ≠ .ok e) ∧
        n' = { n with stage := { n.stage with objectiveInstalled := true } } := by
  refine .bind (.modify (Q := fun _ n' =>
    n' = { n with stage := { n.stage with objectiveInstalled := true } }) ?_) fun _ => .get_bind ?_
  · rintro _ rfl
    rfl
  rintro _ rfl
  -- the flag is set before it is known whether the objective is affine
  cases he : n.stage.objective.toAffine n.stage.subproblem.describe with
  | ok e =>
    simp only [Action.ofExcept, pure_bind]
    refine (triple_onSubproblem_modify _ _).consequence (fun _ => id) ?_ fun _ => False.elim
    rintro _ _ rfl
    exact ⟨n.stage.subproblem.describe, e, he, rfl⟩
  | error cause =>
    rintro _ rfl
    refine ⟨fun describe e h => ?_, rfl⟩
    have : n.stage.objective.toAffine n.stage.subproblem.describe = .ok e :=
      Operand.toAffine_of_describe h
    rw [he] at this
    cases this

/-- Installing the objective of a node in use, after a realization of the noise was applied. -/
theorem ready_installObjective (h : Used sense start rows n)
    (hincoming : ∀ s ∈ start.stage.states.entries, ∃ x, state.get? s.1 = some x)
    (hassigned : ∃ as, start.stage.Assigned noise as ∧ ∀ f, f.Below start.rowCount →
      n.stage.content f = overwrite (start.contentFrom state) as f) :
    Action.Triple (· = n) (installObjective sense)
      (fun _ m => Ready sense start rows state noise m ∧ SameCuts start n m)
      fun m => Used sense start rows m ∧ SameCuts start n m := by
  -- an objective that the noise does not assign is the one that was built
  have fixed : ¬start.stage.Assignable .objective → n.stage.objective = start.stage.objective := by
    intro ha
    have := h.content .objective trivial ha fun _ _ => nofun
    exact Content.operand.inj this
  refine (triple_installObjective n).consequence (fun _ => id) ?_ ?_
  · rintro _ _ ⟨describe, e, he, rfl⟩
    rw [h.term_eq]
    refine ⟨⟨{ h with
      content := fun f hf ha hi => ?_
      objective := fun _ describe' e' he' => ?_
      unset := fun ha haffine => ?_ }, hincoming, ?_, ?_⟩, rfl, rfl⟩
    · rw [← h.content f hf ha hi]
      cases f <;> rfl
    · have same := he.symm.trans (Operand.toAffine_of_describe he')
      cases same
      exact ⟨rfl, rfl⟩
    · rw [fixed ha] at he
      exact absurd he (haffine describe e)
    · obtain ⟨as, has, hcontent⟩ := hassigned
      refine ⟨as, has, fun f hf => ?_⟩
      rw [← hcontent f hf]
      cases f <;> rfl
    · exact .inl ⟨describe, e, he, rfl, rfl⟩
  · rintro _ ⟨haffine, rfl⟩
    refine ⟨{ h with
      content := fun f hf ha hi => ?_
      objective := fun _ describe e he => absurd he (haffine describe e) }, rfl, rfl⟩
    rw [← h.content f hf ha hi]
    cases f <;> rfl

/-! ### Posing -/

/-- What a solve does before the program is solved. -/
def pose (sense : Sense) (state : State ℚ) (noise : Datum ℚ) : Action ℚ (Node ℚ) Unit := do
  setIncoming state
  onStage (Stage.applyNoise noise)
  if !(← get).stage.objectiveInstalled then installObjective sense

/-- Reading the answer of a node that is ready, after its program is solved. -/
def conclude (solver : Solver ℚ) (needsDuals : Bool) : Action ℚ (Node ℚ) (Solution ℚ) := do
  onSubproblem (Subproblem.optimize solver)
  let n ← get
  let p := n.stage.subproblem
  if p.primal != .feasiblePoint then
    throw (.unsolved n.stage.index p.termination p.primal p.dual)
  let duals ← Action.ofExcept (if needsDuals then n.incomingDuals else .ok Dict.empty)
  let outgoing ← Action.ofExcept n.outgoing
  let stageObjective ← Action.ofExcept n.stage.objectiveValue
  let objective ← Action.ofOption (.noSolution p.label) p.optimum?
  return ⟨outgoing, duals, stageObjective, objective⟩

theorem solve_eq (sense : Sense) (needsDuals : Bool) :
    solve solver sense state noise needsDuals = pose sense state noise >>= fun _ =>
      conclude solver needsDuals := by
  unfold solve pose conclude
  simp only [bind_assoc]
  refine congrArg _ (funext fun _ => congrArg _ (funext fun _ => congrArg _ (funext fun n => ?_)))
  split
  · rfl
  · rfl

/-! ### Solving -/

theorem Used.withOutcome (h : Used sense start rows n) (o : Outcome ℚ) :
    Used sense start rows (n.withSubproblem (n.stage.subproblem.withOutcome o)) ∧
      SameCuts start n (n.withSubproblem (n.stage.subproblem.withOutcome o)) := by
  have same : ∀ f, (n.withSubproblem (n.stage.subproblem.withOutcome o)).stage.content f =
      n.stage.content f := by
    intro f
    cases o <;> cases f <;> rfl
  refine ⟨{ h with
    declaration := ?_
    distinct := ?_
    lower_length := ?_
    upper_length := ?_
    rowCount_le := ?_
    kind := ?_
    content := fun f hf ha hi => (same f).trans (h.content f hf ha hi)
    objective := ?_
    unset := ?_
    rows := ?_ }, rfl, ?_⟩
  · cases o <;> exact h.declaration
  · cases o <;> exact h.distinct
  · cases o <;> exact h.lower_length
  · cases o <;> exact h.upper_length
  · cases o <;> exact h.rowCount_le
  · cases o <;> exact h.kind
  · cases o <;> exact h.objective
  · cases o <;> exact h.unset
  · cases o <;> exact h.rows
  · cases o <;> rfl

/-- A node whose objective was installed before is ready without installing it again. -/
theorem Used.ready (h : Used sense start rows n) (hinstalled : n.stage.objectiveInstalled = true)
    (hobjective : start.stage.Assignable .objective → n.stage.objectiveInstalled = false)
    (hincoming : ∀ s ∈ start.stage.states.entries, ∃ x, state.get? s.1 = some x)
    (hassigned : ∃ as, start.stage.Assigned noise as ∧ ∀ f, f.Below start.rowCount →
      n.stage.content f = overwrite (start.contentFrom state) as f) :
    Ready sense start rows state noise n := by
  refine ⟨h, hincoming, hassigned, ?_⟩
  have ha : ¬start.stage.Assignable .objective := fun ha => by
    rw [hobjective ha] at hinstalled
    cases hinstalled
  by_cases haffine : ∀ describe e, start.stage.objective.toAffine describe ≠ .ok e
  · exact .inr ⟨ha, haffine, h.unset ha haffine⟩
  · simp only [not_forall, not_not] at haffine
    obtain ⟨describe, e, he⟩ := haffine
    have same : n.stage.objective = start.stage.objective :=
      Content.operand.inj (h.content .objective trivial ha fun _ _ => nofun)
    rw [← same] at he
    exact .inl ⟨describe, e, he, h.objective hinstalled describe e he⟩

/-- Solving the subproblem of a node that is ready, and reading the answer. -/
theorem triple_conclude (h : Used sense start rows m) (needsDuals : Bool) :
    Action.Triple (· = m) (conclude solver needsDuals)
      (fun answer n' => (Used sense start rows n' ∧ SameCuts start m n') ∧
        Solved solver needsDuals m answer n')
      fun n' => Used sense start rows n' ∧ SameCuts start m n' := by
  have optimized : Action.Triple (· = m.stage.subproblem) (Subproblem.optimize solver)
      (fun _ p' => Subproblem.optimize solver m.stage.subproblem = .ok () p')
      (· = m.stage.subproblem) := by
    refine .of_cases ?_ ?_
    · rintro _ ⟨⟩ p' rfl hr
      exact hr
    · rintro _ e p' rfl hr
      have run : EStateM.bind (Action.ofExcept m.stage.subproblem.program)
        (fun program => set (m.stage.subproblem.withOutcome (solver program)))
          m.stage.subproblem = .error e p' := hr
      cases hp : m.stage.subproblem.program with
      | error _ =>
        rw [hp] at run
        cases run
        rfl
      | ok program =>
        rw [hp] at run
        cases run
  refine .bind ((triple_onSubproblem optimized).consequence (fun _ => id) (fun _ _ => id) ?_)
    fun _ => .get_bind ?_
  · rintro _ ⟨_, rfl, rfl⟩
    exact ⟨h, rfl, rfl⟩
  rintro _ ⟨p', rfl, hoptimize⟩
  have kept : Used sense start rows (m.withSubproblem p') ∧
      SameCuts start m (m.withSubproblem p') := by
    obtain ⟨program, -, rfl⟩ := Subproblem.optimize_eq_ok hoptimize
    exact h.withOutcome (solver program)
  have failed : ∀ t, t = m.withSubproblem p' → Used sense start rows t ∧ SameCuts start m t := by
    rintro _ rfl
    exact kept
  refine .refuse (b := ()) failed fun hprimal => ?_
  refine .ofExcept_bind (fun duals hduals => ?_) failed
  refine .ofExcept_bind (fun outgoing houtgoing => ?_) failed
  refine .ofExcept_bind (fun stageObjective hstage => ?_) failed
  refine .bind (Q := fun objective t => t = m.withSubproblem p' ∧ p'.optimum? = some objective)
    (.ofOption (fun objective t ho ht => ⟨ht, ho⟩) fun t _ => failed t) fun objective => .pure ?_
  rintro _ ⟨rfl, hobjective⟩
  refine ⟨kept, rfl, hoptimize, ?_, hobjective, houtgoing, hstage, fun hneeds => ?_⟩
  · simpa using hprimal
  · rw [if_pos hneeds] at hduals
    exact hduals

/-- A node in use that is posed is ready. -/
theorem triple_pose (hb : start.Blank) (h : Used sense start rows n) :
    Action.Triple (· = n) (pose sense state noise)
      (fun _ m => Ready sense start rows state noise m ∧ SameCuts start n m)
      fun n' => Used sense start rows n' ∧ SameCuts start n n' := by
  refine .bind (triple_setIncoming hb h) fun _ => .of_forall ?_
  rintro n₁ ⟨h₁, same₁, hincoming, hcontent⟩
  refine .bind ((triple_onStage_applyNoise hb h₁ hcontent).consequence
    (fun _ => id) (fun _ _ => id) fun n' hn' => ⟨hn'.1, same₁.trans hn'.2⟩) fun _ => .get_bind ?_
  rintro n₂ ⟨h₂, same₂, hobjective, hassigned⟩
  have same : SameCuts start n n₂ := same₁.trans same₂
  refine .ite (fun _ => ?_) fun hinstalled => .pure ?_
  · exact (ready_installObjective h₂ hincoming hassigned).consequence (fun _ => id)
      (fun _ m hm => ⟨hm.1, same.trans hm.2⟩) fun m hm => ⟨hm.1, same.trans hm.2⟩
  · rintro n₂ rfl
    have hinstalled : n₂.stage.objectiveInstalled = true := by simpa using hinstalled
    exact ⟨h₂.ready hinstalled hobjective hincoming hassigned, same⟩

/-- A solve of a node in use: what it solves was ready. -/
theorem triple_solve (hb : start.Blank) (h : Used sense start rows n) (needsDuals : Bool) :
    Action.Triple (· = n) (solve solver sense state noise needsDuals)
      (fun answer n' => (Used sense start rows n' ∧ SameCuts start n n') ∧
        ∃ m, Ready sense start rows state noise m ∧ SameCuts start n m ∧
          Solved solver needsDuals m answer n')
      fun n' => Used sense start rows n' ∧ SameCuts start n n' := by
  rw [solve_eq]
  refine .bind (triple_pose hb h) fun _ => .of_forall ?_
  rintro m ⟨hm, same⟩
  exact (triple_conclude hm.toUsed needsDuals).consequence (fun _ => id)
    (fun answer n' hn' => ⟨⟨hn'.1.1, same.trans hn'.1.2⟩, m, hm, same, hn'.2⟩)
    fun n' hn' => ⟨hn'.1, same.trans hn'.2⟩

end Node

end Multistage
