import Multistage.Stage
import Multistage.Proofs.Action
import Multistage.Proofs.Linear.Assembly

/-!
# Stages that were built

However a stage is declared, names stand for variables and constraints that exist, constraints are
over variables that exist, and the copies of the states are different variables.

## Main definitions

- `Stage.Tidy`: a stage whose handles point to the first variables.

## Main statements

- `Stage.tidy_build`: the stages that are built are tidy.
-/

namespace Multistage

/-- The variables of a state. -/
def StateVariable.indices (s : StateVariable) : List ℕ := [s.incoming.index, s.outgoing.index]

/-- All that a stage refers to are its constraints and the first of its variables, its numbers are
as they were declared, and it was not solved yet. -/
structure Stage.Tidy (count : ℕ) (s : Stage ℚ) : Prop where
  count_le : count ≤ s.subproblem.names.length
  lower_length : s.subproblem.lower.length = s.subproblem.names.length
  upper_length : s.subproblem.upper.length = s.subproblem.names.length
  registered : ∀ name o, s.subproblem.registry.get? name = some o →
    o.Within s.subproblem.owner count s.subproblem.constraints.length
  coefficients : ∀ c ∈ s.subproblem.constraints, ∀ i a, c.coefficients.get? i = some a → i < count
  copies : ∀ e ∈ s.states.entries,
    e.2.incoming.Within s.subproblem.owner count ∧ e.2.outgoing.Within s.subproblem.owner count
  indices_nodup : (s.states.entries.flatMap fun e => e.2.indices).Nodup
  distinct : s.states.Distinct
  fixed_eq : s.subproblem.fixed = Dict.empty
  installed : s.objectiveInstalled = false
  objective : s.objective.Within s.subproblem.owner count s.subproblem.constraints.length
  cost_eq : s.subproblem.objective = Affine.ofScalar 0
  point_eq : s.subproblem.point? = none
  optimum_eq : s.subproblem.optimum? = none
  duals_eq : s.subproblem.fixedDuals = Dict.empty

namespace Stage

variable {s : Stage ℚ} {count : ℕ}

theorem tidy_empty (index : Datum ℚ) (owner : ℕ) : (empty index owner).Tidy 0 where
  count_le := le_rfl
  lower_length := rfl
  upper_length := rfl
  registered := nofun
  coefficients := nofun
  copies := nofun
  indices_nodup := List.nodup_nil
  distinct := List.Pairwise.nil
  fixed_eq := rfl
  installed := rfl
  objective := trivial
  cost_eq := rfl
  point_eq := rfl
  optimum_eq := rfl
  duals_eq := rfl

/-- Names stand for what is registered and for copies of registered states. -/
theorem lookup_within {owner constraints : ℕ} (hregistered : ∀ name o,
      s.subproblem.registry.get? name = some o → o.Within owner count constraints)
    {name : Name} {o : Operand ℚ} (ho : s.lookup name = .ok o) :
    o.Within owner count constraints := by
  have registered : ∀ {name : Name} {o : Operand ℚ}, s.subproblem.lookup name = .ok o →
      o.Within owner count constraints := by
    intro name o ho
    unfold Subproblem.lookup at ho
    split at ho
    · cases ho
    · exact hregistered name o (Except.elim_eq_ok.1 ho)
  unfold lookup at ho
  cases name with
  | text t =>
    simp only at ho
    split at ho
    next suffix copy hfind =>
      obtain ⟨found, hfound, ho⟩ := Except.bind_eq_ok.1 ho
      cases found with
      | state copies =>
        cases ho
        have within := registered hfound
        rcases List.mem_cons.1 (List.mem_of_find?_eq_some hfind) with heq | hmem
        · cases heq
          exact within.1
        · cases List.mem_singleton.1 hmem
          exact within.2
      | _ => cases ho
    · exact registered ho
  | _ => cases ho

theorem Tidy.lookup_within (h : s.Tidy count) {name : Name} {o : Operand ℚ}
    (ho : s.lookup name = .ok o) :
    o.Within s.subproblem.owner count s.subproblem.constraints.length :=
  Stage.lookup_within h.registered ho

theorem Tidy.eval_within (h : s.Tidy count) {f : Formula ℚ} {noise : Datum ℚ} {o : Operand ℚ}
    (ho : f.eval (s.scope noise) = .ok o) :
    o.Within s.subproblem.owner count s.subproblem.constraints.length :=
  Formula.eval_within (fun _ _ => h.lookup_within) ho

/-- One more variable, and a registry that may know it. -/
theorem Tidy.pushVariable (h : s.Tidy count) {count' : ℕ} (hle : count ≤ count')
    (hle' : count' ≤ s.subproblem.names.length + 1) (name : Name) (l u : Extended ℚ)
    (registry : Dict Name (Operand ℚ))
    (hregistry : ∀ key o, registry.get? key = some o → s.subproblem.registry.get? key = some o ∨
      o.Within s.subproblem.owner count' s.subproblem.constraints.length) :
    ({ s with subproblem := { s.subproblem with
        names := s.subproblem.names ++ [name]
        lower := s.subproblem.lower ++ [l]
        upper := s.subproblem.upper ++ [u]
        registry := registry } } : Stage ℚ).Tidy count' where
  count_le := by simpa using hle'
  lower_length := by simp [h.lower_length]
  upper_length := by simp [h.upper_length]
  registered := fun key o ho => by
    rcases hregistry key o ho with hold | hnew
    · exact (h.registered key o hold).mono hle le_rfl
    · exact hnew
  coefficients := fun c hc i a ha => lt_of_lt_of_le (h.coefficients c hc i a ha) hle
  copies := fun e he => ⟨(h.copies e he).1.mono hle, (h.copies e he).2.mono hle⟩
  indices_nodup := h.indices_nodup
  distinct := h.distinct
  fixed_eq := h.fixed_eq
  installed := h.installed
  objective := h.objective.mono hle le_rfl
  cost_eq := h.cost_eq
  point_eq := h.point_eq
  optimum_eq := h.optimum_eq
  duals_eq := h.duals_eq

/-! ### Declarations -/

/-- Everything that is declared is tidy. -/
def Declared (s : Stage ℚ) : Prop := s.Tidy s.subproblem.names.length

theorem declared_addVariable (name : Name) (lower upper : Except (Failure ℚ) (Extended ℚ))
    (hs : s.Declared) :
    Action.Triple (· = s) (onSubproblem (Subproblem.addVariable name lower upper))
      (fun v s' => s'.Declared ∧ v = ⟨s.subproblem.owner, s.subproblem.names.length, .ofName name⟩ ∧
        s'.subproblem.owner = s.subproblem.owner ∧ s'.states = s.states ∧
        s'.subproblem.names.length = s.subproblem.names.length + 1) fun _ => True := by
  refine (Action.Triple.focus (Subproblem.triple_addVariable s.subproblem lower upper)).consequence
    (fun _ => id) ?_ fun _ _ => trivial
  rintro v _ ⟨p', rfl, l, u, registry, -, -, rfl, hregistry, rfl⟩
  refine ⟨?_, rfl, rfl, rfl, by simp⟩
  have tidy := Tidy.pushVariable hs (Nat.le_succ _) le_rfl name l u registry ?_
  · unfold Declared
    simpa using tidy
  · intro key o ho
    rcases hregistry with rfl | ⟨-, rfl⟩
    · exact .inl ho
    · rw [Dict.get?_insert] at ho
      split at ho
      · cases ho
        exact .inr ⟨rfl, Nat.lt_succ_self _⟩
      · exact .inl ho

theorem declared_register (name : Name) {o : Operand ℚ} (hs : s.Declared)
    (ho : o.Within s.subproblem.owner s.subproblem.names.length s.subproblem.constraints.length) :
    Action.Triple (· = s) (onSubproblem (Subproblem.register name o))
      (fun _ s' => s'.Declared ∧ s' = { s with subproblem := s'.subproblem } ∧
        s'.subproblem.owner = s.subproblem.owner ∧
        s'.subproblem.names = s.subproblem.names) fun _ => True := by
  refine (Action.Triple.focus (Subproblem.triple_register s.subproblem o)).consequence
    (fun _ => id) ?_ fun _ _ => trivial
  rintro _ _ ⟨p', rfl, rfl⟩
  refine ⟨{ hs with registered := fun key o' ho' => ?_ }, rfl, rfl, rfl⟩
  rw [Dict.get?_insert] at ho'
  split at ho'
  · cases ho'
    exact ho
  · exact hs.registered key o' ho'

/-- A state that is declared has two variables of its own. -/
theorem declared_addState (name : Name) (initial : Except (Failure ℚ) ℚ)
    (lower upper : Except (Failure ℚ) (Extended ℚ)) :
    Action.Triple Declared (addState name initial lower upper) (fun _ => Declared)
      fun _ => True := by
  refine .of_forall fun s hs => ?_
  unfold addState
  refine .refuse (b := ()) (fun _ _ => trivial) fun _ => .get_bind ?_
  rintro s rfl
  refine .refuse (b := ()) (fun _ _ => trivial) fun hnew => ?_
  have hnew : s.states.contains name = false := by simpa using hnew
  refine .bind (declared_addVariable _ _ _ hs) fun incoming => .of_forall ?_
  rintro s₁ ⟨hs₁, rfl, howner₁, hstates₁, hcount₁⟩
  refine .bind (declared_addVariable _ _ _ hs₁) fun outgoing => .of_forall ?_
  rintro s₂ ⟨hs₂, rfl, howner₂, hstates₂, hcount₂⟩
  rw [howner₁, hcount₁]
  have within : ∀ k label, k < s₂.subproblem.names.length →
      Variable.Within s₂.subproblem.owner s₂.subproblem.names.length
        ⟨s.subproblem.owner, k, label⟩ :=
    fun k label hk => ⟨(howner₂.trans howner₁).symm, hk⟩
  have hin := within s.subproblem.names.length (.ofName (incomingName name)) (by omega)
  have hout := within (s.subproblem.names.length + 1) (.ofName (outgoingName name)) (by omega)
  refine .bind (declared_register name hs₂ ⟨hin, hout⟩) fun _ => .of_forall ?_
  rintro s₃ ⟨hs₃, hs₃', howner₃, hnames₃⟩
  have hstates₃ : s₃.states = s.states := by rw [hs₃']; exact hstates₂.trans hstates₁
  refine .run rfl ?_
  refine .ofExcept_bind (fun x _ => .modify ?_) fun _ _ => trivial
  rintro _ rfl
  have entries : (s₃.states.insert name
      ⟨⟨s.subproblem.owner, s.subproblem.names.length, .ofName (incomingName name)⟩,
        ⟨s.subproblem.owner, s.subproblem.names.length + 1, .ofName (outgoingName name)⟩⟩).entries =
      s.states.entries ++ [(name,
        ⟨⟨s.subproblem.owner, s.subproblem.names.length, .ofName (incomingName name)⟩,
          ⟨s.subproblem.owner, s.subproblem.names.length + 1, .ofName (outgoingName name)⟩⟩)] := by
    rw [hstates₃, Dict.insert, hnew]
    rfl
  refine { hs₃ with copies := ?_, indices_nodup := ?_, distinct := hs₃.distinct.insert }
  · intro e he
    show e.2.incoming.Within s₃.subproblem.owner s₃.subproblem.names.length ∧
      e.2.outgoing.Within s₃.subproblem.owner s₃.subproblem.names.length
    rw [howner₃, hnames₃]
    rcases List.mem_append.1 (entries ▸ he) with he | he
    · have := hs₂.copies e (by rw [hstates₂, hstates₁]; exact he)
      exact this
    · rw [List.mem_singleton.1 he]
      exact ⟨hin, hout⟩
  · show ((s₃.states.insert name _).entries.flatMap fun e => e.2.indices).Nodup
    rw [entries, List.flatMap_append, List.nodup_append]
    refine ⟨hs.indices_nodup, by simp [StateVariable.indices], ?_⟩
    intro i hi j hj
    obtain ⟨e, he, hie⟩ := List.mem_flatMap.1 hi
    -- the variables of earlier states come before those of the new one
    have earlier : i < s.subproblem.names.length := by
      rcases List.mem_cons.1 hie with rfl | hie
      · exact (hs.copies e he).1.2
      · rw [List.mem_singleton.1 hie]
        exact (hs.copies e he).2.2
    simp only [List.flatMap_cons, List.flatMap_nil, List.append_nil, StateVariable.indices,
      List.mem_cons, List.not_mem_nil, or_false] at hj
    omega

theorem declared_evaluate (hs : s.Declared) (f : Formula ℚ) :
    Action.Triple (· = s) (evaluate f .null) (fun o s' => s' = s ∧
      o.Within s.subproblem.owner s.subproblem.names.length s.subproblem.constraints.length)
      fun _ => True := by
  refine .get_bind ?_
  rintro s rfl
  exact .ofExcept (fun o s' ho hs' => ⟨hs', hs.eval_within ho⟩) fun _ _ _ _ => trivial

/-- One more constraint over variables that exist, and a registry that may know it. -/
theorem declared_pushConstraint (hs : s.Declared) {k : Constraint ℚ}
    (hk : ∀ i a, k.coefficients.get? i = some a → i < s.subproblem.names.length) {name : Name}
    {registry : Dict Name (Operand ℚ)}
    (hregistry : registry = s.subproblem.registry ∨ registry = s.subproblem.registry.insert name
      (.constraint ⟨s.subproblem.owner, s.subproblem.constraints.length⟩)) :
    ({ s with subproblem := { s.subproblem with
        constraints := s.subproblem.constraints ++ [k]
        registry := registry } } : Stage ℚ).Declared := by
  have more : s.subproblem.constraints.length ≤ (s.subproblem.constraints ++ [k]).length := by simp
  refine { hs with registered := ?_, coefficients := ?_, objective := ?_ }
  · intro key o ho
    have old : s.subproblem.registry.get? key = some o →
        o.Within s.subproblem.owner s.subproblem.names.length
          (s.subproblem.constraints ++ [k]).length :=
      fun hold => (hs.registered key o hold).mono le_rfl more
    rcases hregistry with rfl | rfl
    · exact old ho
    · rw [Dict.get?_insert] at ho
      split at ho
      · cases ho
        show s.subproblem.constraints.length < (s.subproblem.constraints ++ [k]).length
        simp
      · exact old ho
  · intro c hc
    rcases List.mem_append.1 hc with hc | hc
    · exact hs.coefficients c hc
    · rw [List.mem_singleton.1 hc]
      exact hk
  · exact hs.objective.mono le_rfl more

/-- A constraint that is declared is over variables that exist. -/
theorem declared_declareConstraint (plan : ConstraintPlan ℚ) :
    Action.Triple Declared (declareConstraint plan) (fun _ => Declared) fun _ => True := by
  refine .of_forall fun s hs => ?_
  unfold declareConstraint
  refine .bind (declared_evaluate hs plan.lhs) fun l => .of_forall ?_
  rintro s ⟨rfl, hl⟩
  refine .bind (declared_evaluate hs plan.rhs) fun r => .of_forall ?_
  rintro s ⟨rfl, hr⟩
  refine .ofExcept_bind (fun relation _ => .get_bind ?_) fun _ _ => trivial
  rintro s rfl
  refine .ofExcept_bind (fun left hleft => ?_) fun _ _ => trivial
  refine .ofExcept_bind (fun right hright => ?_) fun _ _ => trivial
  have added : Action.Triple (· = s)
      (onSubproblem (Subproblem.addConstraint left relation right plan.name)) (fun _ => Declared)
        fun _ => True := by
    refine (Action.Triple.focus
      (Subproblem.triple_addConstraint s.subproblem left right relation)).consequence
      (fun _ => id) ?_ fun _ _ => trivial
    rintro _ _ ⟨p', rfl, k, registry, hk, hregistry, rfl⟩
    exact declared_pushConstraint hs (Subproblem.coefficients_constraintOf hk (hl.toAffine hleft)
      (hr.toAffine hright)) hregistry
  exact .bind added fun _ => .pure fun _ h => h

theorem declared_setObjective {o : Operand ℚ} (hs : s.Declared)
    (ho : o.Within s.subproblem.owner s.subproblem.names.length s.subproblem.constraints.length) :
    ({ s with objective := o, objectiveInstalled := false } : Stage ℚ).Declared :=
  { hs with objective := ho, installed := rfl }

theorem declared_declare (plan : StagePlan ℚ) :
    Action.Triple Declared (declare plan) (fun _ => Declared) fun _ => True := by
  have loop : ∀ {γ : Type} (items : List γ) (f : γ → Action ℚ (Stage ℚ) PUnit),
      (∀ c ∈ items, Action.Triple Declared (f c) (fun _ => Declared) fun _ => True) →
        Action.Triple Declared (items.forM f) (fun _ => Declared) fun _ => True := by
    intro γ items f h
    refine Action.Triple.forM_prefix (I := fun _ => Declared) fun before c after hitems => ?_
    exact h c (by rw [hitems]; simp)
  unfold declare
  refine .bind (loop _ _ fun s _ => declared_addState _ _ _ _) fun _ => ?_
  refine .bind (loop _ _ fun v _ => ?_) fun _ => ?_
  · refine .of_forall fun s hs => ?_
    exact .bind (declared_addVariable _ _ _ hs) fun _ => .pure fun _ h => h.1
  refine .bind (loop _ _ fun c _ => declared_declareConstraint c) fun _ => ?_
  have parameterized : ∀ n : List (Datum ℚ) × Option (List (Datum ℚ)),
      Action.Triple Declared (parameterize n.1 n.2 plan.edits) (fun _ => Declared)
        fun _ => True := by
    intro n
    refine .get_bind fun s hs => ?_
    refine .refuse (b := ()) (fun _ _ => trivial) fun _ => ?_
    refine .ofExcept_bind (fun ps _ => ?_) fun _ _ => trivial
    refine .ofExcept_bind (fun sum _ => ?_) fun _ _ => trivial
    refine .refuse (b := ()) (fun _ _ => trivial) fun _ => ?_
    refine .ofExcept_bind (fun qs _ => .modify ?_) fun _ _ => trivial
    rintro _ rfl
    exact { hs with }
  split
  · refine .of_forall fun s hs => .bind (declared_evaluate hs _) fun o => .of_forall ?_
    rintro s ⟨rfl, ho⟩
    refine .run rfl (Action.Triple.consequence (loop _ _ fun n _ => parameterized n) ?_
      (fun _ _ => id) fun _ => id)
    rintro _ rfl
    exact declared_setObjective hs ho
  · exact loop _ _ fun n _ => parameterized n

theorem declared_build {index : Datum ℚ} {owner : ℕ} {plan : StagePlan ℚ}
    (h : build index owner plan = .ok s) : s.Declared := by
  unfold build at h
  split at h
  next s' hrun =>
    have hs' : s'.Declared := (declared_declare plan).ok
      (show (empty index owner).Declared from tidy_empty index owner) hrun
    cases h
    split
    · exact { hs' with }
    · exact hs'
  next => cases h

end Stage

end Multistage
