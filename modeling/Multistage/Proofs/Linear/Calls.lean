import Multistage.Linear.Workspace
import Multistage.Proofs.Action
import Multistage.Proofs.Linear.Certified
import Multistage.Proofs.Linear.Declared

/-!
# Subproblems that calls have assembled

Whatever is called on a subproblem of a workspace, the subproblem keeps what was declared. So the
program that a solve hands to the solver is the declared one.

## Main definitions

- `SubproblemCall.run`: the call, on the subproblem at a place of a workspace.
- `Workspace.Assembled`: workspaces that successful calls lead to, with what was declared.

## Main statements

- `SubproblemCall.triple_run`: a call keeps what was declared.
- `Workspace.Assembled.implements`: so does a sequence of calls.
- `Workspace.Assembled.solves_declared`: the program that is solved is the one that was declared.
-/

namespace Multistage

theorem Relation.ofDatum_symbol (relation : Relation) :
    Relation.ofDatum (α := ℚ) (.text relation.symbol) = .ok relation := by
  cases relation <;> rfl

theorem Sense.ofDatum_word (sense : Sense) :
    Sense.ofDatum (α := ℚ) (.text sense.word) = .ok sense := by
  cases sense <;> rfl

/-! ### Actions on the subproblem at a place -/

theorem placeOf_natCast {length place : ℕ} (h : place < length) :
    placeOf length (place : ℤ) = some place := by
  have hneg : ¬(place : ℤ) < 0 := by omega
  have hin : (decide (0 ≤ (place : ℤ)) && decide ((place : ℤ) < length)) = true := by simp [h]
  simp only [placeOf, if_neg hneg, if_pos hin, Int.toNat_natCast]

namespace Workspace

variable {place : ℕ}

/-- The subproblem at the place has the property. -/
def At (place : ℕ) (P : Subproblem ℚ → Prop) (w : Workspace ℚ) : Prop :=
  ∃ p, w.subproblems[place]? = some p ∧ P p

theorem at_set {w : Workspace ℚ} {P : Subproblem ℚ → Prop} {p : Subproblem ℚ}
    (hplace : place < w.subproblems.length) (hp : P p) :
    At place P { w with subproblems := w.subproblems.set place p } :=
  ⟨p, List.getElem?_set_self hplace, hp⟩

theorem triple_onSubproblem {β : Type} {P : Subproblem ℚ → Prop} {Q : β → Subproblem ℚ → Prop}
    {act : Action ℚ (Subproblem ℚ) β}
    (h : ∀ p, P p → Action.Triple (· = p) act Q fun _ => True) :
    Action.Triple (At place P) (onSubproblem place act) (fun b => At place (Q b))
      fun _ => True := by
  rintro w ⟨p, hget, hp⟩
  have hplace : place < w.subproblems.length := (List.getElem?_eq_some_iff.1 hget).1
  have := h p hp p rfl
  simp only [onSubproblem, placeOf_natCast hplace, hget]
  cases hr : act p with
  | ok b p' =>
    rw [hr] at this
    exact at_set hplace this
  | error e p' => trivial

/-- The subproblem is left as it is while its variable is looked up. -/
theorem triple_onVariable {v : Variable} {P Q : Subproblem ℚ → Prop}
    {act : Variable → Action ℚ (Subproblem ℚ) Unit}
    (h : ∀ p, P p → Action.Triple (· = p) (act v) (fun _ => Q) fun _ => True) :
    Action.Triple (At place P) (onVariable place (.decision v) act) (fun _ => At place Q)
      fun _ => True :=
  triple_onSubproblem (Q := fun _ => Q) h

theorem triple_inspect {β : Type} {look : Subproblem ℚ → Except (Failure ℚ) β}
    {P : Subproblem ℚ → Prop} {Q : β → Subproblem ℚ → Prop}
    (h : ∀ p b, P p → look p = .ok b → Q b p) :
    Action.Triple (At place P) (inspect place look) (fun b => At place (Q b)) fun _ => True := by
  refine .of_forall fun w hw => ?_
  obtain ⟨p, hget, hp⟩ := hw
  have found : subproblem (place : ℤ) w = .ok p w := by
    have hplace : place < w.subproblems.length := (List.getElem?_eq_some_iff.1 hget).1
    show Action.ofOption .indexOutOfRange _ w = _
    rw [placeOf_natCast hplace, Option.bind_some, hget]
    rfl
  exact .run found (.ofExcept (fun b _ hb hw => hw ▸ ⟨p, hget, h p b hp hb⟩) fun _ _ _ _ => trivial)

theorem triple_editConstraint {h : ConstraintHandle} {edit : Constraint ℚ → Constraint ℚ}
    {P Q : Subproblem ℚ → Prop} (howner : h.owner = place)
    (hedit : ∀ p, P p → Q (p.editConstraint h.index edit)) :
    Action.Triple (At place P) (editConstraint h edit) (fun _ => At place Q) fun _ => True := by
  refine .modify ?_
  rintro w ⟨p, hget, hp⟩
  refine ⟨p.editConstraint h.index edit, ?_, hedit p hp⟩
  rw [List.getElem?_modify, howner, hget]
  simp

end Workspace

/-! ### Calls -/

namespace SubproblemCall

open Workspace

/-- The call, on the subproblem at a place. -/
def run (place : ℕ) : SubproblemCall → Action ℚ (Workspace ℚ) Unit
  | .addVariable name lower upper =>
    discard (onSubproblem place (Subproblem.addVariable name (.ok lower) (.ok upper)))
  | .setLower v bound => onVariable place (.decision v) fun v => Subproblem.setLower v bound
  | .setUpper v bound => onVariable place (.decision v) fun v => Subproblem.setUpper v bound
  | .fix v value => onVariable place (.decision v) fun v => Subproblem.fix v value
  | .unfix v => onVariable place (.decision v) Subproblem.unfix
  | .addConstraint lhs relation rhs name =>
    discard (Workspace.addConstraint place (.affine lhs) (.text relation.symbol) (.affine rhs) name)
  | .setCoefficient h v value =>
    discard (Workspace.setCoefficient place (.constraint h) (.decision v) (.real value))
  | .setRhs h value => discard (Workspace.setRhs (.constraint h) (.real value))
  | .deleteConstraint h => discard (Workspace.deleteConstraint (.constraint h))
  | .setObjective sense objective =>
    Workspace.setObjective place (.text sense.word) (.affine objective)
  | .optimize solver => onSubproblem place (Subproblem.optimize solver)

variable {place : ℕ} {d : DeclaredProblem}

/-- A call keeps what was declared. -/
theorem triple_run (howner : d.owner = place) {c : SubproblemCall} (hc : d.Permits c) :
    Action.Triple (At place (Subproblem.Implements · d)) (c.run place)
      (fun _ => At place (Subproblem.Implements · (d.after c))) fun _ => True := by
  cases c with
  | addVariable name lower upper =>
    obtain ⟨hlower, hupper⟩ := hc
    refine .discard (triple_onSubproblem fun p hp => ?_)
    refine (p.triple_addVariable _ _).consequence (fun _ => id) ?_ fun _ => id
    rintro _ _ ⟨_, _, registry, hl, hu, -, -, rfl⟩
    cases hl
    cases hu
    exact hp.addVariable name hlower hupper registry
  | setLower v bound =>
    refine triple_onVariable fun p hp => ?_
    refine (p.triple_setLower v bound).consequence (fun _ => id) ?_ fun _ _ => trivial
    rintro _ _ ⟨-, -, rfl⟩
    exact hp.setLower v hc.2
  | setUpper v bound =>
    refine triple_onVariable fun p hp => ?_
    refine (p.triple_setUpper v bound).consequence (fun _ => id) ?_ fun _ _ => trivial
    rintro _ _ ⟨-, -, rfl⟩
    exact hp.setUpper v hc.2
  | fix v value =>
    refine triple_onVariable fun p hp => ?_
    refine (Subproblem.triple_atVariable p).consequence (fun _ => id) ?_ fun _ _ => trivial
    rintro _ _ rfl
    exact hp.fix hc value
  | unfix v =>
    refine triple_onVariable fun p hp => ?_
    refine (Subproblem.triple_atVariable p).consequence (fun _ => id) ?_ fun _ _ => trivial
    rintro _ _ rfl
    exact hp.unfix v
  | addConstraint lhs relation rhs name =>
    refine .discard (.answered_bind (Relation.ofDatum_symbol relation) (.get_bind fun w hw => ?_))
    refine Action.Triple.startingAt (triple_onSubproblem fun p hp => ?_) hw
    refine (p.triple_addConstraint lhs rhs relation).consequence (fun _ => id) ?_ fun _ => id
    rintro _ _ ⟨k, registry, hk, -, rfl⟩
    exact hp.addConstraint hc.1 hc.2 hk registry
  | setCoefficient h v value =>
    obtain ⟨hh, hv⟩ := hc
    refine .discard (.answered_bind (b := value) rfl (.answered_bind (b := h) rfl
      (.answered_bind (b := v) rfl ?_)))
    refine .bind (Q := fun i => At place fun p => i = v.index ∧ p.Implements d) ?_ fun i => ?_
    · exact triple_inspect fun p i hp hi => ⟨(Subproblem.position_eq_ok hi).2, hp⟩
    · refine .bind (triple_editConstraint (hh.1.trans howner) ?_) fun _ => .pure fun _ => id
      rintro p ⟨rfl, hp⟩
      exact hp.editConstraint h fun c r hcr => hcr.editCoefficient (hp.owned v hv).2 value
  | setRhs h value =>
    refine .discard (.answered_bind (b := value) rfl (.answered_bind (b := h) rfl ?_))
    refine .bind (triple_editConstraint (hc.1.trans howner) fun p hp => ?_) fun _ =>
      .pure fun _ => id
    exact hp.editConstraint h fun c r hcr => hcr.editRhs value
  | deleteConstraint h =>
    refine .discard (.answered_bind (b := h) rfl ?_)
    refine .bind (triple_editConstraint (hc.1.trans howner) fun p hp => ?_) fun _ =>
      .pure fun _ => id
    exact hp.editConstraint h fun c r hcr => hcr.delete
  | setObjective sense objective =>
    refine .answered_bind (Sense.ofDatum_word sense) ?_
    -- the sense is set first, while the objective is still the old one
    refine .bind (Q := fun _ => At place fun p => ∃ q : Subproblem ℚ, q.Implements d ∧
        p = { q with sense := sense })
      (triple_onSubproblem fun p hp => .modify ?_) fun _ => .get_bind fun w hw => ?_
    · rintro _ rfl
      exact ⟨_, hp, rfl⟩
    · refine Action.Triple.startingAt (triple_onSubproblem fun p hp => .modify ?_) hw
      rintro _ rfl
      obtain ⟨q, hq, rfl⟩ := hp
      exact hq.setObjective sense hc
  | optimize solver =>
    refine triple_onSubproblem fun p hp => ?_
    refine .get_bind ?_
    rintro _ rfl
    exact .ofExcept_bind (fun program _ => .set fun _ _ => hp.withOutcome (solver program))
      fun _ _ => trivial

end SubproblemCall

/-! ### Sequences of calls -/

namespace Workspace

variable {place : ℕ} {w : Workspace ℚ} {d : DeclaredProblem}

/-- Calls that succeeded on the subproblem at the place led to the workspace, and this is what they
declared. -/
inductive Assembled (place : ℕ) : Workspace ℚ → DeclaredProblem → Prop
  | start {labels : List (Datum ℚ)} (hplace : place < labels.length) :
    Assembled place (ofLabels labels) (.empty place)
  | call {w w' : Workspace ℚ} {d : DeclaredProblem} {c : SubproblemCall} (h : Assembled place w d)
      (hc : d.Permits c) (hrun : c.run place w = .ok () w') : Assembled place w' (d.after c)

theorem Assembled.owner_eq (h : Assembled place w d) : d.owner = place := by
  induction h with
  | start => rfl
  | @call _ _ _ c _ _ _ ih => cases c <;> exact ih

/-- The subproblem keeps what was declared. -/
theorem Assembled.implements (h : Assembled place w d) :
    At place (Subproblem.Implements · d) w := by
  induction h with
  | @start labels hplace =>
    refine ⟨Subproblem.empty labels[place] place, ?_, .empty _ _⟩
    simp [ofLabels, hplace]
  | call h hc hrun ih => exact (SubproblemCall.triple_run h.owner_eq hc).ok ih hrun

/-- The program that is solved is the one that was declared: it exists once there are variables, its
points are the declared ones, and the optimal value that a sound solver finds is the best value of
the declared objective over them, which is also its value at the point that was found. -/
theorem Assembled.solves_declared (h : Assembled place w d) {p : Subproblem ℚ}
    (hp : w.subproblems[place]? = some p) :
    (d.handles ≠ [] → ∃ program, p.program = .ok program) ∧
      ∀ program, p.program = .ok program → (∀ z, program.Feasible z ↔ d.Feasible z) ∧
        ∀ solver : Solver ℚ, solver.Sound →
          ∃ p', Subproblem.optimize solver p = .ok () p' ∧ (p'.termination = .optimal →
            ∃ optimum, p'.optimum? = some optimum ∧
              (∃ z, d.Feasible z ∧ d.objective.value z = (optimum : ℚ)) ∧
              (∀ z, d.Feasible z → d.sense.AtMost ((optimum : ℚ) : ℝ) (d.objective.value z)) ∧
              p'.valueOf d.objective = .ok optimum) := by
  obtain ⟨q, hq, implements⟩ := h.implements
  obtain rfl : q = p := Option.some.inj (hq.symm.trans hp)
  exact ⟨implements.exists_program, fun program hprogram =>
    ⟨implements.feasible_iff hprogram, fun solver hsolver => implements.optimum hprogram hsolver⟩⟩

/-- The least value of `2 x + 5` for `x - 2 y ≥ 1` with `y` fixed to three, where the coefficient of
`y` was edited. -/
theorem Assembled.solves_declared_of_two_variables :
    ∃ w d p p', Assembled 0 w d ∧ w.subproblems[0]? = some p ∧
      (∃ program, p.program = .ok program ∧ ∀ z, program.Feasible z ↔ d.Feasible z) ∧
      Subproblem.optimize (Solver.certified fun _ => ⟨[7, 3], [-2], [4]⟩) p = .ok () p' ∧
      p'.optimum? = some 19 ∧ p'.valueOf d.objective = .ok 19 := by
  have none : Assembled 0 (ofLabels [.null]) (.empty 0) := .start Nat.one_pos
  have one := none.call (c := .addVariable (.text "x") (.finite 0) .posInf)
    ⟨.inr ⟨0, rfl⟩, .inl rfl⟩ rfl
  have two := one.call (c := .addVariable (.text "y") .negInf (.finite 4))
    ⟨.inl rfl, .inr ⟨4, rfl⟩⟩ rfl
  have hx : (⟨0, 0, .name "x"⟩ : Variable) ∈ [⟨0, 0, .name "x"⟩, ⟨0, 1, .name "y"⟩] :=
    List.mem_cons_self
  have hy : (⟨0, 1, .name "y"⟩ : Variable) ∈ [⟨0, 0, .name "x"⟩, ⟨0, 1, .name "y"⟩] :=
    List.mem_cons_of_mem _ List.mem_cons_self
  have related := two.call (c := .addConstraint _ .atLeast (Affine.ofScalar 1) .null)
    ⟨(Affine.IsOver.ofVariable hx).sub (.ofVariable hy), .ofScalar 1⟩ rfl
  have edited := related.call (c := .setCoefficient ⟨0, 0⟩ _ (-2)) ⟨⟨rfl, Nat.one_pos⟩, hy⟩ rfl
  have fixed := edited.call (c := .fix _ 3) hy rfl
  have complete := fixed.call (c := .setObjective .min _)
    (((Affine.IsOver.ofVariable hx).scale 2).add (.ofScalar 5)) rfl
  obtain ⟨hprogram, hsolve⟩ := complete.solves_declared rfl
  obtain ⟨program, hprogram⟩ := hprogram (List.cons_ne_nil _ _)
  obtain ⟨hfeasible, hsolve⟩ := hsolve program hprogram
  obtain ⟨p', hp', hoptimal⟩ := hsolve _ (Solver.sound_certified fun _ => ⟨[7, 3], [-2], [4]⟩)
  obtain rfl := Action.final_of_ok hp'
  obtain ⟨optimum, hoptimum, -, -, hvalue⟩ := hoptimal (by decide +kernel)
  have value : some optimum = some 19 := hoptimum.symm.trans (by decide +kernel)
  rw [Option.some.inj value] at hoptimum hvalue
  exact ⟨_, _, _, _, complete, rfl, ⟨program, hprogram, hfeasible⟩, hp', hoptimum, hvalue⟩

end Workspace

end Multistage
