import Multistage.Proofs.Lists
import Multistage.Proofs.Node.Install
import Multistage.Proofs.Scalar.Extended
import Multistage.Model

/-!
# Outgoing states and the point of a solve

A solve returns the values of the outgoing copies at the point that the solver found, moved into the
bounds of the copies. In exact arithmetic a point lies within all bounds that were given to the
solver, but a solve gives it no bounds of fixed variables and no infinite ones. The projection is
visible where one of these is exceeded, and nowhere else.

## Main definitions

- `Extended.Raises`, `Extended.Lowers`: a bound moves a value.
- `Solver.ReportsFeasible`: the points of a solver are feasible.
- `Node.leaving?`: the values of the outgoing copies at the point of the last solve.

## Main statements

- `clampBelow_clampAbove_eq_self_iff`: the values that two bounds leave as they are.
- `Subproblem.between_bounds`: a point lies within the finite bounds of variables that are not
  fixed.
- `Node.outgoing_of_solve`: which values a solve returns.
-/

namespace Multistage

/-! ### Moving values into bounds -/

namespace Extended

variable {α : Type} [Scalar α]

/-- The value falls short of a lower bound, by any amount of the infinite one. -/
def Raises : Extended α → α → Prop
  | finite l, x => x < l
  | posInf, _ => True
  | _, _ => False

/-- The value exceeds an upper bound, by any amount the infinite one. -/
def Lowers : Extended α → α → Prop
  | finite u, x => u < x
  | negInf, _ => True
  | _, _ => False

instance (b : Extended α) (x : α) : Decidable (b.Raises x) := by
  cases b <;> unfold Raises <;> infer_instance

instance (b : Extended α) (x : α) : Decidable (b.Lowers x) := by
  cases b <;> unfold Lowers <;> infer_instance

end Extended

section

open Extended (finite finite_lt)

variable {l u : Extended (Extended ℚ)} {y : ℚ}

theorem not_lt_of_le_finite {b : Extended ℚ} (h : b ≤ finite y) : ¬finite y < b := by
  cases b with
  | finite x => exact fun hlt => not_lt.2 (Extended.finite_le.1 h) (finite_lt.1 hlt)
  | posInf => cases h
  | negInf => exact nofun
  | nan => cases h

theorem not_lt_of_finite_le {b : Extended ℚ} (h : finite y ≤ b) : ¬b < finite y := by
  cases b with
  | finite x => exact fun hlt => not_lt.2 (Extended.finite_le.1 h) (finite_lt.1 hlt)
  | posInf => exact nofun
  | negInf => cases h
  | nan => cases h

theorem clampBelow_eq_self_iff : clampBelow l (finite y) = finite y ↔ ¬l.Raises (finite y) := by
  cases l with
  | finite b =>
    show Scalar.greater (finite y) b = finite y ↔ ¬finite y < b
    unfold Scalar.greater
    split
    next hlt =>
      refine iff_of_false (fun heq => ?_) (not_not_intro hlt)
      rw [heq] at hlt
      exact lt_irrefl _ (finite_lt.1 hlt)
    next hnot => exact iff_of_true rfl hnot
  | posInf => exact iff_of_false nofun (not_not_intro trivial)
  | negInf => exact iff_of_true rfl id
  | nan => exact iff_of_true rfl id

theorem clampAbove_eq_self_iff : clampAbove u (finite y) = finite y ↔ ¬u.Lowers (finite y) := by
  cases u with
  | finite b =>
    show Scalar.lesser (finite y) b = finite y ↔ ¬b < finite y
    unfold Scalar.lesser
    split
    next hlt =>
      refine iff_of_false (fun heq => ?_) (not_not_intro hlt)
      rw [heq] at hlt
      exact lt_irrefl _ (finite_lt.1 hlt)
    next hnot => exact iff_of_true rfl hnot
  | posInf => exact iff_of_true rfl id
  | negInf => exact iff_of_false nofun (not_not_intro trivial)
  | nan => exact iff_of_true rfl id

/-- Two bounds leave a number as it is if it does not exceed them, and if it exceeds the upper one
but is the lower one. -/
theorem clampBelow_clampAbove_eq_self_iff :
    clampBelow l (clampAbove u (finite y)) = finite y ↔
      if u.Lowers (finite y) then l = .finite (finite y) else ¬l.Raises (finite y) := by
  split
  next hlowers =>
    have below : clampAbove u (finite y) < finite y := by
      cases u with
      | finite b =>
        have less : b < finite y := hlowers
        show Scalar.lesser (finite y) b < finite y
        rwa [Scalar.lesser, if_pos less]
      | negInf => rfl
      | _ => cases hlowers
    have ne : clampAbove u (finite y) ≠ finite y := fun heq => by
      rw [heq] at below
      exact lt_irrefl y (finite_lt.1 below)
    generalize clampAbove u (finite y) = c at below ne
    cases l with
    | finite b =>
      show Scalar.greater c b = finite y ↔ _
      unfold Scalar.greater
      constructor
      · intro h
        split at h
        · rw [h]
        · exact absurd h ne
      · rintro h
        cases h
        exact if_pos below
    | posInf => exact iff_of_false nofun nofun
    | negInf => exact iff_of_false ne nofun
    | nan => exact iff_of_false ne nofun
  next hkept => rw [clampAbove_eq_self_iff.2 hkept, clampBelow_eq_self_iff]

end

/-! ### What a solve gives the solver -/

/-- The points that the solver reports are feasible, and their entries are numbers. -/
def Solver.ReportsFeasible {α : Type} [Scalar α] (solver : Solver α) : Prop :=
  ∀ program point value marginals, solver program = .optimal point value marginals →
    program.Admits point ∧ ∀ x ∈ point, Scalar.isFinite x = true

/-- Report a point that is guessed, if it is feasible and its entries are numbers. -/
def Solver.guessing (guess : Program (Extended ℚ) → List (Extended ℚ)) :
    Solver (Extended ℚ) := fun p =>
  if ((guess p).length = p.size ∧ (∀ r ∈ p.atMost, Scalar.dot r.coefficients (guess p) ≤ r.rhs) ∧
      (∀ r ∈ p.equal, Scalar.dot r.coefficients (guess p) = r.rhs) ∧
      (∀ b ∈ p.lower.zip (guess p), ∀ l ∈ b.1, l ≤ b.2) ∧ ∀ b ∈ p.upper.zip (guess p),
      ∀ u ∈ b.1, b.2 ≤ u) ∧
      ∀ x ∈ guess p, Scalar.isFinite x = true then
    .optimal (guess p) (Scalar.dot p.cost (guess p)) []
  else .undecided

theorem Solver.reportsFeasible_guessing (guess : Program (Extended ℚ) → List (Extended ℚ)) :
    (guessing guess).ReportsFeasible := by
  intro p point value marginals h
  unfold guessing at h
  split at h
  next hpoint =>
    cases h
    obtain ⟨⟨hlength, hatMost, hequal, hlower, hupper⟩, hfinite⟩ := hpoint
    exact ⟨⟨hlength, hatMost, hequal, hlower, hupper⟩, hfinite⟩
  next => cases h

/-- A feasible point lies within the finite bounds of variables that are not fixed. -/
theorem Subproblem.between_bounds {α : Type} [Scalar α] {p : Subproblem α} {program : Program α}
    (h : p.program = .ok program) {point : List α} (hpoint : program.Admits point) {i : ℕ} {x : α}
    {l u : Extended α}
    (hx : point[i]? = some x) (hl : p.lower[i]? = some l) (hu : p.upper[i]? = some u)
    (hfree : p.fixed.contains i = false) : (∀ b, l = .finite b → b ≤ x) ∧ ∀ b, u = .finite b →
    x ≤ b := by
  obtain ⟨hsize, bounds, hbounds, hlower, hupper⟩ := bounds_of_program h
  have hi : i < p.names.length := by
    rw [← hsize, ← hpoint.length_eq]
    exact (List.getElem?_eq_some_iff.1 hx).1
  have kept : p.keptBounds[i]? = some (l.finite?, u.finite?) := by
    rw [getElem?_keptBounds, hl, hu, hfree]
    rfl
  have pair := getElem?_of_spreadBounds hbounds hi kept
  constructor
  · rintro b rfl
    have side : program.lower[i]? = some (some b) := by
      rw [hlower, List.getElem?_map, pair]
      rfl
    exact hpoint.lower_le (some b, x)
      (List.mem_of_getElem? (List.getElem?_zip_eq_some.2 ⟨side, hx⟩)) b rfl
  · rintro b rfl
    have side : program.upper[i]? = some (some b) := by
      rw [hupper, List.getElem?_map, pair]
      rfl
    exact hpoint.le_upper (some b, x)
      (List.mem_of_getElem? (List.getElem?_zip_eq_some.2 ⟨side, hx⟩)) b rfl

/-- The value of a variable at a point whose entries are numbers is its entry. -/
theorem Subproblem.valueOf_ofVariable {p : Subproblem (Extended ℚ)} {point : List (Extended ℚ)}
    (hpoint : p.point? = some point) (hfinite : ∀ x ∈ point, Scalar.isFinite x = true)
    {v : Variable} {x : Extended ℚ} (h : p.valueOf (Affine.ofVariable v) = .ok x) :
    v.owner = p.owner ∧ ∃ y : ℚ, point[v.index]? = some (.finite y) ∧ x = .finite y := by
  unfold valueOf at h
  rw [hpoint] at h
  obtain ⟨terms, hterms, h⟩ := Except.bind_eq_ok.1 h
  obtain ⟨term, rest, hterm, hrest, rfl⟩ :=
    List.forall₂_cons_left_iff.1 (Except.mapM_eq_ok.1 hterms)
  cases hrest
  obtain ⟨i, hi, hterm⟩ := Except.bind_eq_ok.1 hterm
  obtain ⟨howner, rfl⟩ := position_eq_ok hi
  split at hterm
  next z hz =>
    cases hterm
    have number := hfinite z (List.mem_of_getElem? hz)
    cases z with
    | finite y =>
      refine ⟨howner, y, hz, (Except.ok.inj h).symm.trans ?_⟩
      show Extended.finite (0 + (0 + 1 * y)) = _
      rw [zero_add, zero_add, one_mul]
    | _ => cases number
  next => cases hterm

/-! ### What a solve returns -/

namespace Node

section

variable {α β : Type} [Scalar α] [Quantity β α]

/-- The values of the outgoing copies of the states at the point of the last solve. -/
def leaving? (n : Node α) : Except (Failure α) (State α) := do
  let entries ← n.stage.states.entries.mapM fun (name, copies) => do
    return (name, ← n.stage.subproblem.valueOf (Affine.ofVariable copies.outgoing))
  return ⟨entries⟩

/-- A solve that returns has found a point of a program, at which it reads the answer. -/
theorem exists_program_of_solve {solver : Solver α} {sense : Sense} {state : State β}
    {noise : Datum α} {needsDuals : Bool} {n n' : Node α} {answer : Solution α}
    (h : solve solver sense state noise needsDuals n = .ok answer n') :
    ∃ p program point value marginals, Subproblem.program p = .ok program ∧
      solver program = .optimal point value marginals ∧
      n'.stage.subproblem = p.withOutcome (.optimal point value marginals) ∧
      n'.outgoing = .ok answer.outgoing ∧ n'.stage.objectiveValue = .ok answer.stageObjective := by
  obtain ⟨_, _, -, h⟩ := Action.bind_eq_ok.1 h
  obtain ⟨_, _, -, h⟩ := Action.bind_eq_ok.1 h
  obtain ⟨_, _, -, h⟩ := Action.bind_eq_ok.1 h
  obtain ⟨_, _, h⟩ := Action.exists_of_when (b := ()) h
  obtain ⟨_, _, ran, h⟩ := Action.bind_eq_ok.1 h
  obtain ⟨_, optimized, rfl⟩ := onSubproblem_eq_ok.1 ran
  obtain ⟨program, hprogram, rfl⟩ := Subproblem.optimize_eq_ok optimized
  obtain ⟨_, _, hget, h⟩ := Action.bind_eq_ok.1 h
  cases hget
  split at h
  · obtain ⟨_, _, thrown, -⟩ := Action.bind_eq_ok.1 h
    cases thrown
  next hprimal =>
    obtain ⟨duals, _, read, h⟩ := Action.bind_eq_ok.1 h
    obtain ⟨-, rfl⟩ := Action.ofExcept_eq_ok.1 read
    obtain ⟨outgoing, _, read, h⟩ := Action.bind_eq_ok.1 h
    obtain ⟨houtgoing, rfl⟩ := Action.ofExcept_eq_ok.1 read
    obtain ⟨stageObjective, _, read, h⟩ := Action.bind_eq_ok.1 h
    obtain ⟨hstage, rfl⟩ := Action.ofExcept_eq_ok.1 read
    cases hout : solver program with
    | optimal point value marginals =>
      simp only [hout] at h houtgoing hstage
      cases h
      exact ⟨_, program, point, value, marginals, hprogram, hout, rfl, houtgoing, hstage⟩
    | infeasible => exact absurd (by rw [hout]; rfl) hprimal
    | unbounded => exact absurd (by rw [hout]; rfl) hprimal
    | undecided => exact absurd (by rw [hout]; rfl) hprimal

end

/-- How the value of a state that is returned relates to the value of its outgoing copy at the point
of the last solve: it is moved into the bounds of the copy, which happens where it exceeds one of
them, and only if the copy is fixed or the bound is infinite on the wrong side. -/
def Projects (n : Node (Extended ℚ)) (copies : StateVariable) (x : Extended ℚ) : Prop :=
  ∃ (y : ℚ) (l u : Extended (Extended ℚ)) (fixed : Bool),
    n.stage.subproblem.valueOf (Affine.ofVariable copies.outgoing) = .ok (.finite y) ∧
    n.stage.subproblem.lowerBound copies.outgoing = .ok l ∧
    n.stage.subproblem.upperBound copies.outgoing = .ok u ∧
    n.stage.subproblem.isFixed copies.outgoing = .ok fixed ∧
    x = clampBelow l (clampAbove u (.finite y)) ∧
    (x = .finite y ↔
      if u.Lowers (.finite y) then l = .finite (.finite y) else ¬l.Raises (.finite y)) ∧
    (l.Raises (.finite y) → fixed = true ∨ l = .posInf) ∧
    (u.Lowers (.finite y) → fixed = true ∨ u = .negInf)

theorem projects_of_read {p : Subproblem (Extended ℚ)} {program : Program (Extended ℚ)}
    {point marginals : List (Extended ℚ)} {value : Extended ℚ} (hprogram : p.program = .ok program)
    (hpoint : program.Admits point) (hfinite : ∀ x ∈ point, Scalar.isFinite x = true)
    {n : Node (Extended ℚ)}
    (hn : n.stage.subproblem = p.withOutcome (.optimal point value marginals))
    {s : Name × StateVariable} {e : Name × Extended ℚ}
    (he : (do
      let value ← n.stage.subproblem.valueOf (Affine.ofVariable s.2.outgoing)
      let value := clampAbove (← n.stage.subproblem.upperBound s.2.outgoing) value
      return (s.1, clampBelow (← n.stage.subproblem.lowerBound s.2.outgoing) value) :
        Except (Failure (Extended ℚ)) (Name × Extended ℚ)) = .ok e) :
    e.1 = s.1 ∧ n.Projects s.2 e.2 := by
  obtain ⟨x, hx, he⟩ := Except.bind_eq_ok.1 he
  obtain ⟨u, hu, he⟩ := Except.bind_eq_ok.1 he
  obtain ⟨l, hl, he⟩ := Except.bind_eq_ok.1 he
  cases he
  have at_point : n.stage.subproblem.point? = some point := by rw [hn]; rfl
  obtain ⟨howner, y, hy, rfl⟩ := Subproblem.valueOf_ofVariable at_point hfinite hx
  have hlower := Subproblem.lowerBound_eq_ok hl
  have hupper := Subproblem.upperBound_eq_ok hu
  have hfixed :
      n.stage.subproblem.isFixed s.2.outgoing = .ok (p.fixed.contains s.2.outgoing.index) := by
    rw [Subproblem.isFixed, Subproblem.position, if_pos (beq_iff_eq.2 howner), hn]
    rfl
  rw [hn] at hlower hupper
  refine ⟨rfl, y, l, u, _, hx, hl, hu, hfixed, rfl, clampBelow_clampAbove_eq_self_iff,
    fun hraises => ?_,
    fun hlowers => ?_⟩
  · refine or_iff_not_imp_left.2 fun hfree => ?_
    have within :=
      (Subproblem.between_bounds hprogram hpoint hy hlower hupper (by simpa using hfree)).1
    cases l with
    | finite b => exact absurd hraises (not_lt_of_le_finite (within b rfl))
    | posInf => rfl
    | _ => cases hraises
  · refine or_iff_not_imp_left.2 fun hfree => ?_
    have within :=
      (Subproblem.between_bounds hprogram hpoint hy hlower hupper (by simpa using hfree)).2
    cases u with
    | finite b => exact absurd hlowers (not_lt_of_finite_le (within b rfl))
    | negInf => rfl
    | _ => cases hlowers

/-- In exact arithmetic a solve returns for each state the value of its outgoing copy, moved into
the bounds of this copy. The value is moved where it exceeds a bound, and this happens only if the
copy is fixed or the bound is infinite on the wrong side; without these the values at the point of
the solve are returned, at which the objective of the stage is counted in any case. -/
theorem outgoing_of_solve {β : Type} [Quantity β (Extended ℚ)] {solver : Solver (Extended ℚ)}
    (hsolver : solver.ReportsFeasible) {sense : Sense} {state : State β}
    {noise : Datum (Extended ℚ)}
    {needsDuals : Bool} {n n' : Node (Extended ℚ)} {answer : Solution (Extended ℚ)}
    (h : solve solver sense state noise needsDuals n = .ok answer n') :
    n'.stage.objectiveValue = .ok answer.stageObjective ∧
    List.Forall₂
      (fun s e => e.1 = s.1 ∧ n'.Projects s.2 e.2) n'.stage.states.entries answer.outgoing.entries ∧
    ((∀ s ∈ n'.stage.states.entries, n'.stage.subproblem.isFixed s.2.outgoing = .ok false ∧
      n'.stage.subproblem.lowerBound s.2.outgoing ≠ .ok .posInf ∧
      n'.stage.subproblem.upperBound s.2.outgoing ≠ .ok .negInf) →
      n'.leaving? = .ok answer.outgoing) := by
  obtain ⟨p, program, point, value, marginals, hprogram, hout, hsub, houtgoing, hstage⟩ :=
    exists_program_of_solve h
  obtain ⟨hpoint, hfinite⟩ := hsolver program point value marginals hout
  obtain ⟨entries, hentries, hanswer⟩ := Except.bind_eq_ok.1 houtgoing
  have answered : answer.outgoing = ⟨entries⟩ := (Except.ok.inj hanswer).symm
  rw [answered]
  have all := (Except.mapM_eq_ok.1 hentries).imp fun s e he =>
    projects_of_read hprogram hpoint hfinite hsub he
  refine ⟨hstage, all, fun hquiet => ?_⟩
  refine Except.bind_eq_ok.2 ⟨entries, Except.mapM_eq_ok.2 ((forall₂_with_mem all).imp ?_), rfl⟩
  rintro s ⟨name, x⟩ ⟨hs, rfl, y, l, u, fixed, hvalue, hl, hu, hfixed, -, hmoved, hraises, hlowers⟩
  obtain ⟨unfixed, notPos, notNeg⟩ := hquiet s hs
  obtain rfl : fixed = false := Except.ok.inj (hfixed.symm.trans unfixed)
  have quiet : ¬u.Lowers (.finite y) ∧ ¬l.Raises (.finite y) :=
    ⟨fun hlow => (hlowers hlow).elim nofun fun h => notNeg (h ▸ hu),
      fun hraise => (hraises hraise).elim nofun fun h => notPos (h ▸ hl)⟩
  rw [if_neg quiet.1] at hmoved
  exact Except.bind_eq_ok.2
    ⟨_, hvalue, congrArg (fun x => Except.ok (s.1, x)) (hmoved.2 quiet.2).symm⟩

/-- A stage whose noise fixes the outgoing copy of a state between zero and ten. -/
def fixing : StagePlans (Extended ℚ) where
  rest :=
    { states := [⟨⟨.text "x", some (.int 0), some (.int 10)⟩, .int 0⟩]
      objective := some (.name "x.out")
      noise := [([.int 20], none)]
      edits := [.fix (.text "x.out") .noise] }

/-- A copy that is fixed to twenty is ten in the state that is returned, while twenty is counted. -/
theorem outgoing_of_solve_of_fixed_copy : ∃ graph m n n' answer, Graph.linear 1 = .ok graph ∧
    Model.build graph .unbounded (.text "min") fixing = .ok m ∧ m.node (.int 1) = .ok n ∧
    solve (Solver.guessing fun _ => [.finite 0, .finite 20, .finite 0]) m.sense m.initial
      (.int 20) false n = .ok answer n' ∧
    (n'.leaving?.map Dict.values).toOption = some [.finite 20] ∧
    answer.outgoing.values = [.finite 10] ∧
    answer.stageObjective = .finite 20 ∧ n'.stage.objectiveValue = .ok answer.stageObjective ∧
    List.Forall₂ (fun s e => e.1 = s.1 ∧ n'.Projects s.2 e.2) n'.stage.states.entries
      answer.outgoing.entries := by
  let solver : Solver (Extended ℚ) := .guessing fun _ => [.finite 0, .finite 20, .finite 0]
  have check : (do
      let graph ← Graph.linear 1
      let m ← Model.build graph .unbounded (.text "min") fixing
      let n ← m.node (.int 1)
      let solved ← (solve solver m.sense m.initial (.int 20) false).answer n
      if (solved.2.leaving?.map Dict.values).toOption = some [.finite 20] ∧
          solved.1.outgoing.values = [.finite 10] ∧ solved.1.stageObjective = .finite 20 then
        return () else .error .missingKey : Except (Failure (Extended ℚ)) Unit).toBool = true := by
    decide +kernel
  simp only [Except.toBool_bind, Except.toBool_ite, Action.answer_eq_ok] at check
  obtain ⟨graph, hgraph, m, hm, n, hn, ⟨answer, n'⟩, run, h⟩ := check
  obtain ⟨counted, projected, -⟩ := outgoing_of_solve (Solver.reportsFeasible_guessing _) run
  exact ⟨graph, m, n, n', answer, hgraph, hm, hn, run, h.1, h.2.1, h.2.2, counted, projected⟩

end Node

end Multistage
