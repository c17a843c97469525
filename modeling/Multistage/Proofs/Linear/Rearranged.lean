import Mathlib.Data.List.Find
import Mathlib.Data.List.Perm.Basic
import Multistage.Proofs.Linear.Certified
import Multistage.Proofs.Linear.Sensitivity
import Multistage.Proofs.Parallel

/-!
# Programs in another order

The order in which constraints were added and variables were fixed is that of the rows of a program.
A solver that ignores this order gives the same point for both orders, and the same marginal for the
same equation; what is read after the solve does then not depend on the order.

## Main definitions

- `Program.Rearranges`: the same program with its rows in another order.
- `Solver.IgnoresOrder`: the order of the rows does not matter to the solver.
- `Subproblem.Rearranges`: subproblems that differ in the order of fixed variables and later
  constraints.
- `Subproblem.SameResult`: subproblems whose last solves found the same.

## Main statements

- `Program.Rearranges.admits_iff`: the same points are feasible.
- `Subproblem.Rearranges.program_cases`: the programs of both subproblems.
- `Subproblem.Rearranges.parallel_optimize`: both are solved with the same result.
-/

namespace Multistage

/-! ### Programs -/

/-- The same program with its rows in another order. -/
structure Program.Rearranges (q q' : Program ℚ) : Prop where
  cost : q'.cost = q.cost
  lower : q'.lower = q.lower
  upper : q'.upper = q.upper
  atMost : q'.atMost.Perm q.atMost
  equal : q'.equal.Perm q.equal

namespace Program

variable {q q' : Program ℚ}

theorem Rearranges.refl (q : Program ℚ) : q.Rearranges q := ⟨rfl, rfl, rfl, .refl _, .refl _⟩

/-- The same points are feasible. -/
theorem Rearranges.admits_iff (h : q.Rearranges q') (x : List ℚ) : q'.Admits x ↔ q.Admits x := by
  have size : q'.size = q.size := congrArg List.length h.cost
  constructor
  · intro hx
    exact ⟨hx.length_eq.trans size, fun r hr => hx.atMost_le r (h.atMost.mem_iff.2 hr),
      fun r hr => hx.equal_eq r (h.equal.mem_iff.2 hr), h.lower ▸ hx.lower_le,
        h.upper ▸ hx.le_upper⟩
  · intro hx
    exact ⟨hx.length_eq.trans size.symm, fun r hr => hx.atMost_le r (h.atMost.mem_iff.1 hr),
      fun r hr => hx.equal_eq r (h.equal.mem_iff.1 hr), h.lower ▸ hx.lower_le,
        h.upper ▸ hx.le_upper⟩

instance : DecidableEq (Row ℚ) := fun r s =>
  decidable_of_iff (r.coefficients = s.coefficients ∧ r.rhs = s.rhs) <| by
    cases r
    cases s
    simp

/-- The marginals of the equations that are a given row, in their order. -/
def marginalsOf (equations : List (Row ℚ)) (marginals : List ℚ) (row : Row ℚ) : List ℚ :=
  ((equations.zip marginals).filter (·.1 = row)).map (·.2)

theorem length_marginalsOf {equations : List (Row ℚ)} {marginals : List ℚ}
    (h : marginals.length = equations.length) (row : Row ℚ) :
    (marginalsOf equations marginals row).length = equations.countP (· = row) := by
  have fst : (equations.zip marginals).map Prod.fst = equations := List.map_fst_zip h.ge
  unfold marginalsOf
  rw [List.length_map, ← List.countP_eq_length_filter]
  conv_rhs => rw [← fst, List.countP_map]
  rfl

theorem marginalsOf_of_zero {equations : List (Row ℚ)} {marginals : List ℚ}
    (hzero : ∀ y ∈ marginals, y = 0) (h : marginals.length = equations.length) (row : Row ℚ) :
    marginalsOf equations marginals row = List.replicate (equations.countP (· = row)) 0 := by
  refine List.eq_replicate_iff.2 ⟨length_marginalsOf h row, fun y hy => ?_⟩
  obtain ⟨e, he, rfl⟩ := List.mem_map.1 hy
  exact hzero e.2 (List.of_mem_zip (List.mem_filter.1 he).1).2

theorem marginalsOf_append {equations others : List (Row ℚ)} {marginals : List ℚ}
    (h : equations.length ≤ marginals.length) (row : Row ℚ) :
    marginalsOf (equations ++ others) marginals row =
      marginalsOf equations (marginals.take equations.length) row ++
        marginalsOf others (marginals.drop equations.length) row := by
  unfold marginalsOf
  conv_lhs => rw [← List.take_append_drop equations.length marginals]
  rw [List.zip_append (List.length_take_of_le h).symm, List.filter_append, List.map_append]

end Program

/-- Outcomes for two orders of the rows: the same point, and the same marginals for the same
equation. -/
inductive Outcome.Matches (q q' : Program ℚ) : Outcome ℚ → Outcome ℚ → Prop
  | optimal {point : List ℚ} {value : ℚ} {marginals marginals' : List ℚ}
      (length : marginals.length = q.equal.length) (length' : marginals'.length = q'.equal.length)
      (same : ∀ row,
        Program.marginalsOf q'.equal marginals' row = Program.marginalsOf q.equal marginals row) :
      Matches q q' (.optimal point value marginals) (.optimal point value marginals')
  | infeasible : Matches q q' .infeasible .infeasible
  | unbounded : Matches q q' .unbounded .unbounded
  | undecided : Matches q q' .undecided .undecided

/-- The answers of the solver depend on the program but not on the order of its rows. -/
def Solver.IgnoresOrder (solver : Solver ℚ) : Prop :=
  ∀ q q', q.Rearranges q' → (solver q).Matches q q' (solver q')

/-! ### Rows -/

/-- Constraints that say the same and are shown alike but for the order of their coefficients. -/
structure Constraint.SameRow (c c' : Constraint ℚ) : Prop where
  relation : c'.relation = c.relation
  rhs : c'.rhs = c.rhs
  coefficients : ∀ i, c'.coefficients.get? i = c.coefficients.get? i

namespace Subproblem

theorem dense_congr {d d' : Dict ℕ ℚ} (h : ∀ i, d'.get? i = d.get? i) (size : ℕ) :
    dense size d' = dense size d := by
  have found : ∀ {d₁ d₂ : Dict ℕ ℚ}, (∀ i, d₂.get? i = d₁.get? i) → ∀ i ∈ d₁.keys, i ∈ d₂.keys := by
    intro d₁ d₂ hget i hi
    obtain ⟨x, hx⟩ := Dict.exists_get?_of_mem_keys hi
    obtain ⟨e, he, hei, -⟩ := Dict.exists_mem_of_get? ((hget i).trans hx)
    exact eq_of_beq hei ▸ List.mem_map_of_mem he
  have keys : d'.keys.any (size ≤ ·) = d.keys.any (size ≤ ·) := by
    rw [Bool.eq_iff_iff, List.any_eq_true, List.any_eq_true]
    exact exists_congr fun i => and_congr_left fun _ => ⟨found (fun j => (h j).symm) i, found h i⟩
  unfold dense
  simp only [keys, Dict.getD, h]

theorem error_of_dense {size : ℕ} {d : Dict ℕ ℚ} {e : Failure ℚ} (h : dense size d = .error e) :
    e = .indexOutOfRange := by
  unfold dense at h
  split at h
  · exact (Except.error.inj h).symm
  · cases h

variable {p p' : Subproblem ℚ} {size : ℕ}

/-- The row of a constraint, with its relation. -/
def relatedRow (size : ℕ) (c : Constraint ℚ) : Except (Failure ℚ) (Relation × Row ℚ) :=
  (rowOf size c).map fun row => (c.relation, row)

theorem relatedRow_congr {c c' : Constraint ℚ} (h : c.SameRow c') :
    relatedRow size c' = relatedRow size c := by
  unfold relatedRow rowOf
  rw [dense_congr h.coefficients, h.relation, h.rhs]

theorem error_of_relatedRow {c : Constraint ℚ} {e : Failure ℚ} (h : relatedRow size c = .error e) :
    e = .indexOutOfRange := by
  unfold relatedRow at h
  cases hrow : rowOf size c with
  | ok row =>
    rw [hrow] at h
    cases h
  | error e' =>
    rw [hrow] at h
    cases h
    rcases Except.bind_eq_error.1 hrow with hdense | ⟨_, -, hrest⟩
    · exact error_of_dense hdense
    · cases hrest

/-! ### Subproblems -/

/-- Subproblems that differ in the order of the fixed variables and of the later constraints, which
are no equations. -/
structure Rearranges (p p' : Subproblem ℚ) : Prop where
  label : p'.label = p.label
  owner : p'.owner = p.owner
  names : p'.names = p.names
  lower : p'.lower = p.lower
  upper : p'.upper = p.upper
  sense : p'.sense = p.sense
  objective : p'.objective = p.objective
  distinct : p.fixed.Distinct
  distinct' : p'.fixed.Distinct
  fixed : ∀ i, p'.fixed.get? i = p.fixed.get? i
  fixed_lt : ∀ e ∈ p.fixed.entries, e.1 < p.names.length
  rows : ∃ declared later declared' later', p.activeConstraints = declared ++ later ∧
    p'.activeConstraints = declared' ++ later' ∧
    List.Forall₂ Constraint.SameRow declared declared' ∧
    later'.Perm later ∧ ∀ c ∈ later, c.relation ≠ .equal

namespace Rearranges

theorem symm (h : p.Rearranges p') : p'.Rearranges p where
  label := h.label.symm
  owner := h.owner.symm
  names := h.names.symm
  lower := h.lower.symm
  upper := h.upper.symm
  sense := h.sense.symm
  objective := h.objective.symm
  distinct := h.distinct'
  distinct' := h.distinct
  fixed := fun i => (h.fixed i).symm
  fixed_lt := fun e he => by
    rw [h.names]
    exact h.fixed_lt e ((Dict.perm_of_get?_eq h.distinct h.distinct' h.fixed).mem_iff.1 he)
  rows := by
    obtain ⟨declared, later, declared', later', hp, hp', same, perm, hrel⟩ := h.rows
    refine ⟨declared', later', declared, later, hp', hp, ?_, perm.symm,
      fun c hc => hrel c (perm.mem_iff.1 hc)⟩
    exact same.flip.imp fun c c' hc =>
      ⟨hc.relation.symm, hc.rhs.symm, fun i => (hc.coefficients i).symm⟩

end Rearranges

/-- The rows of two subproblems: those of the constraints that were declared, and then others that
are no equations. -/
structure RowsMatch (p p' : Subproblem ℚ) (rows rows' : List (Relation × Row ℚ)) : Prop where
  eq : p.activeConstraints.mapM (relatedRow p.names.length) = .ok rows
  eq' : p'.activeConstraints.mapM (relatedRow p'.names.length) = .ok rows'
  parts : ∃ declared later later', rows = declared ++ later ∧ rows' = declared ++ later' ∧
    later'.Perm later ∧ ∀ r ∈ later, r.1 ≠ .equal

namespace RowsMatch

variable {rows rows' : List (Relation × Row ℚ)}

theorem atMost_perm (h : RowsMatch p p' rows rows') :
    ((rows'.filter (·.1 != .equal)).map (·.2)).Perm ((rows.filter (·.1 != .equal)).map (·.2)) := by
  obtain ⟨declared, later, later', rfl, rfl, perm, -⟩ := h.parts
  exact ((perm.append_left declared).filter _).map _

theorem equations_eq (h : RowsMatch p p' rows rows') :
    rows'.filter (·.1 == .equal) = rows.filter (·.1 == .equal) := by
  obtain ⟨declared, later, later', rfl, rfl, perm, hrel⟩ := h.parts
  have none_equal : ∀ {l : List (Relation × Row ℚ)}, (∀ r ∈ l, r.1 ≠ .equal) →
      l.filter (·.1 == .equal) = [] :=
    fun hl => List.filter_eq_nil_iff.2 fun r hr => by simpa using hl r hr
  rw [List.filter_append, List.filter_append, none_equal hrel,
    none_equal fun r hr => hrel r (perm.mem_iff.1 hr)]

end RowsMatch

theorem Rearranges.exists_rows (h : p.Rearranges p') {rows : List (Relation × Row ℚ)}
    (hrows : p.activeConstraints.mapM (relatedRow p.names.length) = .ok rows) :
    ∃ rows', RowsMatch p p' rows rows' := by
  obtain ⟨declared, later, declared', later', hp, hp', same, perm, hrel⟩ := h.rows
  have mapped := Except.mapM_eq_ok_iff_map.1 hrows
  rw [hp, List.map_append, eq_comm, List.map_eq_append_iff] at mapped
  obtain ⟨d, l, rfl, hd, hl⟩ := mapped
  have declared_eq :
      declared'.map (relatedRow p.names.length) = declared.map (relatedRow p.names.length) :=
    List.forall₂_eq_eq_eq ▸ List.forall₂_map_left_iff.2 (List.forall₂_map_right_iff.2
      (same.flip.imp fun _ _ hc => relatedRow_congr hc))
  -- what the others give is the same in another order
  have others : (later'.map (relatedRow p.names.length)).Perm (l.map .ok) := hl ▸ perm.map _
  have related : ∀ c ∈ later', ∃ r, relatedRow p.names.length c = .ok r := fun c hc => by
    obtain ⟨r, -, hr⟩ := List.mem_map.1 (others.mem_iff.1 (List.mem_map_of_mem hc))
    exact ⟨r, hr.symm⟩
  obtain ⟨l', hl'⟩ := Except.exists_mapM related
  have mapped' := Except.mapM_eq_ok_iff_map.1 hl'
  refine ⟨d ++ l', hrows, ?_, d, l, l', rfl, rfl, ?_, fun r hr => ?_⟩
  · rw [h.names, hp', Except.mapM_eq_ok_iff_map, List.map_append, List.map_append, mapped',
      declared_eq, hd]
  · rw [mapped'] at others
    exact (List.map_perm_map_iff fun _ _ => Except.ok.inj).1 others
  · have given : Except.ok r ∈ later.map (relatedRow p.names.length) := hl ▸ List.mem_map_of_mem hr
    obtain ⟨c, hc, hcr⟩ := List.mem_map.1 given
    obtain ⟨row, -, rfl⟩ := Except.map_eq_ok.1 hcr
    exact hrel c hc

theorem Rearranges.rows_cases (h : p.Rearranges p') :
    (∃ e, p.activeConstraints.mapM (relatedRow p.names.length) = .error e ∧
        p'.activeConstraints.mapM (relatedRow p'.names.length) = .error e) ∨
      ∃ rows rows', RowsMatch p p' rows rows' := by
  have refused : ∀ {p : Subproblem ℚ} {e : Failure ℚ},
      p.activeConstraints.mapM (relatedRow p.names.length) = .error e → e = .indexOutOfRange := by
    intro p e he
    obtain ⟨c, -, hc⟩ := Except.exists_of_mapM_eq_error he
    exact error_of_relatedRow hc
  cases hp : p.activeConstraints.mapM (relatedRow p.names.length) with
  | ok rows =>
    obtain ⟨rows', hrows⟩ := h.exists_rows hp
    exact .inr ⟨rows, rows', hrows⟩
  | error e =>
    cases hp' : p'.activeConstraints.mapM (relatedRow p'.names.length) with
    | ok rows' =>
      obtain ⟨rows, hrows⟩ := h.symm.exists_rows hp'
      cases hp.symm.trans hrows.eq'
    | error e' => exact .inl ⟨e, rfl, by rw [refused hp, refused hp']⟩

/-! ### Programs of subproblems -/

/-- The program of a subproblem with a given cost and given rows. -/
def programOf (p : Subproblem ℚ) (cost : List ℚ) (rows : List (Relation × Row ℚ)) :
    Except (Failure ℚ) (Program ℚ) :=
  let atMost := (rows.filter (·.1 != .equal)).map (·.2)
  let equal := (rows.filter (·.1 == .equal)).map (·.2) ++ p.fixingRows
  let finite (r : Row ℚ) : Bool := r.coefficients.all Scalar.isFinite && Scalar.isFinite r.rhs
  if p.names.length == 0 || !cost.all Scalar.isFinite || !(atMost ++ equal).all finite then
    .error .invalidProgram
  else p.spreadBounds >>= fun bounds =>
    .ok ⟨cost, atMost, equal, bounds.map (·.1), bounds.map (·.2)⟩

theorem program_eq_programOf {cost : List ℚ} {rows : List (Relation × Row ℚ)}
    (hcost : dense p.names.length p.costEntries = .ok cost)
    (hrows : p.activeConstraints.mapM (relatedRow p.names.length) = .ok rows) :
    p.program = p.programOf cost rows := by
  have hrows : (p.activeConstraints.mapM fun c =>
    (rowOf p.names.length c).map fun row => (c.relation, row)) = .ok rows := hrows
  unfold program
  simp only [hcost, hrows]
  rfl

theorem length_equations_of_program {q : Program ℚ} {rows : List (Relation × Row ℚ)}
    (h : p.program = .ok q)
    (hrows : p.activeConstraints.mapM (relatedRow p.names.length) = .ok rows) :
    ((rows.filter (·.1 == .equal)).map (·.2)).length = p.equationCount := by
  obtain ⟨_, _, lists⟩ := lists_of_program h
  rw [← lists.length_equations, Except.ok.inj (lists.rows_eq.symm.trans hrows)]

/-- The equations of two programs: those of the constraints that were declared, and then those of
the fixed variables. -/
def EquationsMatch (p p' : Subproblem ℚ) (q q' : Program ℚ) : Prop :=
  ∃ declared, q.equal = declared ++ p.fixingRows ∧ q'.equal = declared ++ p'.fixingRows ∧
    declared.length = p.equationCount ∧ declared.length = p'.equationCount

theorem Rearranges.fixingRows_perm (h : p.Rearranges p') : p'.fixingRows.Perm p.fixingRows := by
  unfold fixingRows
  rw [h.names]
  exact (Dict.perm_of_get?_eq h.distinct h.distinct' h.fixed).map _

theorem Rearranges.spreadBounds_eq (h : p.Rearranges p') : p'.spreadBounds = p.spreadBounds := by
  have kept : p'.keptBounds = p.keptBounds := by
    unfold keptBounds
    simp only [h.lower, h.upper, Dict.contains_eq_isSome_get?, h.fixed]
  unfold spreadBounds
  simp only [h.names, kept]

/-- Either no subproblem has a program, for the same cause, or both have one with the same rows. -/
theorem Rearranges.program_cases (h : p.Rearranges p') :
    (∃ e, p.program = .error e ∧ p'.program = .error e) ∨
      ∃ q q', p.program = .ok q ∧ p'.program = .ok q' ∧ q.Rearranges q' ∧
        EquationsMatch p p' q q' := by
  have cost : dense p'.names.length p'.costEntries = dense p.names.length p.costEntries := by
    unfold costEntries
    rw [h.names, h.objective, h.sense]
  cases hcost : dense p.names.length p.costEntries with
  | error e =>
    exact .inl ⟨e, Except.bind_eq_error.2 (.inl hcost),
      Except.bind_eq_error.2 (.inl (cost.trans hcost))⟩
  | ok c =>
    rcases h.rows_cases with ⟨e, he, he'⟩ | ⟨rows, rows', hrows⟩
    · exact .inl ⟨e, Except.bind_eq_error.2 (.inr ⟨c, hcost, Except.bind_eq_error.2 (.inl he)⟩),
        Except.bind_eq_error.2 (.inr ⟨c, cost.trans hcost, Except.bind_eq_error.2 (.inl he')⟩)⟩
    have hp := program_eq_programOf hcost hrows.eq
    have hp' := program_eq_programOf (cost.trans hcost) hrows.eq'
    have equal : ((rows'.filter (·.1 == .equal)).map (·.2) ++ p'.fixingRows).Perm
        ((rows.filter (·.1 == .equal)).map (·.2) ++ p.fixingRows) :=
      hrows.equations_eq ▸ h.fixingRows_perm.append_left _
    unfold programOf at hp hp'
    simp only [h.names, h.spreadBounds_eq, (hrows.atMost_perm.append equal).all_eq] at hp hp'
    split at hp
    next hif =>
      rw [if_pos hif] at hp'
      exact .inl ⟨_, hp, hp'⟩
    next hif =>
      rw [if_neg hif] at hp'
      cases hbounds : p.spreadBounds with
      | error e =>
        rw [hbounds] at hp hp'
        exact .inl ⟨e, hp, hp'⟩
      | ok bounds =>
        rw [hbounds] at hp hp'
        refine .inr ⟨_, _, hp, hp', ⟨rfl, rfl, rfl, hrows.atMost_perm, equal⟩,
          (rows.filter (·.1 == .equal)).map (·.2), rfl, by rw [hrows.equations_eq], ?_, ?_⟩
        · exact length_equations_of_program hp hrows.eq
        · exact hrows.equations_eq ▸ length_equations_of_program hp' hrows.eq'

/-! ### Marginals of fixed variables -/

/-- The row that holds a variable at a value. -/
def fixingRow (size : ℕ) (e : ℕ × ℚ) : Row ℚ :=
  ⟨(List.range size).map fun j => if j == e.1 then 1 else 0, e.2⟩

theorem eq_of_fixingRow_eq {e f : ℕ × ℚ} (he : e.1 < size)
    (h : fixingRow size e = fixingRow size f) :
    e.1 = f.1 := by
  have entry := congrArg (fun r : Row ℚ => r.coefficients[e.1]?) h
  simp only [fixingRow, List.getElem?_map, List.getElem?_range he, Option.map_some] at entry
  by_contra hne
  simp [hne] at entry

/-- The marginal that the equation of a fixed variable has among those of the fixed variables. -/
def fixedMarginal (p : Subproblem ℚ) (marginals : List ℚ) (i : ℕ) : Option ℚ :=
  ((p.fixed.entries.zip marginals).find? (·.1.1 == i)).map (·.2)

theorem get?_fixedDuals (p : Subproblem ℚ) (point : List ℚ) (value : ℚ)
    (marginals : List ℚ) (i : ℕ) :
    (p.withOutcome (.optimal point value marginals)).fixedDuals.get? i =
      (p.fixedMarginal (marginals.drop p.equationCount) i).map (p.sense.sign * ·) := by
  unfold withOutcome fixedMarginal Dict.get? Dict.keys
  simp only
  rw [List.zip_map_left, List.map_map, List.find?_map, Option.map_map, Option.map_map]
  rfl

/-- The equation of a fixed variable has the marginal of the variable. -/
theorem head?_marginalsOf (hdistinct : p.fixed.Distinct) {i : ℕ} {x : ℚ}
    (hx : p.fixed.get? i = some x) (hi : i < p.names.length) (marginals : List ℚ) :
    (Program.marginalsOf p.fixingRows marginals (fixingRow p.names.length (i, x))).head? =
      p.fixedMarginal marginals i := by
  have rows : p.fixingRows = p.fixed.entries.map (fixingRow p.names.length) := rfl
  unfold Program.marginalsOf fixedMarginal
  rw [List.head?_map, List.head?_filter, rows, List.zip_map_left, List.find?_map, Option.map_map]
  refine congrArg (Option.map _) (List.find?_congr fun e he => ?_)
  have mem : e.1 ∈ p.fixed.entries := (List.of_mem_zip he).1
  rw [Bool.eq_iff_iff]
  simp only [Function.comp_apply, Prod.map_fst, decide_eq_true_eq, beq_iff_eq]
  constructor
  · exact fun heq => (eq_of_fixingRow_eq hi heq.symm).symm
  · rintro rfl
    have found := (Dict.get?_eq_some_iff hdistinct).2 ⟨e.1, mem, BEq.rfl, rfl⟩
    cases hx.symm.trans found
    rfl

theorem fixedMarginal_eq_none {i : ℕ} (h : p.fixed.get? i = none) (marginals : List ℚ) :
    p.fixedMarginal marginals i = none := by
  unfold fixedMarginal
  rw [Option.map_eq_none_iff, List.find?_eq_none]
  intro e he hei
  have mem : e.1 ∈ p.fixed.entries := (List.of_mem_zip he).1
  have some := Dict.exists_get?_of_mem_keys (List.mem_map_of_mem (f := Prod.fst) mem)
  rw [eq_of_beq hei] at some
  obtain ⟨x, hx⟩ := some
  cases h.symm.trans hx

/-- Fixed variables have the same marginals in both orders. -/
theorem Rearranges.fixedMarginal_eq (h : p.Rearranges p') {q q' : Program ℚ}
    (heq : EquationsMatch p p' q q')
    {marginals marginals' : List ℚ} (hlength : marginals.length = q.equal.length)
    (hlength' : marginals'.length = q'.equal.length)
    (hsame : ∀ row,
      Program.marginalsOf q'.equal marginals' row = Program.marginalsOf q.equal marginals row)
    (i : ℕ) :
    p'.fixedMarginal (marginals'.drop p'.equationCount) i =
      p.fixedMarginal (marginals.drop p.equationCount) i := by
  obtain ⟨declared, hq, hq', hcount, hcount'⟩ := heq
  rw [← hcount, ← hcount']
  cases hx : p.fixed.get? i with
  | none => rw [fixedMarginal_eq_none hx, fixedMarginal_eq_none ((h.fixed i).trans hx)]
  | some x =>
    obtain ⟨e, he, hei, -⟩ := Dict.exists_mem_of_get? hx
    have hi : i < p.names.length := eq_of_beq hei ▸ h.fixed_lt e he
    have taken : ∀ {marginals : List ℚ} {others : List (Row ℚ)},
        marginals.length = (declared ++ others).length → declared.length ≤ marginals.length := by
      intro marginals others hl
      rw [hl, List.length_append]
      exact Nat.le_add_right _ _
    have all := hsame (fixingRow p.names.length (i, x))
    rw [hq] at hlength
    rw [hq'] at hlength'
    rw [hq, hq', Program.marginalsOf_append (taken hlength),
      Program.marginalsOf_append (taken hlength')] at all
    -- as many equations that were declared are equal to the row in both orders
    have fixing := (List.append_inj all (by
      rw [Program.length_marginalsOf (List.length_take_of_le (taken hlength)),
        Program.length_marginalsOf (List.length_take_of_le (taken hlength'))])).2
    have found' := head?_marginalsOf h.distinct' ((h.fixed i).trans hx) (h.names ▸ hi)
      (marginals'.drop declared.length)
    rw [h.names, fixing, head?_marginalsOf h.distinct hx hi] at found'
    exact found'.symm

/-! ### Results -/

/-- The last solves of both subproblems found the same. -/
structure SameResult (r r' : Subproblem ℚ) : Prop where
  label : r'.label = r.label
  owner : r'.owner = r.owner
  lower : r'.lower = r.lower
  upper : r'.upper = r.upper
  termination : r'.termination = r.termination
  primal : r'.primal = r.primal
  dual : r'.dual = r.dual
  point : r'.point? = r.point?
  optimum : r'.optimum? = r.optimum?
  fixedDuals : ∀ i, r'.fixedDuals.get? i = r.fixedDuals.get? i

namespace SameResult

variable {r r' : Subproblem ℚ}

theorem valueOf_eq (h : r.SameResult r') (e : Affine ℚ) : r'.valueOf e = r.valueOf e := by
  unfold valueOf position
  simp only [h.point, h.label, h.owner]

theorem fixedDual_eq (h : r.SameResult r') (v : Variable) : r'.fixedDual v = r.fixedDual v := by
  unfold fixedDual position
  simp only [h.owner, h.fixedDuals]

theorem lowerBound_eq (h : r.SameResult r') (v : Variable) : r'.lowerBound v = r.lowerBound v := by
  unfold lowerBound position
  rw [h.owner, h.lower]

theorem upperBound_eq (h : r.SameResult r') (v : Variable) : r'.upperBound v = r.upperBound v := by
  unfold upperBound position
  rw [h.owner, h.upper]

end SameResult

/-- Outcomes for both orders give the same result. -/
theorem Rearranges.sameResult (h : p.Rearranges p') {q q' : Program ℚ}
    (heq : EquationsMatch p p' q q') {o o' : Outcome ℚ} (ho : o.Matches q q' o') :
    (p.withOutcome o).SameResult (p'.withOutcome o') := by
  cases ho with
  | optimal length length' same =>
    refine ⟨h.label, h.owner, h.lower, h.upper, rfl, rfl, rfl, rfl, ?_, fun i => ?_⟩
    · unfold withOutcome
      rw [h.sense, h.objective]
    · rw [get?_fixedDuals, get?_fixedDuals, h.fixedMarginal_eq heq length length' same, h.sense]
  | infeasible => exact ⟨h.label, h.owner, h.lower, h.upper, rfl, rfl, rfl, rfl, rfl, fun _ => rfl⟩
  | unbounded => exact ⟨h.label, h.owner, h.lower, h.upper, rfl, rfl, rfl, rfl, rfl, fun _ => rfl⟩
  | undecided => exact ⟨h.label, h.owner, h.lower, h.upper, rfl, rfl, rfl, rfl, rfl, fun _ => rfl⟩

/-- Both subproblems are solved with the same result, or neither is. -/
theorem Rearranges.parallel_optimize {solver : Solver ℚ} (hsolver : solver.IgnoresOrder)
    (h : p.Rearranges p') :
    Action.Parallel (fun r r' => r = p ∧ r' = p') (optimize solver) (optimize solver)
      (fun _ _ r r' => r.SameResult r') fun e e' r r' => e' = e ∧ r = p ∧ r' = p' := by
  refine .of_cases ?_
  rintro _ _ ⟨rfl, rfl⟩
  rcases h.program_cases with ⟨e, he, he'⟩ | ⟨q, q', hq, hq', hrearranges, heq⟩
  · exact .inr ⟨e, e, _, _, Action.bind_eq_error.2 (.inr ⟨_, _, rfl, Action.bind_eq_error.2 (.inl
      (Action.ofExcept_eq_error.2 ⟨he, rfl⟩))⟩), Action.bind_eq_error.2 (.inr ⟨_, _, rfl,
        Action.bind_eq_error.2 (.inl (Action.ofExcept_eq_error.2 ⟨he', rfl⟩))⟩), rfl, rfl, rfl⟩
  · exact .inl ⟨⟨⟩, ⟨⟩, _, _, Action.bind_eq_ok.2 ⟨_, _, rfl, Action.bind_eq_ok.2 ⟨q, _,
      Action.ofExcept_eq_ok.2 ⟨hq, rfl⟩, rfl⟩⟩,
      Action.bind_eq_ok.2 ⟨_, _, rfl, Action.bind_eq_ok.2 ⟨q', _,
        Action.ofExcept_eq_ok.2 ⟨hq', rfl⟩, rfl⟩⟩, h.sameResult heq (hsolver q q' hrearranges)⟩

end Subproblem

/-! ### A solver that ignores the order -/

/-- A certificate that gives the equations no weight does not depend on their order. -/
theorem Program.Rearranges.accepts_iff {q q' : Program ℚ} (h : q.Rearranges q')
    (hrows : q'.atMost = q.atMost)
    {c : Certificate} (hzero : ∀ y ∈ c.marginals, y = 0) : q'.Accepts c ↔ q.Accepts c := by
  have weightless : ∀ (k : ℕ) (v : ℚ), c.marginals.getD k 0 * v = 0 := by
    intro k v
    rcases Nat.lt_or_ge k c.marginals.length with hk | hk
    · rw [List.getD_eq_getElem _ _ hk, hzero _ (List.getElem_mem hk), zero_mul]
    · rw [List.getD_eq_default _ _ hk, zero_mul]
  unfold Accepts reducedCost inequality lowerOf upperOf size
  simp only [weightless, Finset.sum_const_zero, h.cost, h.lower, h.upper, hrows, h.equal.mem_iff,
    h.equal.length_eq]

theorem Program.Rearranges.matches_certified {q q' : Program ℚ} (h : q.Rearranges q')
    (hrows : q'.atMost = q.atMost) {guess : Program ℚ → Certificate} (hguess : guess q' = guess q)
    (hzero : ∀ y ∈ (guess q).marginals, y = 0) :
    (Solver.certified guess q).Matches q q' (Solver.certified guess q') := by
  unfold Solver.certified
  simp only [hguess, h.cost, h.accepts_iff hrows hzero]
  split
  next haccepts =>
    have length := haccepts.2.1
    have length' := length.trans h.equal.length_eq.symm
    refine .optimal length length' fun row => ?_
    rw [marginalsOf_of_zero hzero length, marginalsOf_of_zero hzero length', h.equal.countP_eq]
  next => exact .undecided

/-- What solves stages that carry a state over, unless they have several cuts. -/
def steadySolver : Solver ℚ := fun q => if q.atMost.length ≤ 1 then carryingSolver q else .undecided

theorem Solver.ignoresOrder_steady : steadySolver.IgnoresOrder := by
  intro q q' h
  unfold steadySolver
  rw [h.atMost.length_eq]
  split
  next hlength =>
    have rows : q'.atMost = q.atMost := by
      have perm := h.atMost
      rcases hq : q.atMost with _ | ⟨r, _ | ⟨_, _⟩⟩
      · rw [hq] at perm
        exact perm.eq_nil
      · rw [hq] at perm
        exact List.perm_singleton.1 perm
      · rw [hq] at hlength
        exact absurd hlength (by simp)
    refine h.matches_certified rows ?_ (by simp)
    unfold Program.lowerOf Program.inequality
    rw [h.lower, rows]
  next => exact .undecided

end Multistage
