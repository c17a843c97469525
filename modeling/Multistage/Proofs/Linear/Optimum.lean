import Multistage.Proofs.Linear.Relating
import Multistage.Proofs.Sums

/-!
# The point of a solve

The point that a sound solver finds for the program of a subproblem satisfies the constraints of the
subproblem and has the fixed values, and the optimal value is that of the objective there.

## Main definitions

- `entryOf`: the entries of a point.

## Main statements

- `Subproblem.admits_point`: the point of a solve, and the optimal value.
-/

namespace Multistage

open Finset

/-- The entries of a point by position. -/
noncomputable def entryOf (point : List ℚ) : ℕ → ℝ := fun i => (point.getD i 0 : ℚ)

theorem Scalar.cast_dot_eq_sum {a x : List ℚ} (h : a.length = x.length) :
    ((Scalar.dot a x : ℚ) : ℝ) = ∑ j ∈ range a.length, (a.getD j 0 : ℝ) * entryOf x j := by
  induction a generalizing x with
  | nil => simp [Scalar.dot, Scalar.sum]
  | cons b rest ih =>
    obtain ⟨y, x, rfl⟩ := List.exists_cons_of_length_eq_add_one h.symm
    have step : Scalar.dot (b :: rest) (y :: x) = b * y + Scalar.dot rest x := Scalar.sum_cons _ _
    rw [step, Rat.cast_add, ih (Nat.succ.inj h), List.length_cons, sum_range_succ', add_comm]
    simp [entryOf]

theorem Row.value_entryOf {size : ℕ} {r : Row ℚ} {point : List ℚ}
    (hr : r.coefficients.length = size) (hpoint : point.length = size) :
    r.value size (entryOf point) = (Scalar.dot r.coefficients point : ℚ) := by
  rw [Scalar.cast_dot_eq_sum (hr.trans hpoint.symm), hr, Row.value]

namespace Subproblem

variable {p : Subproblem ℚ} {program : Program ℚ} {rows : List (Relation × Row ℚ)}
  {bounds : List (Option ℚ × Option ℚ)} {point : List ℚ}

/-- The rows of the program of a subproblem are over its variables. -/
theorem Lists.length_coefficients (h : p.Lists program rows bounds) :
    (∀ r ∈ program.atMost, r.coefficients.length = program.size) ∧
      ∀ r ∈ program.equal, r.coefficients.length = program.size := by
  have declared : ∀ r ∈ rows, r.2.coefficients.length = p.names.length := by
    intro r hr
    obtain ⟨c, -, -, hof⟩ := h.exists_of_mem_rows hr
    obtain ⟨entries, hentries, hof⟩ := Except.bind_eq_ok.1 hof
    have dense := dense_eq_ok hentries
    rw [← Except.ok.inj hof]
    split <;> simp [dense]
  rw [h.size_eq, h.atMost_eq, h.equal_eq, fixingRows]
  refine ⟨fun row hrow => ?_, List.forall_mem_append.2 ⟨fun row hrow => ?_, ?_⟩⟩
  · obtain ⟨r, hr, rfl⟩ := List.mem_map.1 hrow
    exact declared r (List.mem_filter.1 hr).1
  · obtain ⟨r, hr, rfl⟩ := List.mem_map.1 hrow
    exact declared r (List.mem_filter.1 hr).1
  · exact List.forall_mem_map.2 fun e _ => by simp

/-- The entries of a point that the program admits satisfy its rows and bounds. -/
theorem Lists.feasible_entryOf (h : p.Lists program rows bounds) (hpoint : program.Admits point) :
    program.Feasible (entryOf point) := by
  obtain ⟨hatMost, hequal⟩ := h.length_coefficients
  -- a bound stands beside the entry of its variable
  have beside : ∀ {side : List (Option ℚ)} {j : ℕ} {b : ℚ}, j < program.size →
      b ∈ side.getD j none →
      (some b, point.getD j 0) ∈ side.zip point := by
    intro side j b hj hb
    have hp : j < point.length := hpoint.length_eq ▸ hj
    have hs : side[j]? = some (some b) := by
      rw [List.getD_eq_getElem?_getD] at hb
      cases hside : side[j]? with
      | none =>
        rw [hside] at hb
        cases hb
      | some c =>
        rw [hside] at hb
        exact congrArg some hb
    refine List.mem_of_getElem? (i := j) ?_
    rw [List.getElem?_zip_eq_some]
    exact ⟨hs, by simp [List.getD_eq_getElem?_getD, hp]⟩
  refine ⟨⟨?_, fun j hj l hl => ?_, fun j hj u hu => ?_⟩, ?_⟩
  · refine (forall_getD_iff (P := fun r : Row ℚ => r.value program.size _ ≤ r.rhs)).2 fun r hr => ?_
    rw [Row.value_entryOf (hatMost r hr) hpoint.length_eq]
    exact Rat.cast_le.2 (hpoint.atMost_le r hr)
  · exact Rat.cast_le.2 (hpoint.lower_le _ (beside hj hl) l rfl)
  · exact Rat.cast_le.2 (hpoint.le_upper _ (beside hj hu) u rfl)
  · refine (forall_getD_iff (P := fun r : Row ℚ => r.value program.size _ = r.rhs)).2 fun r hr => ?_
    rw [Row.value_entryOf (hequal r hr) hpoint.length_eq, hpoint.equal_eq r hr]

/-- The objective at a point that the program admits, from the cost of the point. -/
theorem Lists.value_objective (h : p.Lists program rows bounds)
    (hobjective : ∀ v ∈ p.objective.terms.keys, v.index < p.names.length)
    (hpoint : program.Admits point) :
    ((p.sense.sign * Scalar.dot program.cost point + p.objective.constant : ℚ) : ℝ) =
      p.objective.value (entryOf point) := by
  have cost : program.costAt (entryOf point) = ((Scalar.dot program.cost point : ℚ) : ℝ) := by
    rw [Scalar.cast_dot_eq_sum hpoint.length_eq.symm]
    rfl
  rw [costAt_eq h.cost_eq hobjective] at cost
  rw [Rat.cast_add, Rat.cast_mul, ← cost, ← mul_assoc, Sense.cast_sign_mul_self, one_mul,
    sub_add_cancel]

/-- After a solve with a sound solver the subproblem has a point that it admits, with the values of
the fixed variables and with the optimal value. -/
theorem admits_point {solver : Solver ℚ} (hsolver : solver.Sound) {p' : Subproblem ℚ}
    (h : optimize solver p = .ok () p') (hprimal : p'.primal = .feasiblePoint)
    (hlower : p.lower.length = p.names.length) (hupper : p.upper.length = p.names.length)
    (hfixed : ∀ e ∈ p.fixed.entries, e.1 < p.names.length)
    (hobjective : ∀ v ∈ p.objective.terms.keys, v.index < p.names.length) :
    ∃ point optimum, p'.point? = some point ∧ p'.optimum? = some optimum ∧
      point.length = p.names.length ∧ p.Admits (fun _ => False) (entryOf point) ∧
      (∀ e ∈ p.fixed.entries, entryOf point e.1 = e.2) ∧
      (optimum : ℝ) = p.objective.value (entryOf point) := by
  obtain ⟨program, hprogram, rfl⟩ := optimize_eq_ok h
  cases hout : solver program with
  | optimal point value marginals =>
    obtain ⟨hpoint, hvalue, -⟩ := hsolver program point value marginals hout
    obtain ⟨rows, bounds, lists⟩ := lists_of_program hprogram
    have length : point.length = p.names.length := hpoint.length_eq.trans lists.size_eq
    obtain ⟨admits, values⟩ := (lists.feasible_iff hlower hupper hfixed _).1
      (lists.feasible_entryOf hpoint)
    exact ⟨point, p.sense.sign * value + p.objective.constant, rfl, rfl, length, admits, values,
      hvalue ▸ lists.value_objective hobjective hpoint⟩
  | infeasible => rw [hout] at hprimal; cases hprimal
  | unbounded => rw [hout] at hprimal; cases hprimal
  | undecided => rw [hout] at hprimal; cases hprimal

/-! ### What is read at the point -/

theorem cast_valueOf {e : Affine ℚ} {c : ℚ} (hpoint : p.point? = some point)
    (h : p.valueOf e = .ok c) : (c : ℝ) = e.value (entryOf point) := by
  unfold valueOf at h
  rw [hpoint] at h
  obtain ⟨terms, hterms, h⟩ := Except.bind_eq_ok.1 h
  cases h
  have entries := Except.map_eq_of_mapM hterms (k := fun x : ℚ => (x : ℝ))
    (g := fun t => (t.2 : ℝ) * entryOf point t.1.index) fun t _ x hx => by
      obtain ⟨i, hi, hx⟩ := Except.bind_eq_ok.1 hx
      obtain ⟨-, rfl⟩ := position_eq_ok hi
      split at hx
      next y hy =>
        cases hx
        rw [Rat.cast_mul, entryOf, List.getD_eq_getElem?_getD, hy]
        rfl
      next => cases hx
  rw [Affine.value, ← entries, Rat.cast_add, Scalar.sum_eq_listSum, Rat.cast_list_sum]

/-- An expression has a value at a point with an entry for each of its variables. -/
theorem exists_valueOf {e : Affine ℚ} (hpoint : p.point? = some point)
    (he : ∀ v ∈ e.terms.keys, v.owner = p.owner ∧ v.index < point.length) :
    ∃ c, p.valueOf e = .ok c := by
  unfold valueOf
  rw [hpoint]
  refine Except.exists_bind (Except.exists_mapM fun t ht => ?_) fun terms _ => ⟨_, rfl⟩
  obtain ⟨howner, hindex⟩ := he t.1 (List.mem_map_of_mem ht)
  refine ⟨t.2 * point[t.1.index], Except.bind_eq_ok.2 ⟨t.1.index, ?_, ?_⟩⟩
  · rw [position, if_pos (by simpa using howner)]
  · rw [List.getElem?_eq_getElem hindex]
    rfl

theorem fixedDual_eq_ok {v : Variable} {dual : ℚ} (h : p.fixedDual v = .ok dual) :
    p.fixedDuals.get? v.index = some dual := by
  obtain ⟨i, hi, h⟩ := Except.bind_eq_ok.1 h
  obtain ⟨-, rfl⟩ := position_eq_ok hi
  split at h
  next d hd =>
    cases h
    exact hd
  next => cases h

end Subproblem

end Multistage
