import Mathlib.Algebra.BigOperators.Ring.Finset
import Mathlib.Data.Real.Basic
import Mathlib.Tactic.Linarith
import Mathlib.Tactic.Ring
import Multistage.Linear.Subproblem
import Multistage.Proofs.Except
import Multistage.Proofs.Linear.Assembly
import Multistage.Proofs.Linear.Duality
import Multistage.Proofs.Linear.Expression
import Multistage.Proofs.Lists
import Multistage.Proofs.Sense

/-!
# The duals of fixed variables

A solve of a subproblem with a sound solver bounds the objective at every point that the subproblem
admits, also if the fixed variables are moved: the bound moves with them as their duals say.

## Main definitions

- `Constraint.Holds`: a constraint at a point.
- `Subproblem.Admits`: the constraints and the bounds hold at a point.

## Main statements

- `Subproblem.Lists.feasible_iff`: the points of the program of a subproblem.
- `Subproblem.optimum_atMost`: the optimal value, moved along the duals, bounds the objective.
-/

namespace Multistage

open Finset

/-- How a relation compares real numbers. -/
def Relation.Holds : Relation → ℝ → ℝ → Prop
  | atMost, a, b => a ≤ b
  | atLeast, a, b => b ≤ a
  | equal, a, b => a = b

/-- Whether numbers are related depends on their difference. -/
theorem Relation.holds_congr {relation : Relation} {a b a' b' : ℝ} (h : a - b = a' - b') :
    relation.Holds a b ↔ relation.Holds a' b' := by
  cases relation with
  | atMost => exact sub_nonpos.symm.trans (h ▸ sub_nonpos)
  | atLeast => exact sub_nonneg.symm.trans (h ▸ sub_nonneg)
  | equal => exact sub_eq_zero.symm.trans (h ▸ sub_eq_zero)

/-- The constraint holds at a point. -/
def Constraint.Holds (size : ℕ) (c : Constraint ℚ) (z : ℕ → ℝ) : Prop :=
  c.relation.Holds (c.coefficients.combination size z) c.rhs

namespace Subproblem

/-- The active constraints hold, and variables that are neither fixed nor free lie within their
bounds. -/
structure Admits (p : Subproblem ℚ) (free : ℕ → Prop) (z : ℕ → ℝ) : Prop where
  holds : ∀ c ∈ p.activeConstraints, c.Holds p.names.length z
  lower_le : ∀ i, ¬free i → p.fixed.get? i = none → ∀ l, p.lower[i]? = some (.finite l) →
    (l : ℝ) ≤ z i
  le_upper : ∀ i, ¬free i → p.fixed.get? i = none → ∀ u, p.upper[i]? = some (.finite u) →
    z i ≤ (u : ℝ)

/-! ### Rows -/

theorem dense_eq_ok {size : ℕ} {entries : Dict ℕ ℚ} {row : List ℚ}
    (h : dense size entries = .ok row) :
    row = (List.range size).map fun i => entries.getD i 0 := by
  unfold dense at h
  split at h
  · cases h
  · exact (Except.ok.inj h).symm

theorem value_map_range (size : ℕ) (f : ℕ → ℚ) (rhs : ℚ) (z : ℕ → ℝ) :
    Row.value size ⟨(List.range size).map f, rhs⟩ z = ∑ j ∈ range size, (f j : ℝ) * z j := by
  refine sum_congr rfl fun j hj => ?_
  rw [List.getD_eq_getElem?_getD, List.getElem?_map, List.getElem?_range (mem_range.1 hj)]
  rfl

theorem value_fixingRow {size i : ℕ} (hi : i < size) (rhs : ℚ) (z : ℕ → ℝ) :
    Row.value size ⟨(List.range size).map fun j => if j == i then 1 else 0, rhs⟩ z = z i := by
  rw [value_map_range, sum_eq_single_of_mem _ (mem_range.2 hi)]
  · simp
  · intro j _ hj
    simp [hj]

/-- The row of a constraint that is no equation holds where the constraint does. -/
theorem value_rowOf_le_iff {size : ℕ} {c : Constraint ℚ} {row : Row ℚ} (h : rowOf size c = .ok row)
    (hr : c.relation ≠ .equal) (z : ℕ → ℝ) : row.value size z ≤ row.rhs ↔ c.Holds size z := by
  obtain ⟨entries, hentries, h⟩ := Except.bind_eq_ok.1 h
  have hentries := dense_eq_ok hentries
  cases hrel : c.relation with
  | atMost =>
    rw [hrel] at h
    cases h
    rw [hentries, value_map_range, Constraint.Holds, hrel]
    rfl
  | atLeast =>
    rw [hrel] at h
    cases h
    -- the row has the opposite sign
    have negated :
        ∑ j ∈ range size, (((fun x : ℚ => -x) ∘ fun i => c.coefficients.getD i 0) j : ℝ) * z j =
        -c.coefficients.combination size z := by
      simp [Dict.combination]
    rw [hentries, List.map_map, value_map_range, Constraint.Holds, hrel, negated, Rat.cast_neg,
      neg_le_neg_iff]
    rfl
  | equal => exact absurd hrel hr

/-- The row of an equation holds where the equation does. -/
theorem value_rowOf_eq_iff {size : ℕ} {c : Constraint ℚ} {row : Row ℚ} (h : rowOf size c = .ok row)
    (hr : c.relation = .equal) (z : ℕ → ℝ) : row.value size z = row.rhs ↔ c.Holds size z := by
  obtain ⟨entries, hentries, h⟩ := Except.bind_eq_ok.1 h
  rw [hr] at h
  cases h
  rw [dense_eq_ok hentries, value_map_range, Constraint.Holds, hr]
  rfl

/-! ### The program of a subproblem -/

variable {p : Subproblem ℚ} {program : Program ℚ}

/-- What the program of a subproblem consists of. -/
structure Lists (p : Subproblem ℚ) (program : Program ℚ) (rows : List (Relation × Row ℚ))
    (bounds : List (Option ℚ × Option ℚ)) : Prop where
  cost_eq : dense p.names.length p.costEntries = .ok program.cost
  rows_eq : p.activeConstraints.mapM (fun c =>
    (rowOf p.names.length c).map fun row => (c.relation, row)) = .ok rows
  atMost_eq : program.atMost = (rows.filter (·.1 != .equal)).map (·.2)
  equal_eq : program.equal = (rows.filter (·.1 == .equal)).map (·.2) ++ p.fixingRows
  bounds_eq : p.spreadBounds = .ok bounds
  lower_eq : program.lower = bounds.map (·.1)
  upper_eq : program.upper = bounds.map (·.2)

theorem lists_of_program (h : p.program = .ok program) :
    ∃ rows bounds, p.Lists program rows bounds := by
  obtain ⟨cost, hcost, h⟩ := Except.bind_eq_ok.1 h
  obtain ⟨rows, hrows, h⟩ := Except.bind_eq_ok.1 h
  simp only at h
  split at h
  · cases h
  · obtain ⟨bounds, hbounds, h⟩ := Except.bind_eq_ok.1 h
    cases h
    exact ⟨rows, bounds, hcost, hrows, rfl, rfl, hbounds, rfl, rfl⟩

namespace Lists

variable {rows : List (Relation × Row ℚ)} {bounds : List (Option ℚ × Option ℚ)}

theorem size_eq (h : p.Lists program rows bounds) : program.size = p.names.length := by
  rw [Program.size, dense_eq_ok h.cost_eq, List.length_map, List.length_range]

theorem exists_of_mem_rows (h : p.Lists program rows bounds) {r : Relation × Row ℚ}
    (hr : r ∈ rows) :
    ∃ c ∈ p.activeConstraints, c.relation = r.1 ∧ rowOf p.names.length c = .ok r.2 := by
  obtain ⟨c, hc, hrow⟩ := Except.exists_of_mem_mapM h.rows_eq hr
  obtain ⟨row, hof, rfl⟩ := Except.map_eq_ok.1 hrow
  exact ⟨c, hc, rfl, hof⟩

theorem length_equations (h : p.Lists program rows bounds) :
    ((rows.filter (·.1 == .equal)).map (·.2)).length = p.equationCount := by
  have relations : rows.map (·.1) = p.activeConstraints.map (·.relation) := by
    refine Except.map_eq_of_mapM h.rows_eq fun c _ r hr => ?_
    obtain ⟨row, -, rfl⟩ := Except.map_eq_ok.1 hr
    rfl
  have count : ∀ rs : List (Relation × Row ℚ), (rs.filter (·.1 == .equal)).length =
      (rs.map (·.1)).countP (· == .equal) := by
    intro rs
    rw [List.countP_map, List.countP_eq_length_filter]
    rfl
  rw [List.length_map, count, relations, List.countP_map, List.countP_eq_length_filter]
  rfl

theorem length_equal (h : p.Lists program rows bounds) :
    program.equal.length = p.equationCount + p.fixed.entries.length := by
  rw [h.equal_eq, List.length_append, h.length_equations, fixingRows, List.length_map]

/-- Every variable has a pair of bounds. -/
theorem bounds_eq_kept (h : p.Lists program rows bounds) (hlower : p.lower.length = p.names.length)
    (hupper : p.upper.length = p.names.length) :
    bounds = p.keptBounds ∧ bounds.length = p.names.length := by
  have hb := h.bounds_eq
  rw [spreadBounds_eq_kept hlower hupper] at hb
  cases hb
  refine ⟨rfl, ?_⟩
  rw [length_keptBounds, hlower, hupper, Nat.min_self]

/-- Variables that are fixed have no bounds, and the other ones those that are finite. -/
theorem getD_bounds (h : p.Lists program rows bounds) (hlower : p.lower.length = p.names.length)
    (hupper : p.upper.length = p.names.length) {i : ℕ} (hi : i < p.names.length) :
    bounds.getD i (none, none) = if p.fixed.contains i then (none, none) else
      ((p.lower[i]?).bind Extended.finite?, (p.upper[i]?).bind Extended.finite?) := by
  have hl : i < p.lower.length := by omega
  have hu : i < p.upper.length := by omega
  rw [(h.bounds_eq_kept hlower hupper).1, keptBounds, List.getD_eq_getElem?_getD,
    List.getElem?_map, List.getElem?_zipIdx]
  simp [hl, hu]

/-- The bounds are those of the variables that are not fixed. -/
theorem bounds_getD (h : p.Lists program rows bounds) (hlower : p.lower.length = p.names.length)
    (hupper : p.upper.length = p.names.length) {i : ℕ} (hi : i < p.names.length) :
    (∀ l ∈ (bounds.getD i (none, none)).1, p.fixed.get? i = none ∧ p.lower[i]? = some (.finite l)) ∧
      ∀ u ∈ (bounds.getD i (none, none)).2,
        p.fixed.get? i = none ∧ p.upper[i]? = some (.finite u) := by
  have finite : ∀ {b? : Option (Extended ℚ)} {x : ℚ}, x ∈ b?.bind Extended.finite? →
      b? = some (.finite x) := by
    intro b? x hx
    obtain ⟨b, rfl, hb⟩ := Option.bind_eq_some_iff.1 hx
    cases b with
    | finite y => exact congrArg (some ∘ Extended.finite) (Option.some.inj hb)
    | posInf => cases hb
    | negInf => cases hb
    | nan => cases hb
  rw [h.getD_bounds hlower hupper hi]
  by_cases hf : p.fixed.contains i = true
  · simp [hf]
  · rw [if_neg hf]
    rw [Dict.contains_eq_isSome_get?, Option.not_isSome_iff_eq_none] at hf
    exact ⟨fun l hx => ⟨hf, finite hx⟩, fun u hx => ⟨hf, finite hx⟩⟩

/-- The inequalities of the program hold where the constraints that are no equations do. -/
theorem forall_atMost_iff (h : p.Lists program rows bounds) (z : ℕ → ℝ) :
    (∀ i < program.atMost.length,
        (program.inequality i).value program.size z ≤ (program.inequality i).rhs) ↔
      ∀ c ∈ p.activeConstraints, c.relation ≠ .equal → c.Holds p.names.length z := by
  refine (forall_getD_iff (P := fun r : Row ℚ => r.value program.size z ≤ r.rhs)).trans ?_
  rw [h.size_eq, h.atMost_eq]
  constructor
  · intro hrows c hc hrel
    obtain ⟨r, hr, hrow⟩ := Except.exists_of_mem_items h.rows_eq hc
    obtain ⟨row, hof, rfl⟩ := Except.map_eq_ok.1 hrow
    exact (value_rowOf_le_iff hof hrel z).1
      (hrows row (List.mem_map.2 ⟨_, List.mem_filter.2 ⟨hr, by simpa using hrel⟩, rfl⟩))
  · intro hholds row hrow
    obtain ⟨r, hr, rfl⟩ := List.mem_map.1 hrow
    obtain ⟨hr, hrel⟩ := List.mem_filter.1 hr
    obtain ⟨c, hc, hcr, hof⟩ := h.exists_of_mem_rows hr
    have hrel : c.relation ≠ .equal := by simpa [hcr] using hrel
    exact (value_rowOf_le_iff hof hrel z).2 (hholds c hc hrel)

/-- The rows of the constraints that are equations hold where these do. -/
theorem forall_declared_iff (h : p.Lists program rows bounds) (z : ℕ → ℝ) :
    (∀ row ∈ (rows.filter (·.1 == .equal)).map (·.2), row.value p.names.length z = row.rhs) ↔
      ∀ c ∈ p.activeConstraints, c.relation = .equal → c.Holds p.names.length z := by
  constructor
  · intro hrows c hc hrel
    obtain ⟨r, hr, hrow⟩ := Except.exists_of_mem_items h.rows_eq hc
    obtain ⟨row, hof, rfl⟩ := Except.map_eq_ok.1 hrow
    exact (value_rowOf_eq_iff hof hrel z).1
      (hrows row (List.mem_map.2 ⟨_, List.mem_filter.2 ⟨hr, by simpa using hrel⟩, rfl⟩))
  · intro hholds row hrow
    obtain ⟨r, hr, rfl⟩ := List.mem_map.1 hrow
    obtain ⟨hr, hrel⟩ := List.mem_filter.1 hr
    obtain ⟨c, hc, hcr, hof⟩ := h.exists_of_mem_rows hr
    have hrel : c.relation = .equal := by simpa [hcr] using hrel
    exact (value_rowOf_eq_iff hof hrel z).2 (hholds c hc hrel)

/-- The equations of the program are those of the constraints and those of the fixed variables. -/
theorem forall_equal_iff_rows (h : p.Lists program rows bounds) (z : ℕ → ℝ) :
    (∀ k < program.equal.length,
        (program.equation k).value program.size z = (program.equation k).rhs) ↔
      (∀ c ∈ p.activeConstraints, c.relation = .equal → c.Holds p.names.length z) ∧
        ∀ row ∈ p.fixingRows, row.value p.names.length z = row.rhs := by
  refine (forall_getD_iff (P := fun r : Row ℚ => r.value program.size z = r.rhs)).trans ?_
  rw [h.size_eq, h.equal_eq, List.forall_mem_append, h.forall_declared_iff]

/-- The equations of the program hold where the constraints that are equations do and the fixed
variables have their values. -/
theorem forall_equal_iff (h : p.Lists program rows bounds)
    (hfixed : ∀ e ∈ p.fixed.entries, e.1 < p.names.length) (z : ℕ → ℝ) :
    (∀ k < program.equal.length,
        (program.equation k).value program.size z = (program.equation k).rhs) ↔
      (∀ c ∈ p.activeConstraints, c.relation = .equal → c.Holds p.names.length z) ∧
        ∀ e ∈ p.fixed.entries, z e.1 = e.2 := by
  rw [h.forall_equal_iff_rows, fixingRows, List.forall_mem_map]
  refine and_congr_right fun _ => forall₂_congr fun e he => ?_
  rw [value_fixingRow (hfixed e he)]

/-- The bounds of the program are those that are finite, of the variables that are not fixed. -/
theorem forall_lower_iff (h : p.Lists program rows bounds)
    (hlower : p.lower.length = p.names.length)
    (hupper : p.upper.length = p.names.length) (z : ℕ → ℝ) :
    (∀ j < program.size, ∀ l ∈ program.lowerOf j, (l : ℝ) ≤ z j) ↔
      ∀ i, p.fixed.get? i = none → ∀ l, p.lower[i]? = some (.finite l) → (l : ℝ) ≤ z i := by
  have at_j : ∀ j, program.lowerOf j = (bounds.getD j (none, none)).1 := by
    intro j
    rw [Program.lowerOf, h.lower_eq, List.getD_eq_getElem?_getD, List.getD_eq_getElem?_getD,
      List.getElem?_map]
    cases bounds[j]? <;> rfl
  rw [h.size_eq]
  constructor
  · intro hbounds i hfree l hl
    have hi : i < p.names.length := hlower ▸ (List.getElem?_eq_some_iff.1 hl).1
    refine hbounds i hi l ?_
    rw [at_j, h.getD_bounds hlower hupper hi, Dict.contains_eq_isSome_get?, hfree, hl]
    rfl
  · intro hbounds j hj l hl
    obtain ⟨hfree, hlo⟩ := (h.bounds_getD hlower hupper hj).1 l (at_j j ▸ hl)
    exact hbounds j hfree l hlo

theorem forall_upper_iff (h : p.Lists program rows bounds)
    (hlower : p.lower.length = p.names.length)
    (hupper : p.upper.length = p.names.length) (z : ℕ → ℝ) :
    (∀ j < program.size, ∀ u ∈ program.upperOf j, z j ≤ (u : ℝ)) ↔
      ∀ i, p.fixed.get? i = none → ∀ u, p.upper[i]? = some (.finite u) → z i ≤ (u : ℝ) := by
  have at_j : ∀ j, program.upperOf j = (bounds.getD j (none, none)).2 := by
    intro j
    rw [Program.upperOf, h.upper_eq, List.getD_eq_getElem?_getD, List.getD_eq_getElem?_getD,
      List.getElem?_map]
    cases bounds[j]? <;> rfl
  rw [h.size_eq]
  constructor
  · intro hbounds i hfree u hu
    have hi : i < p.names.length := hupper ▸ (List.getElem?_eq_some_iff.1 hu).1
    refine hbounds i hi u ?_
    rw [at_j, h.getD_bounds hlower hupper hi, Dict.contains_eq_isSome_get?, hfree, hu]
    rfl
  · intro hbounds j hj u hu
    obtain ⟨hfree, hup⟩ := (h.bounds_getD hlower hupper hj).2 u (at_j j ▸ hu)
    exact hbounds j hfree u hup

/-- The program allows the points that the subproblem admits. -/
theorem allows (h : p.Lists program rows bounds) (hlower : p.lower.length = p.names.length)
    (hupper : p.upper.length = p.names.length) {z : ℕ → ℝ} (hz : p.Admits (fun _ => False) z) :
    program.Allows z where
  atMost_le := (h.forall_atMost_iff z).2 fun c hc _ => hz.holds c hc
  lower_le := (h.forall_lower_iff hlower hupper z).2 fun i => hz.lower_le i not_false
  le_upper := (h.forall_upper_iff hlower hupper z).2 fun i => hz.le_upper i not_false

/-- The points of the program are those that the subproblem admits and at which the fixed variables
have their values. -/
theorem feasible_iff (h : p.Lists program rows bounds) (hlower : p.lower.length = p.names.length)
    (hupper : p.upper.length = p.names.length)
    (hfixed : ∀ e ∈ p.fixed.entries, e.1 < p.names.length) (z : ℕ → ℝ) :
    program.Feasible z ↔
      p.Admits (fun _ => False) z ∧ ∀ e ∈ p.fixed.entries, z e.1 = e.2 := by
  constructor
  · rintro ⟨⟨hatMost, hlo, hup⟩, hequal⟩
    obtain ⟨hequations, hvalues⟩ := (h.forall_equal_iff hfixed z).1 hequal
    refine ⟨⟨fun c hc => ?_, fun i _ => ?_, fun i _ => ?_⟩, hvalues⟩
    · by_cases hrel : c.relation = .equal
      · exact hequations c hc hrel
      · exact (h.forall_atMost_iff z).1 hatMost c hc hrel
    · exact (h.forall_lower_iff hlower hupper z).1 hlo i
    · exact (h.forall_upper_iff hlower hupper z).1 hup i
  · rintro ⟨hadmits, hvalues⟩
    exact ⟨h.allows hlower hupper hadmits,
      (h.forall_equal_iff hfixed z).2 ⟨fun c hc _ => hadmits.holds c hc, hvalues⟩⟩

/-- What the equations miss at a point that satisfies those that were declared is what the rows of
the fixed variables miss, where `g` says what these rows are worth. -/
theorem sum_equations (h : p.Lists program rows bounds) {z : ℕ → ℝ}
    (hequations : ∀ c ∈ p.activeConstraints, c.relation = .equal → c.Holds p.names.length z)
    {g : ℕ → ℝ}
    (hg : ∀ e ∈ p.fixed.entries, Row.value p.names.length
      ⟨(List.range p.names.length).map fun j => if j == e.1 then 1 else 0, e.2⟩ z = g e.1)
    (marginals : List ℚ) :
    ∑ k ∈ range program.equal.length, (marginals.getD k 0 : ℝ) *
        ((program.equation k).value program.size z - (program.equation k).rhs) =
      ∑ l ∈ range p.fixed.entries.length, ((marginals.drop p.equationCount).getD l 0 : ℝ) *
        (g (p.fixed.entries.getD l (0, 0)).1 - (p.fixed.entries.getD l (0, 0)).2) := by
  -- the equations that were declared miss nothing
  have declared : ∀ k ∈ range p.equationCount, (marginals.getD k 0 : ℝ) *
      ((program.equation k).value program.size z - (program.equation k).rhs) = 0 := by
    intro k hk
    have hk : k < ((rows.filter (·.1 == .equal)).map (·.2)).length := by
      rw [h.length_equations]
      exact mem_range.1 hk
    have hmem : program.equation k ∈ (rows.filter (·.1 == .equal)).map (·.2) := by
      rw [Program.equation, h.equal_eq, List.getD_eq_getElem?_getD, List.getElem?_append_left hk,
        List.getElem?_eq_getElem hk]
      exact List.getElem_mem hk
    rw [h.size_eq, (h.forall_declared_iff z).2 hequations _ hmem, sub_self, mul_zero]
  rw [h.length_equal, sum_range_add, sum_eq_zero declared, zero_add]
  refine sum_congr rfl fun l hl => ?_
  have hl := mem_range.1 hl
  have row : program.equation (p.equationCount + l) =
      ⟨(List.range p.names.length).map fun j => if j == p.fixed.entries[l].1 then 1 else 0,
        p.fixed.entries[l].2⟩ := by
    rw [Program.equation, h.equal_eq, List.getD_eq_getElem?_getD, ← h.length_equations,
      List.getElem?_append_right (Nat.le_add_right _ _), Nat.add_sub_cancel_left, fixingRows,
      List.getElem?_map, List.getElem?_eq_getElem hl]
    rfl
  have value : Row.value program.size (program.equation (p.equationCount + l)) z =
      g p.fixed.entries[l].1 := by
    rw [row, h.size_eq]
    exact hg _ (List.getElem_mem hl)
  rw [value, row]
  simp [List.getD_eq_getElem?_getD, List.getElem?_eq_getElem hl]

end Lists

/-- The duals of fixed variables, in the order of the variables. -/
theorem sum_zip_keys (g : ℕ × ℚ → ℝ) {entries : List (ℕ × ℚ)} {duals : List ℚ}
    (hd : (⟨entries⟩ : Dict ℕ ℚ).Distinct) (hlength : duals.length = entries.length) :
    ∑ l ∈ range entries.length, (duals.getD l 0 : ℝ) * g (entries.getD l (0, 0)) =
      (entries.map fun e =>
        (((⟨(entries.map (·.1)).zip duals⟩ : Dict ℕ ℚ).getD e.1 0 : ℚ) : ℝ) * g e).sum := by
  induction entries generalizing duals with
  | nil => simp
  | cons e rest ih =>
    obtain ⟨m, ms, rfl⟩ : ∃ m ms, duals = m :: ms := List.exists_cons_of_length_eq_add_one hlength
    obtain ⟨hfirst, hrest⟩ := List.pairwise_cons.1 hd
    -- the dual of the first variable is found for no later one
    have others : ∀ f ∈ rest,
        (⟨((e :: rest).map (·.1)).zip (m :: ms)⟩ : Dict ℕ ℚ).getD f.1 0 =
          (⟨(rest.map (·.1)).zip ms⟩ : Dict ℕ ℚ).getD f.1 0 := by
      intro f hf
      have hne : ¬(e.1 == f.1) = true := by simp [hfirst f hf]
      rw [List.map_cons, List.zip_cons_cons, Dict.getD, Dict.get?_cons, if_neg hne]
      rfl
    have own : (⟨((e :: rest).map (·.1)).zip (m :: ms)⟩ : Dict ℕ ℚ).getD e.1 0 = m := by
      rw [List.map_cons, List.zip_cons_cons, Dict.getD, Dict.get?_cons,
        if_pos (beq_self_eq_true e.1)]
      rfl
    rw [List.length_cons, sum_range_succ', List.map_cons, List.sum_cons, own,
      List.map_congr_left fun f hf => by rw [others f hf], ← ih hrest (Nat.succ.inj hlength),
      add_comm]
    rfl

/-- The cost of a subproblem is its objective without the constant, in the direction in which it is
minimised. -/
theorem costAt_eq (h : dense p.names.length p.costEntries = .ok program.cost)
    (hobjective : ∀ v ∈ p.objective.terms.keys, v.index < p.names.length) (z : ℕ → ℝ) :
    program.costAt z = (p.sense.sign : ℚ) * (p.objective.value z - p.objective.constant) := by
  -- entries at equal positions are added up one after the other
  have folded : ∀ (es : List (Variable × ℚ)) (cost : Dict ℕ ℚ),
      (∀ e ∈ es, e.1.index < p.names.length) →
      (es.foldl (fun cost e =>
        cost.insert e.1.index (cost.getD e.1.index 0 + p.sense.sign * e.2)) cost).combination
          p.names.length z =
        cost.combination p.names.length z +
          (p.sense.sign : ℚ) * (es.map fun e => (e.2 : ℝ) * z e.1.index).sum := by
    intro es
    induction es with
    | nil => intro cost _; simp
    | cons e rest ih =>
      intro cost hes
      rw [List.foldl_cons, ih _ fun f hf => hes f (List.mem_cons_of_mem _ hf),
        Dict.combination_insert (hes e List.mem_cons_self), List.map_cons, List.sum_cons]
      push_cast
      ring
  have size : program.size = p.names.length := by
    rw [Program.size, dense_eq_ok h, List.length_map, List.length_range]
  have cost : program.costAt z = p.costEntries.combination p.names.length z := by
    have row := value_map_range p.names.length (fun i => p.costEntries.getD i 0) 0 z
    rw [← dense_eq_ok h] at row
    rw [Program.costAt, size]
    exact row
  have terms : ∀ e ∈ p.objective.terms.entries, e.1.index < p.names.length := fun e he =>
    hobjective e.1 (List.mem_map_of_mem he)
  rw [cost, costEntries, Affine.value, add_sub_cancel_left]
  exact (folded p.objective.terms.entries Dict.empty terms).trans
    (by rw [Dict.combination_empty, zero_add])

/-- The costs are at the positions of the variables of the objective. -/
theorem keys_costEntries {i : ℕ} (h : i ∈ p.costEntries.keys) :
    ∃ v ∈ p.objective.terms.keys, v.index = i := by
  have folded : ∀ (es : List (Variable × ℚ)) (cost : Dict ℕ ℚ),
      i ∈ (es.foldl (fun cost e =>
        cost.insert e.1.index (cost.getD e.1.index 0 + p.sense.sign * e.2)) cost).keys →
        i ∈ cost.keys ∨ ∃ v ∈ es.map (·.1), v.index = i := by
    intro es
    induction es with
    | nil => exact fun cost h => .inl h
    | cons e rest ih =>
      intro cost h
      rcases ih _ h with h | ⟨v, hv, hi⟩
      · rcases Dict.mem_keys_insert h with rfl | h
        · exact .inr ⟨e.1, List.mem_cons_self, rfl⟩
        · exact .inl h
      · exact .inr ⟨v, List.mem_cons_of_mem _ hv, hi⟩
  exact (folded p.objective.terms.entries Dict.empty h).resolve_left nofun

theorem exists_dense {size : ℕ} {entries : Dict ℕ ℚ} (h : ∀ i ∈ entries.keys, i < size) :
    ∃ row, dense size entries = .ok row := by
  refine ⟨_, if_neg fun hany => ?_⟩
  obtain ⟨i, hi, hle⟩ := List.any_eq_true.1 hany
  exact absurd (h i hi) (not_lt.2 (of_decide_eq_true hle))

/-- A subproblem has a program if it has variables and all that it is about is among them. -/
theorem exists_program (hne : p.names.length ≠ 0) (hlower : p.lower.length = p.names.length)
    (hupper : p.upper.length = p.names.length)
    (hkeys : ∀ c ∈ p.activeConstraints, ∀ i ∈ c.coefficients.keys, i < p.names.length)
    (hobjective : ∀ v ∈ p.objective.terms.keys, v.index < p.names.length) :
    ∃ program, p.program = .ok program := by
  have costs : ∀ i ∈ p.costEntries.keys, i < p.names.length := by
    intro i hi
    obtain ⟨v, hv, rfl⟩ := keys_costEntries hi
    exact hobjective v hv
  obtain ⟨cost, hcost⟩ := exists_dense costs
  have related : ∀ c ∈ p.activeConstraints, ∃ r,
      ((rowOf p.names.length c).map fun row => (c.relation, row)) = .ok r := by
    intro c hc
    obtain ⟨entries, hentries⟩ := exists_dense (hkeys c hc)
    exact ⟨_, Except.map_eq_ok.2 ⟨_, Except.bind_eq_ok.2 ⟨entries, hentries, rfl⟩, rfl⟩⟩
  obtain ⟨rows, hrows⟩ := Except.exists_mapM related
  have spread : p.spreadBounds = .ok p.keptBounds := spreadBounds_eq_kept hlower hupper
  let program : Program ℚ :=
    ⟨cost, (rows.filter (·.1 != .equal)).map (·.2),
      (rows.filter (·.1 == .equal)).map (·.2) ++ p.fixingRows,
      p.keptBounds.map (·.1), p.keptBounds.map (·.2)⟩
  -- all rational numbers are finite
  have finite : ∀ x : ℚ, Scalar.isFinite x = true := fun _ => rfl
  refine ⟨program, Except.bind_eq_ok.2 ⟨cost, hcost, Except.bind_eq_ok.2 ⟨rows, hrows, ?_⟩⟩⟩
  rw [if_neg (by simp [finite, hne])]
  exact Except.bind_eq_ok.2 ⟨_, spread, rfl⟩

/-- The duals are the marginals of the rows of the fixed variables, in the sense of the
subproblem. -/
theorem getD_fixedDuals (point : List ℚ) (value : ℚ) (marginals : List ℚ) (i : ℕ) :
    (p.withOutcome (.optimal point value marginals)).fixedDuals.getD i 0 =
      p.sense.sign * (⟨(p.fixed.entries.map (·.1)).zip
        (marginals.drop p.equationCount)⟩ : Dict ℕ ℚ).getD i 0 := by
  show ((Dict.mapValues (fun _ m => p.sense.sign * m) (⟨(p.fixed.entries.map (·.1)).zip
    (marginals.drop p.equationCount)⟩ : Dict ℕ ℚ)).get? i).getD 0 = _
  rw [Dict.get?_mapValues, Dict.getD]
  cases (⟨(p.fixed.entries.map (·.1)).zip (marginals.drop p.equationCount)⟩ : Dict ℕ ℚ).get? i with
  | none => simp
  | some m => rfl

/-- A value with multipliers, moved along the duals of the fixed variables, bounds the objective at
every point that the program allows and that satisfies the equations that were declared; `g` says
what the rows of the fixed variables are worth there. -/
theorem Lists.moved_atMost {rows : List (Relation × Row ℚ)} {bounds : List (Option ℚ × Option ℚ)}
    (lists : p.Lists program rows bounds) {value : ℚ} {marginals : List ℚ}
    {rowMultipliers lower upper : ℕ → ℚ}
    (hmult : program.Multipliers value marginals rowMultipliers lower upper) (hd : p.fixed.Distinct)
    (hobjective : ∀ v ∈ p.objective.terms.keys, v.index < p.names.length) {z : ℕ → ℝ}
    (hz : program.Allows z)
    (hequations : ∀ c ∈ p.activeConstraints, c.relation = .equal → c.Holds p.names.length z)
    {g : ℕ → ℝ}
    (hg : ∀ e ∈ p.fixed.entries, Row.value p.names.length
      ⟨(List.range p.names.length).map fun j => if j == e.1 then 1 else 0, e.2⟩ z = g e.1)
        (point : List ℚ) :
    p.sense.AtMost (((p.sense.sign * value + p.objective.constant : ℚ) : ℝ) +
      (p.fixed.entries.map fun e =>
        (((p.withOutcome (.optimal point value marginals)).fixedDuals.getD e.1 0 : ℚ) : ℝ) *
          (g e.1 - e.2)).sum) (p.objective.value z) := by
  have weak := hmult.le_costAt hz
  have length : (marginals.drop p.equationCount).length = p.fixed.entries.length := by
    rw [List.length_drop, hmult.length_eq, lists.length_equal, Nat.add_sub_cancel_left]
  have distinct : (⟨p.fixed.entries⟩ : Dict ℕ ℚ).Distinct := hd
  rw [lists.sum_equations hequations hg marginals,
    sum_zip_keys (fun e => g e.1 - e.2) distinct length,
    costAt_eq lists.cost_eq hobjective] at weak
  have duals : ∀ e ∈ p.fixed.entries,
      (((p.withOutcome (.optimal point value marginals)).fixedDuals.getD e.1 0 : ℚ) : ℝ) *
      (g e.1 - e.2) =
        (p.sense.sign : ℚ) * ((((⟨(p.fixed.entries.map (·.1)).zip
          (marginals.drop p.equationCount)⟩ : Dict ℕ ℚ).getD e.1 0 : ℚ) : ℝ) * (g e.1 - e.2)) := by
    intro e _
    rw [getD_fixedDuals]
    push_cast
    ring
  rw [List.map_congr_left duals, List.sum_map_mul_left]
  rw [Sense.atMost_iff_sign, mul_add, ← mul_assoc, Sense.cast_sign_mul_self, one_mul]
  push_cast
  rw [mul_add, ← mul_assoc, Sense.cast_sign_mul_self, one_mul]
  linarith

/-- After a solve with a sound solver the optimal value, moved along the duals of the fixed
variables, bounds the objective at every point that is admitted but for the values of the fixed
variables. -/
theorem optimum_atMost {solver : Solver ℚ} (hsolver : solver.Sound) {p' : Subproblem ℚ}
    (h : optimize solver p = .ok () p') (hprimal : p'.primal = .feasiblePoint)
    (hlower : p.lower.length = p.names.length) (hupper : p.upper.length = p.names.length)
    (hd : p.fixed.Distinct) (hfixed : ∀ e ∈ p.fixed.entries, e.1 < p.names.length)
    (hobjective : ∀ v ∈ p.objective.terms.keys, v.index < p.names.length) :
    ∃ optimum, p'.optimum? = some optimum ∧ ∀ z, p.Admits (fun _ => False) z →
      p.sense.AtMost ((optimum : ℝ) + (p.fixed.entries.map fun e =>
        ((p'.fixedDuals.getD e.1 0 : ℚ) : ℝ) * (z e.1 - e.2)).sum) (p.objective.value z) := by
  obtain ⟨program, hprogram, hset⟩ := optimize_eq_ok h
  cases hout : solver program with
  | optimal point value marginals =>
    rw [hout] at hset
    subst hset
    obtain ⟨-, -, _, _, _, hmult⟩ := hsolver program point value marginals hout
    obtain ⟨rows, bounds, lists⟩ := lists_of_program hprogram
    exact ⟨p.sense.sign * value + p.objective.constant, rfl, fun z hz =>
      lists.moved_atMost hmult hd hobjective (lists.allows hlower hupper hz)
        (fun c hc _ => hz.holds c hc)
        (fun e he => value_fixingRow (hfixed e he) e.2 z) point⟩
  | infeasible => rw [hset, hout] at hprimal; cases hprimal
  | unbounded => rw [hset, hout] at hprimal; cases hprimal
  | undecided => rw [hset, hout] at hprimal; cases hprimal

end Subproblem

end Multistage
