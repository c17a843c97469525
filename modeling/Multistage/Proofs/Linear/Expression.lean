import Mathlib.Algebra.BigOperators.Ring.Finset
import Mathlib.Data.Real.Basic
import Mathlib.Tactic.Ring
import Multistage.Linear.Affine
import Multistage.Proofs.Sums

/-!
# Values of expressions

The value of an affine expression at a point is linear in the expression, and the coefficients that
are kept by position combine the entries of a point in the same way.

## Main definitions

- `Affine.value`: the value at a point, whose entries are given by position.
- `Dict.combination`: coefficients by position, combined with the entries of a point.

## Main statements

- `Affine.sum_add`: what is additive in the coefficients, summed over a sum of expressions.
- `Affine.value_add`, `Affine.value_scale`, `Affine.value_sub`: the value of a sum, of a multiple
  and of a difference.
- `Affine.eval_add`, `Affine.eval_scale`, `Affine.eval_sub`: the same under an assignment.
- `Dict.combination_eq_sum`: the combination of distinct positions.
-/

namespace Multistage

namespace Affine

variable (e f : Affine ℚ) (z : ℕ → ℝ)

section

variable {M : Type} [AddCommMonoid M] {g : Variable → ℚ → M}
  (hg : ∀ v a b, g v (a + b) = g v a + g v b)

include hg

/-- What is additive in the coefficients of each variable, summed over terms to which one is
added. -/
theorem sum_addTerm (terms : Dict Variable ℚ) (v : Variable) (c : ℚ) :
    ((addTerm terms v c).entries.map fun t => g t.1 t.2).sum =
      (terms.entries.map fun t => g t.1 t.2).sum + g v c := by
  have changed : ∀ es : List (Variable × ℚ), es.any (·.1 == v) = true →
      ((Dict.modifyEntries v (fun _ => (⟨es⟩ : Dict Variable ℚ).getD v 0 + c) es).map
        fun t => g t.1 t.2).sum = (es.map fun t => g t.1 t.2).sum + g v c := by
    intro es
    induction es with
    | nil => intro h; cases h
    | cons t rest ih =>
      intro h
      by_cases ht : (t.1 == v) = true
      · have found : (⟨t :: rest⟩ : Dict Variable ℚ).getD v 0 = t.2 := by
          rw [Dict.getD, Dict.get?_cons, if_pos ht]
          rfl
        rw [Dict.modifyEntries, if_pos ht, found, List.map_cons, List.sum_cons, List.map_cons,
          List.sum_cons, hg, eq_of_beq ht, add_right_comm]
      · have found : (⟨t :: rest⟩ : Dict Variable ℚ).getD v 0 =
            (⟨rest⟩ : Dict Variable ℚ).getD v 0 := by
          rw [Dict.getD, Dict.get?_cons, if_neg ht]
          rfl
        have hrest : rest.any (·.1 == v) = true := by simpa [ht] using h
        rw [Dict.modifyEntries, if_neg ht, found, List.map_cons, List.sum_cons, ih hrest,
          List.map_cons, List.sum_cons, add_assoc]
  unfold addTerm Dict.insert
  by_cases h : terms.contains v = true
  · rw [if_pos h]
    exact changed terms.entries h
  · have none : terms.get? v = none := by
      rw [← Option.not_isSome_iff_eq_none, ← Dict.contains_eq_isSome_get?]
      exact h
    rw [if_neg h, List.map_append, List.sum_append, Dict.getD, none]
    simp

/-- What is additive in the coefficients of each variable is additive in the expression. -/
theorem sum_add : ((e.add f).terms.entries.map fun t => g t.1 t.2).sum =
    (e.terms.entries.map fun t => g t.1 t.2).sum +
    (f.terms.entries.map fun t => g t.1 t.2).sum := by
  have folded : ∀ (es : List (Variable × ℚ)) (terms : Dict Variable ℚ),
      ((es.foldl (fun terms t => addTerm terms t.1 t.2) terms).entries.map fun t => g t.1 t.2).sum =
        (terms.entries.map fun t => g t.1 t.2).sum + (es.map fun t => g t.1 t.2).sum := by
    intro es
    induction es with
    | nil => intro terms; simp
    | cons t rest ih =>
      intro terms
      rw [List.foldl_cons, ih, sum_addTerm hg, List.map_cons, List.sum_cons, add_assoc]
  exact folded f.terms.entries e.terms

end

/-! ### The value at a point -/

/-- The value at a point. -/
noncomputable def value : ℝ :=
  e.constant + (e.terms.entries.map fun t => (t.2 : ℝ) * z t.1.index).sum

theorem value_ofScalar (c : ℚ) : (ofScalar c).value z = c := by
  simp [value, ofScalar, Dict.empty]

theorem value_ofVariable (v : Variable) : (ofVariable v).value z = z v.index := by
  simp [value, ofVariable]

/-- The value of a sum is the sum of the values. -/
theorem value_add : (e.add f).value z = e.value z + f.value z := by
  have sum := sum_add e f (g := fun v a => (a : ℝ) * z v.index) fun v a b => by push_cast; ring
  unfold value
  rw [sum]
  unfold add
  push_cast
  ring

/-- The value of a multiple is the multiple of the value. -/
theorem value_scale (c : ℚ) : (e.scale c).value z = c * e.value z := by
  unfold value scale Dict.mapValues
  rw [List.map_map, mul_add, ← List.sum_map_mul_left]
  push_cast
  congr 1
  · ring
  · refine congrArg List.sum (List.map_congr_left fun t _ => ?_)
    show ((t.2 * c : ℚ) : ℝ) * z t.1.index = c * (t.2 * z t.1.index)
    push_cast
    ring

/-- The value of a difference is the difference of the values. -/
theorem value_sub : (e.sub f).value z = e.value z - f.value z := by
  unfold sub neg
  rw [value_add, value_scale]
  push_cast
  ring

/-- The value depends only on the entries for the variables of the expression. -/
theorem value_congr {e : Affine ℚ} {z z' : ℕ → ℝ} (h : ∀ v ∈ e.terms.keys, z v.index = z' v.index) :
    e.value z = e.value z' := by
  unfold value
  refine congrArg _ (congrArg List.sum (List.map_congr_left fun t ht => ?_))
  rw [h t.1 (List.mem_map_of_mem ht)]

/-! ### The value under an assignment -/

variable (σ : Variable → ℚ)

theorem eval_ofScalar (c : ℚ) : (ofScalar c).eval σ = c := by
  simp [eval, ofScalar, Dict.empty, Scalar.sum]

theorem eval_ofVariable (v : Variable) : (ofVariable v).eval σ = σ v := by
  simp [eval, ofVariable, Scalar.sum_eq_listSum]

/-- Under an assignment the value of a sum is the sum of the values. -/
theorem eval_add : (e.add f).eval σ = e.eval σ + f.eval σ := by
  have sum := sum_add e f (g := fun v a => a * σ v) fun v a b => add_mul a b (σ v)
  simp only [eval, Scalar.sum_eq_listSum, sum]
  unfold add
  ring

/-- Under an assignment the value of a multiple is the multiple of the value. -/
theorem eval_scale (c : ℚ) : (e.scale c).eval σ = e.eval σ * c := by
  simp only [eval, Scalar.sum_eq_listSum, scale, Dict.mapValues, List.map_map, add_mul,
    ← List.sum_map_mul_right]
  refine congrArg _ (congrArg List.sum (List.map_congr_left fun t _ => ?_))
  exact mul_right_comm t.2 c (σ t.1)

theorem eval_neg : e.neg.eval σ = -e.eval σ := by rw [neg, eval_scale, mul_neg_one]

/-- Under an assignment the value of a difference is the difference of the values. -/
theorem eval_sub : (e.sub f).eval σ = e.eval σ - f.eval σ := by
  rw [sub, eval_add, eval_neg, ← sub_eq_add_neg]

end Affine

namespace Dict

open Finset

variable (d : Dict ℕ ℚ) (size : ℕ) (z : ℕ → ℝ)

/-- The entries of a point with coefficients that are kept by position. -/
noncomputable def combination : ℝ := ∑ j ∈ range size, (d.getD j 0 : ℝ) * z j

variable {d size z}

/-- A new coefficient changes the combination by the difference to the old one. -/
theorem combination_insert {i : ℕ} (hi : i < size) (a : ℚ) :
    (d.insert i a).combination size z = d.combination size z + (a - d.getD i 0) * z i := by
  have change : ∀ j ∈ range size, ((d.insert i a).getD j 0 : ℝ) * z j =
      (d.getD j 0 : ℝ) * z j + if j = i then ((a : ℝ) - d.getD i 0) * z i else 0 := by
    intro j _
    unfold getD
    rw [get?_insert]
    by_cases hj : j = i
    · subst hj
      simp only [beq_self_eq_true, if_true, Option.getD_some]
      ring
    · have : (i == j) = false := by simpa using Ne.symm hj
      simp [this, hj]
  unfold combination
  rw [sum_congr rfl change, sum_add_distrib, sum_ite_eq', if_pos (mem_range.2 hi)]

theorem combination_empty : (empty : Dict ℕ ℚ).combination size z = 0 := by
  simp [combination, getD]

/-- The combination depends only on the entries at positions with a coefficient. -/
theorem combination_congr {z' : ℕ → ℝ} (h : ∀ j, (∃ a, d.get? j = some a) → z j = z' j) :
    d.combination size z = d.combination size z' := by
  refine sum_congr rfl fun j _ => ?_
  cases hj : d.get? j with
  | none => simp [getD, hj]
  | some a => rw [h j ⟨a, hj⟩]

/-- The combination depends only on the coefficients and not on their order. -/
theorem combination_eq_of_get?_eq {d' : Dict ℕ ℚ} (h : ∀ j, d'.get? j = d.get? j) :
    d'.combination size z = d.combination size z := by
  unfold combination getD
  simp only [h]

/-- The combination of distinct positions is that of the list of its entries. -/
theorem combination_eq_sum {entries : List (ℕ × ℚ)} (hd : (⟨entries⟩ : Dict ℕ ℚ).Distinct)
    (hsize : ∀ e ∈ entries, e.1 < size) :
    (ofList entries).combination size z = (entries.map fun e => (e.2 : ℝ) * z e.1).sum := by
  have inserted : ∀ (es : List (ℕ × ℚ)) (d : Dict ℕ ℚ), (⟨es⟩ : Dict ℕ ℚ).Distinct →
      (∀ e ∈ es, e.1 < size) → (∀ e ∈ es, d.get? e.1 = none) →
      (d.insertAll es).combination size z =
        d.combination size z + (es.map fun e => (e.2 : ℝ) * z e.1).sum := by
    intro es
    induction es with
    | nil => intro d _ _ _; simp [insertAll]
    | cons e rest ih =>
      intro d hdist hlt hnew
      obtain ⟨hfirst, hrest⟩ := List.pairwise_cons.1 hdist
      have fresh : ∀ f ∈ rest, (d.insert e.1 e.2).get? f.1 = none := by
        intro f hf
        rw [get?_insert, hfirst f hf]
        exact hnew f (List.mem_cons_of_mem _ hf)
      show ((d.insert e.1 e.2).insertAll rest).combination size z = _
      rw [ih _ hrest (fun f hf => hlt f (List.mem_cons_of_mem _ hf)) fresh,
        combination_insert (hlt e List.mem_cons_self), getD, hnew e List.mem_cons_self]
      simp only [Option.getD_none, List.map_cons, List.sum_cons]
      push_cast
      ring
  rw [ofList, inserted entries empty hd hsize fun _ _ => rfl, combination_empty, zero_add]

end Dict

end Multistage
