import Multistage.Proofs.Cut.StateKey
import Multistage.Proofs.Except
import Multistage.Proofs.Sense
import Mathlib.Algebra.BigOperators.Group.List.Basic
import Mathlib.Data.Real.Basic
import Mathlib.Tactic.Ring

/-!
# Heights of cuts

A cut is an affine function of the values of names, of which a state gives some.

## Main definitions

- `Cut.value`: the value of a cut at any profile of real values.
- `State.profile`: the values of a state.
- `Cut.uncounted`: the cut without its count.

## Main statements

- `Cut.exists_height`: a cut has its value for height at a state that knows its names.
- `Cut.value_of_flat`: the value of a cut that does not depend on the state.
-/

namespace Multistage

/-- The values of a state; names without a value count as zero. -/
def State.profile (x : State ℚ) : Name → ℝ := fun name => ((x.getD name 0 : ℚ) : ℝ)

/-- The profile does not depend on the order of the entries. -/
theorem State.profile_eq_of_perm {x y : State ℚ} (hx : x.Distinct)
    (h : x.entries.Perm y.entries) : x.profile = y.profile := by
  funext name
  show ((((x.get? name).getD 0 : ℚ)) : ℝ) = (((y.get? name).getD 0 : ℚ) : ℝ)
  rw [Dict.get?_eq_of_perm hx h]

namespace Cut

/-- The affine function of a cut. -/
noncomputable def value (c : Cut ℚ) (x : Name → ℝ) : ℝ :=
  c.intercept + (c.coefficients.entries.map fun e => (e.2 : ℝ) * x e.1).sum

/-- The cut without its count. -/
def uncounted (c : Cut ℚ) : Cut ℚ := { c with count := 0 }

theorem height_eq_of_uncounted_eq {c d : Cut ℚ} (h : c.uncounted = d.uncounted) (x : State ℚ) :
    c.height x = d.height x := by
  show c.uncounted.height x = d.uncounted.height x
  rw [h]

/-- A cut has its value for height at a state that has a value for every coefficient. -/
theorem exists_height {c : Cut ℚ} {x : State ℚ}
    (h : ∀ name ∈ c.coefficients.keys, ∃ v, x.get? name = some v) :
    ∃ height, c.height x = .ok height ∧ (height : ℝ) = c.value x.profile := by
  let slope (es : List (Name × ℚ)) (sum : ℚ) : ℚ :=
    es.foldl (fun sum e => sum + e.2 * x.getD e.1 0) sum
  have cast_slope : ∀ (es : List (Name × ℚ)) (sum : ℚ),
      (slope es sum : ℝ) = sum + (es.map fun e => (e.2 : ℝ) * x.profile e.1).sum := by
    intro es
    induction es with
    | nil => simp [slope]
    | cons e rest ih =>
      intro sum
      show (slope rest (sum + e.2 * x.getD e.1 0) : ℝ) = _
      rw [ih, List.map_cons, List.sum_cons, State.profile]
      push_cast
      ring
  refine ⟨c.intercept + slope c.coefficients.entries 0, ?_, ?_⟩
  · unfold Cut.height
    refine Except.bind_eq_ok.2 ⟨_, Except.foldlM_eq_ok
      (g := fun sum e => sum + e.2 * x.getD e.1 0) (fun sum e he => ?_) _, rfl⟩
    obtain ⟨v, hv⟩ := h e.1 (List.mem_map_of_mem he)
    simp only [Dict.getD, hv]
    rfl
  · rw [Cut.value, Rat.cast_add, cast_slope, Rat.cast_zero, zero_add]

/-- A cut over names has its value for height at every state over the names. -/
theorem exists_height_of_over {names : List String} {c : Cut ℚ} {x : State ℚ}
    (hc : ∀ name ∈ c.coefficients.keys, name ∈ names.map Datum.text) (hx : x.Over names) :
    ∃ height, c.height x = .ok height ∧ (height : ℝ) = c.value x.profile :=
  exists_height fun name hname => hx.exists_get? (hc name hname)

/-- A cut that does not depend on the state has its intercept everywhere. -/
theorem value_of_flat {c : Cut ℚ} (h : ∀ e ∈ c.coefficients.entries, e.2 = 0) (x : Name → ℝ) :
    c.value x = c.intercept := by
  have slope : (c.coefficients.entries.map fun e => (e.2 : ℝ) * x e.1).sum = 0 := by
    refine List.sum_eq_zero fun t ht => ?_
    obtain ⟨e, he, rfl⟩ := List.mem_map.1 ht
    rw [h e he, Rat.cast_zero, zero_mul]
  rw [value, slope, add_zero]

end Cut

end Multistage
