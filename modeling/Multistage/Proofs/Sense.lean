import Mathlib.Algebra.Order.Ring.Rat
import Mathlib.Data.Real.Basic
import Multistage.Cut

/-!
# The order of a sense

When minimising a bound is below what it bounds, when maximising it is above.

## Main definitions

- `Sense.AtMost`: the order in which bounds come first.
- `Sense.atMost_iff_sign`: the order, in the direction that is minimised.
- `Sense.improves_cases`: over the rational numbers a height is better than another unless it comes
  before it.
-/

namespace Multistage

namespace Sense

variable {α : Type*} {sense : Sense} {a b c : α}

/-- The first value is at most the second when minimising, at least when maximising. -/
def AtMost [LE α] : Sense → α → α → Prop
  | min, a, b => a ≤ b
  | max, a, b => b ≤ a

theorem AtMost.refl [Preorder α] (sense : Sense) (a : α) : sense.AtMost a a := by
  cases sense <;> exact le_rfl

theorem AtMost.trans [Preorder α] (h : sense.AtMost a b) (h' : sense.AtMost b c) :
    sense.AtMost a c := by
  cases sense with
  | min => exact le_trans h h'
  | max => exact le_trans h' h

theorem AtMost.antisymm [PartialOrder α] (h : sense.AtMost a b) (h' : sense.AtMost b a) :
    a = b := by
  cases sense with
  | min => exact le_antisymm h h'
  | max => exact le_antisymm h' h

theorem cast_sign_min : ((min.sign : ℚ) : ℝ) = 1 := Rat.cast_one

theorem cast_sign_max : ((max.sign : ℚ) : ℝ) = -1 := by
  show ((-1 : ℚ) : ℝ) = -1
  norm_num

/-- The sign of a sense is its own inverse. -/
theorem cast_sign_mul_self (sense : Sense) : ((sense.sign : ℚ) : ℝ) * (sense.sign : ℚ) = 1 := by
  cases sense with
  | min => rw [cast_sign_min, one_mul]
  | max => rw [cast_sign_max, neg_mul_neg, one_mul]

/-- One order for both senses: that of the values times the sign. -/
theorem atMost_iff_sign {sense : Sense} {a b : ℝ} :
    sense.AtMost a b ↔ (sense.sign : ℚ) * a ≤ (sense.sign : ℚ) * b := by
  cases sense with
  | min =>
    rw [cast_sign_min, one_mul, one_mul]
    exact Iff.rfl
  | max =>
    rw [cast_sign_max, neg_one_mul, neg_one_mul, neg_le_neg_iff]
    exact Iff.rfl

/-- Over the rational numbers a height is better than another unless it is at most that. -/
theorem improves_cases (sense : Sense) (trial incumbent : ℚ) :
    sense.improves trial incumbent = .ok true ∧ sense.AtMost incumbent trial ∨
      sense.improves trial incumbent = .ok false ∧ sense.AtMost trial incumbent := by
  cases sense with
  | min =>
    by_cases h : incumbent < trial
    · exact .inl ⟨congrArg _ (decide_eq_true h), le_of_lt h⟩
    · exact .inr ⟨congrArg _ (decide_eq_false h), not_lt.1 h⟩
  | max =>
    by_cases h : trial < incumbent
    · exact .inl ⟨congrArg _ (decide_eq_true h), le_of_lt h⟩
    · exact .inr ⟨congrArg _ (decide_eq_false h), not_lt.1 h⟩

end Sense

end Multistage
