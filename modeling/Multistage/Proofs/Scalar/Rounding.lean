import Mathlib.Data.Nat.Log
import Mathlib.Tactic.Ring
import Multistage.Scalar.Binary64

/-!
# Rounding to 53 binary digits

A double that is not negative is a natural number of units of the least double above zero, and one
of at most 53 binary digits, apart from zeros at the end. The sum of two doubles is the exact sum,
rounded to such a number. Rounding is monotone and keeps the numbers that need no rounding.

## Main definitions

- `Binary64.lastPlace`, `Binary64.rounded`: where the 53 digits of a number end, and the number
  rounded there.

## Main statements

- `roundHalfEven_mono`: a quotient that is rounded to an integer grows with its numerator.
- `Binary64.rounded_mono`, `Binary64.rounded_mul`: rounding is monotone, and the identity on numbers
  with 53 digits.
-/

namespace Multistage

/-! ### Rounded quotients -/

theorem div_le_roundHalfEven (num den : ℕ) : num / den ≤ roundHalfEven num den := by
  unfold roundHalfEven
  dsimp only
  split <;> omega

/-- Rounding adds at most one to the whole part of a quotient. -/
theorem roundHalfEven_le (num den : ℕ) : roundHalfEven num den ≤ num / den + 1 := by
  unfold roundHalfEven
  dsimp only
  split <;> omega

/-- A quotient that is rounded to an integer grows with its numerator. -/
theorem roundHalfEven_mono {a b : ℕ} (h : a ≤ b) (den : ℕ) :
    roundHalfEven a den ≤ roundHalfEven b den := by
  rcases (Nat.div_le_div_right h : a / den ≤ b / den).lt_or_eq with hlt | heq
  · calc roundHalfEven a den ≤ a / den + 1 := roundHalfEven_le a den
      _ ≤ b / den := hlt
      _ ≤ roundHalfEven b den := div_le_roundHalfEven b den
  · -- With equal quotients, the greater number has the greater remainder.
    have hmod : a % den ≤ b % den := by
      have ha := Nat.div_add_mod a den
      have hb := Nat.div_add_mod b den
      rw [heq] at ha
      omega
    unfold roundHalfEven
    simp only [heq, Bool.or_eq_true, Bool.and_eq_true, decide_eq_true_eq, beq_iff_eq]
    split <;> split <;> omega

/-- A quotient without a remainder is not changed by rounding. -/
theorem roundHalfEven_mul {den : ℕ} (m : ℕ) (h : 0 < den) : roundHalfEven (m * den) den = m := by
  unfold roundHalfEven
  simp [Nat.mul_div_cancel m h, h.ne]

/-- A common factor of numerator and denominator makes no difference. -/
theorem roundHalfEven_mul_mul {c : ℕ} (num den : ℕ) (h : 0 < c) :
    roundHalfEven (num * c) (den * c) = roundHalfEven num den := by
  have hlt : den * c < 2 * (num % den * c) ↔ den < 2 * (num % den) := by
    rw [← Nat.mul_assoc]
    exact Nat.mul_lt_mul_right h
  have heq : 2 * (num % den * c) = den * c ↔ 2 * (num % den) = den := by
    rw [← Nat.mul_assoc]
    exact Nat.mul_left_inj h.ne'
  unfold roundHalfEven
  simp only [Nat.mul_div_mul_right num den h, Nat.mul_mod_mul_right, Bool.or_eq_true,
    Bool.and_eq_true, decide_eq_true_eq, beq_iff_eq, hlt, heq]

namespace Binary64

/-! ### The last of 53 digits -/

/-- The position of the last of the first 53 binary digits of a number, zero if it has no more. -/
def lastPlace (n : ℕ) : ℕ := n.log2 - fractionBits

/-- A number, rounded to 53 binary digits. -/
def rounded (n : ℕ) : ℕ := roundHalfEven n (2 ^ lastPlace n) * 2 ^ lastPlace n

variable {a b m n p : ℕ}

theorem lastPlace_mono (h : a ≤ b) : lastPlace a ≤ lastPlace b := by
  rw [lastPlace, lastPlace, Nat.log2_eq_log_two, Nat.log2_eq_log_two]
  exact Nat.sub_le_sub_right (Nat.log_mono_right h) _

/-- Down to its last place a number has at most 53 digits. -/
theorem lt_two_pow_lastPlace (n : ℕ) : n < 2 ^ (53 + lastPlace n) :=
  calc n < 2 ^ (n.log2 + 1) := Nat.lt_log2_self
    _ ≤ 2 ^ (53 + lastPlace n) :=
      Nat.pow_le_pow_right (by decide) (by unfold lastPlace fractionBits; omega)

/-- A number whose last place is above the units has all 53 digits. -/
theorem two_pow_lastPlace_le (h : 0 < lastPlace n) : 2 ^ (52 + lastPlace n) ≤ n := by
  have hlog : 52 + lastPlace n = n.log2 := by
    unfold lastPlace fractionBits at *
    omega
  rw [hlog]
  exact Nat.log2_self_le fun hn => by simp [hn, lastPlace] at h

theorem log2_mul_two_pow (h : m ≠ 0) (p : ℕ) : (m * 2 ^ p).log2 = m.log2 + p := by
  refine (Nat.log2_eq_iff (Nat.mul_ne_zero h (Nat.two_pow_pos p).ne')).2 ⟨?_, ?_⟩
  · rw [Nat.pow_add]
    exact Nat.mul_le_mul_right _ (Nat.log2_self_le h)
  · rw [Nat.add_right_comm, Nat.pow_add]
    exact Nat.mul_lt_mul_of_pos_right Nat.lt_log2_self (Nat.two_pow_pos p)

/-- The 53 digits of a multiple of a power of two end where those of the factor do. -/
theorem lastPlace_mul (hm : m ≠ 0) (hlt : m < 2 ^ 53) (hge : p = 0 ∨ 2 ^ 52 ≤ m) :
    lastPlace (m * 2 ^ p) = p := by
  have upper : m.log2 < 53 := (Nat.log2_lt hm).2 hlt
  rw [lastPlace, log2_mul_two_pow hm, fractionBits]
  rcases hge with rfl | hge
  · omega
  · have lower : 52 ≤ m.log2 := (Nat.le_log2 hm).2 hge
    omega

/-! ### Rounding to 53 digits -/

/-- What is rounded at its last place has at most 53 digits, or it is the next power of two. -/
theorem roundHalfEven_lastPlace_le (n : ℕ) : roundHalfEven n (2 ^ lastPlace n) ≤ 2 ^ 53 :=
  calc roundHalfEven n (2 ^ lastPlace n) ≤ n / 2 ^ lastPlace n + 1 := roundHalfEven_le ..
    _ ≤ 2 ^ 53 := Nat.div_lt_of_lt_mul
      (by rw [← Nat.pow_add, Nat.add_comm]; exact lt_two_pow_lastPlace n)

/-- A number whose last place is above the units has no fewer digits when it is rounded there. -/
theorem le_roundHalfEven_lastPlace (h : 0 < lastPlace n) :
    2 ^ 52 ≤ roundHalfEven n (2 ^ lastPlace n) :=
  calc 2 ^ 52 ≤ n / 2 ^ lastPlace n := (Nat.le_div_iff_mul_le (Nat.two_pow_pos _)).2
        (by rw [← Nat.pow_add]; exact two_pow_lastPlace_le h)
    _ ≤ roundHalfEven n (2 ^ lastPlace n) := div_le_roundHalfEven ..

theorem roundHalfEven_lastPlace_ne_zero (hn : n ≠ 0) : roundHalfEven n (2 ^ lastPlace n) ≠ 0 := by
  by_cases h : 0 < lastPlace n
  · have := le_roundHalfEven_lastPlace h
    omega
  · have := div_le_roundHalfEven n (2 ^ lastPlace n)
    rw [show lastPlace n = 0 by omega, Nat.pow_zero, Nat.div_one] at *
    omega

theorem rounded_zero : rounded 0 = 0 := by
  rw [rounded, lastPlace, Nat.log2_zero, Nat.zero_sub]
  rfl

/-- A number with 53 digits is not changed by rounding. -/
theorem rounded_mul (hm : m ≠ 0) (hlt : m < 2 ^ 53) (hge : p = 0 ∨ 2 ^ 52 ≤ m) :
    rounded (m * 2 ^ p) = m * 2 ^ p := by
  rw [rounded, lastPlace_mul hm hlt hge, roundHalfEven_mul m (Nat.two_pow_pos p)]

/-- Rounding to 53 digits is monotone. -/
theorem rounded_mono (h : a ≤ b) : rounded a ≤ rounded b := by
  rcases (lastPlace_mono h).lt_or_eq with hlt | heq
  · -- A power of two separates the two: the lesser rounds to at most it, the greater to at least
    -- it.
    calc rounded a ≤ 2 ^ 53 * 2 ^ lastPlace a :=
          Nat.mul_le_mul_right _ (roundHalfEven_lastPlace_le a)
      _ = 2 ^ 52 * 2 ^ (lastPlace a + 1) := by ring
      _ ≤ 2 ^ 52 * 2 ^ lastPlace b := Nat.mul_le_mul_left _ (Nat.pow_le_pow_right (by decide) hlt)
      _ ≤ rounded b := Nat.mul_le_mul_right _ (le_roundHalfEven_lastPlace (by omega))
  · rw [rounded, rounded, heq]
    exact Nat.mul_le_mul_right _ (roundHalfEven_mono h _)

end Binary64

end Multistage
