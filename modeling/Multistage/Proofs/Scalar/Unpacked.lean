import Mathlib
import Multistage.Proofs.Scalar.Rounding

/-!
# Unpacked doubles

A double is stored in 64 bits and computed with as a sign, a mantissa and an exponent. An operation
rounds the exact result to a mantissa of 53 binary digits, and storing it turns what is too great
into an infinity. In units of the least double above zero, the magnitude of the result is the exact
one, rounded.

## Main definitions

- `Binary64.place`: how many binary digits the mantissa of an exponent is above the units.
- `Binary64.Normalized`, `Binary64.Canonical`: the mantissas and exponents that rounding leaves, and
  the values that 64 bits hold.
- `Binary64.stored`: what is read back of a value that was stored.

## Main statements

- `Binary64.round_eq`: rounding an unpacked value rounds its magnitude.
- `Binary64.stored_of_canonical`, `Binary64.stored_finite`: values that fit are kept, and others
  turn into infinities.
- `Binary64.canonical_unpack`: what is read fits.
-/

namespace Multistage

namespace Binary64

open Float.Model
open Float.Model.UnpackedFloat (Sign ExtendedMantissa Accuracy packComponents shiftToTargetExponent
  roundWithAccuracy decreaseExponent)

/-- The format of doubles. -/
abbrev format : Format := .binary64

/-! ### Shifted mantissas -/

/-- A number whose last binary digits are cut off: the quotient, whether the rest is at least half,
and whether it is neither zero nor half. -/
structure CutOff (em : ExtendedMantissa) (m digits : ℕ) : Prop where
  mantissa : em.mantissa = m / 2 ^ digits
  round : em.roundBit = true ↔ 2 ^ digits ≤ 2 * (m % 2 ^ digits)
  sticky : em.stickyBit = true ↔ m % 2 ^ digits ≠ 0 ∧ 2 * (m % 2 ^ digits) ≠ 2 ^ digits

/-- One more digit is cut off. -/
theorem CutOff.shiftRightOne {em : ExtendedMantissa} {m k : ℕ} (h : CutOff em m k) :
    CutOff em.shiftRightOne m (k + 1) := by
  have rest : m % 2 ^ (k + 1) = m % 2 ^ k + 2 ^ k * (m / 2 ^ k % 2) := by
    rw [Nat.pow_succ, Nat.mod_mul]
  have lt : m % 2 ^ k < 2 ^ k := Nat.mod_lt m (Nat.two_pow_pos k)
  have double : 2 ^ (k + 1) = 2 * 2 ^ k := by rw [Nat.pow_succ, Nat.mul_comm]
  have digit : m / 2 ^ k % 2 = 0 ∨ m / 2 ^ k % 2 = 1 := by omega
  refine ⟨?_, ?_, ?_⟩
  · rw [ExtendedMantissa.shiftRightOne, h.mantissa, Nat.div_div_eq_div_mul, Nat.pow_succ]
  · rw [ExtendedMantissa.shiftRightOne, h.mantissa, rest, double, bne_iff_ne]
    rcases digit with zero | one
    · rw [zero]; omega
    · rw [one]; omega
  · rw [ExtendedMantissa.shiftRightOne, Bool.or_eq_true, h.round, h.sticky, rest, double]
    rcases digit with zero | one
    · rw [zero]; omega
    · rw [one]; omega

theorem cutOff_shiftRight (m k : ℕ) : CutOff (ExtendedMantissa.mk m false false >>> k) m k := by
  induction k with
  | zero => constructor <;> simp [HShiftRight.hShiftRight, Nat.repeat, Nat.mod_one]
  | succ k ih => exact ih.shiftRightOne

/-- The two bits that are kept of the digits cut off decide the rounding. -/
theorem CutOff.roundedMantissa {em : ExtendedMantissa} {m k : ℕ} (h : CutOff em m k) :
    em.roundedMantissa = roundHalfEven m (2 ^ k) := by
  have lt : m % 2 ^ k < 2 ^ k := Nat.mod_lt m (Nat.two_pow_pos k)
  obtain ⟨mantissa, round, sticky⟩ := em
  obtain ⟨rfl, hround, hsticky⟩ := h
  unfold roundHalfEven ExtendedMantissa.roundedMantissa
  simp only at hround hsticky
  simp only [Bool.or_eq_true, Bool.and_eq_true, decide_eq_true_eq, beq_iff_eq]
  cases round <;> cases sticky <;>
    simp only [ExtendedMantissa.accuracy, Accuracy.roundToNearestEven] <;>
    simp only [true_iff, false_iff, Bool.false_eq_true] at hround hsticky <;>
    split <;> omega

/-! ### Magnitudes -/

/-- How many binary digits the last digit of a mantissa is above the units. -/
def place (exponent : ℤ) : ℕ := (exponent - minExponent).toNat

/-- The mantissas and exponents to which exact values are rounded: the mantissa is as long as it can
be, or the exponent the least one. -/
structure Normalized (m : ℕ) (e : ℤ) : Prop where
  least : minExponent ≤ e
  short : m < 2 ^ 53
  full : e = minExponent ∨ 2 ^ 52 ≤ m

variable {m : ℕ} {e : ℤ}

theorem Normalized.place_eq_zero_or (h : Normalized m e) : place e = 0 ∨ 2 ^ 52 ≤ m :=
  h.full.imp_left fun h => by unfold place; omega

/-- Mantissas are shifted without a change of the magnitude. -/
theorem shiftLeft_mul (m : ℕ) {e e' : ℤ} (least : minExponent ≤ e') (h : e' ≤ e) :
    (m <<< (e - e').toNat) * 2 ^ place e' = m * 2 ^ place e := by
  have hplace : place e = (e - e').toNat + place e' := by
    unfold place
    omega
  rw [Nat.shiftLeft_eq, hplace, Nat.pow_add, Nat.mul_assoc]

/-! ### Rounding -/

theorem targetExponent_eq (hm : m ≠ 0) (he : minExponent ≤ e) :
    format.targetExponent (totalExponent m e) = minExponent + lastPlace (m * 2 ^ place e) := by
  have least : format.minExponent = -1074 := by decide
  have digits : (format.mantissaBits : ℤ) = 53 := by decide
  rw [lastPlace, log2_mul_two_pow hm]
  unfold Format.targetExponent totalExponent place fractionBits minExponent at *
  rw [least, digits]
  omega

theorem shiftToTargetExponent_eq {k : ℕ} (hm : m ≠ 0) (he : minExponent ≤ e)
    (hk : (minExponent + lastPlace (m * 2 ^ place e) - e).toNat = k) :
    shiftToTargetExponent format m e .exact = (ExtendedMantissa.mk m false false >>> k, e + k) := by
  rw [← hk, ← targetExponent_eq hm he]
  rfl

theorem shift_normalized (hm : m ≠ 0) (h : Normalized m e) :
    shiftToTargetExponent format m e .exact = (ExtendedMantissa.mk m false false, e) := by
  have hk : (minExponent + lastPlace (m * 2 ^ place e) - e).toNat = 0 := by
    rw [lastPlace_mul hm h.short h.place_eq_zero_or]
    have := h.least
    unfold place
    omega
  rw [shiftToTargetExponent_eq hm h.least hk]
  exact Prod.ext rfl (Int.add_zero e)

/-- A mantissa that was rounded up to one more digit carries into the exponent. -/
theorem shift_carry (he : minExponent ≤ e) :
    shiftToTargetExponent format (2 ^ 53) e .exact =
      (ExtendedMantissa.mk (2 ^ 52) false false, e + 1) := by
  have hk : (minExponent + lastPlace (2 ^ 53 * 2 ^ place e) - e).toNat = 1 := by
    rw [lastPlace, log2_mul_two_pow (by decide), Nat.log2_two_pow]
    unfold place fractionBits
    omega
  rw [shiftToTargetExponent_eq (by decide) he hk]
  rfl

theorem roundWithAccuracy_eq (s : Sign) (hm : m ≠ 0) (he : minExponent ≤ e)
    (hplace : place e ≤ lastPlace (m * 2 ^ place e)) :
    ∃ m' e' pos, roundWithAccuracy format s m e .exact = .finite s m' e' pos ∧ Normalized m' e' ∧
      m' * 2 ^ place e' = rounded (m * 2 ^ place e) := by
  have exact_ne_zero : m * 2 ^ place e ≠ 0 := Nat.mul_ne_zero hm (Nat.two_pow_pos _).ne'
  obtain ⟨k, hk⟩ := Nat.exists_eq_add_of_le hplace
  have round : (ExtendedMantissa.mk m false false >>> k).roundedMantissa =
      roundHalfEven (m * 2 ^ place e) (2 ^ lastPlace (m * 2 ^ place e)) := by
    rw [(cutOff_shiftRight m k).roundedMantissa, hk, Nat.add_comm, Nat.pow_add,
      roundHalfEven_mul_mul _ _ (Nat.two_pow_pos _)]
  have least : minExponent ≤ e + k := by omega
  have last : place (e + k) = lastPlace (m * 2 ^ place e) := by
    unfold place at *
    omega
  have upper := roundHalfEven_lastPlace_le (m * 2 ^ place e)
  have ne_zero := roundHalfEven_lastPlace_ne_zero exact_ne_zero
  have full : e + k = minExponent ∨
      2 ^ 52 ≤ roundHalfEven (m * 2 ^ place e) (2 ^ lastPlace (m * 2 ^ place e)) := by
    by_cases h : 0 < lastPlace (m * 2 ^ place e)
    · exact .inr (le_roundHalfEven_lastPlace h)
    · have zero : place (e + k) = 0 := by omega
      unfold place at zero
      omega
  unfold roundWithAccuracy
  rw [shiftToTargetExponent_eq hm he (k := k) (by unfold place at *; omega)]
  dsimp only
  rw [round, rounded]
  generalize roundHalfEven (m * 2 ^ place e) (2 ^ lastPlace (m * 2 ^ place e)) = r at *
  rcases upper.lt_or_eq with hlt | heq
  · have normalized : Normalized r (e + k) := ⟨least, hlt, full⟩
    rw [shift_normalized ne_zero normalized]
    exact ⟨r, e + k, Nat.pos_of_ne_zero ne_zero, dif_neg ne_zero, normalized, by rw [last]⟩
  · have carried : place (e + k + 1) = place (e + k) + 1 := by
      unfold place
      omega
    rw [heq, shift_carry least]
    refine ⟨2 ^ 52, e + k + 1, by decide, dif_neg (Nat.two_pow_pos 52).ne',
      ⟨by omega, by decide, .inr le_rfl⟩, ?_⟩
    rw [carried, last]
    ring

/-- The magnitude of a rounded value is the rounded magnitude. -/
theorem round_eq (s : Sign) (hm : m ≠ 0) (he : minExponent ≤ e) :
    ∃ m' e' pos, UnpackedFloat.round format s m e = .finite s m' e' pos ∧ Normalized m' e' ∧
      m' * 2 ^ place e' = rounded (m * 2 ^ place e) := by
  unfold UnpackedFloat.round decreaseExponent
  rw [targetExponent_eq hm he]
  dsimp only
  -- A mantissa with fewer digits than there is room for is shifted up first.
  set last := lastPlace (m * 2 ^ place e) with hlast
  set k := (e - (minExponent + last)).toNat with hk
  have hk' : (e - (e - k)).toNat = k := by omega
  have magnitude := @shiftLeft_mul m e (e - k) (by omega) (by omega)
  rw [hk'] at magnitude
  have ne_zero : m <<< k ≠ 0 := by
    rw [Nat.shiftLeft_eq]
    exact Nat.mul_ne_zero hm (Nat.two_pow_pos _).ne'
  rw [← magnitude]
  exact roundWithAccuracy_eq s ne_zero (by omega) (by rw [magnitude, ← hlast]; unfold place; omega)

/-! ### Storing -/

/-- The exponent of the greatest doubles. -/
def maxExponent : ℤ := 971

/-- The values that 64 bits hold. -/
def Canonical : UnpackedFloat → Prop
  | .finite _ m e _ => Normalized m e ∧ e ≤ maxExponent
  | _ => True

/-- What is read back of a value that was stored in 64 bits. -/
def stored (u : UnpackedFloat) : UnpackedFloat :=
  UnpackedFloat.unpack format (UnpackedFloat.pack format u)

theorem exists_packComponents (b : BitVec 64) :
    ∃ s exponent mantissa, b = packComponents format s exponent mantissa :=
  ⟨_, _, _,
    (@UnpackedFloat.packComponents_unpackSign_unpackExponent_unpackMantissa format b).symm⟩

theorem toNat_packComponents (s : Sign) (exponent : BitVec 11) (mantissa : BitVec 52) :
    (packComponents format s exponent mantissa).toNat =
      s.toBitVec.toNat * 2 ^ 63 + exponent.toNat * 2 ^ 52 + mantissa.toNat := by
  have low (n : ℕ) : (n <<< 52 : ℕ) = n * 2 ^ 52 := Nat.shiftLeft_eq n 52
  have high (n : ℕ) : (n <<< 11 : ℕ) = n * 2 ^ 11 := Nat.shiftLeft_eq n 11
  unfold packComponents
  rw [BitVec.toNat_append, ← Nat.shiftLeft_add_eq_or_of_lt mantissa.isLt, BitVec.toNat_append,
    ← Nat.shiftLeft_add_eq_or_of_lt exponent.isLt, low, high]
  ring

theorem unpack_packComponents (s : Sign) (exponent : BitVec 11) (mantissa : BitVec 52) :
    UnpackedFloat.unpack format (packComponents format s exponent mantissa) =
      if exponent = -1#11 then if mantissa = 0#52 then .infinity s else .notANumber
      else if exponent = 0#11 then
        if h : mantissa = 0#52 then .zero s
        else .finite s mantissa.toNat minExponent
          (Nat.pos_of_ne_zero fun hm => h (BitVec.eq_of_toNat_eq hm))
      else .finite s (2 ^ 52 + mantissa.toNat) (exponent.toNat - 1075) (by omega) := by
  have bias : (format.exponentBias : ℤ) + (format.mantissaBitsWithoutImplicit : ℤ) = 1075 := rfl
  have implicit : (1#1 ++ mantissa).toNat = 2 ^ 52 + mantissa.toNat := by
    rw [BitVec.toNat_append, ← Nat.shiftLeft_add_eq_or_of_lt mantissa.isLt]
    rfl
  unfold UnpackedFloat.unpack
  simp only [UnpackedFloat.unpackExponent_packComponents,
    UnpackedFloat.unpackMantissa_packComponents, UnpackedFloat.unpackSign_packComponents,
    Sign.ofBitVec_toBitVec, bias]
  congr 1
  split
  next h =>
    subst h
    rfl
  · congr 1

theorem canonical_unpack (b : BitVec 64) : Canonical (UnpackedFloat.unpack format b) := by
  obtain ⟨s, exponent, mantissa, rfl⟩ := exists_packComponents b
  have hm : mantissa.toNat < 2 ^ 52 := mantissa.isLt
  have he : exponent.toNat < 2 ^ 11 := exponent.isLt
  rw [unpack_packComponents]
  split
  · split <;> trivial
  next top =>
    have below : exponent.toNat ≠ 2047 := fun h => top (BitVec.eq_of_toNat_eq (h.trans (by decide)))
    split
    · split
      · trivial
      · exact ⟨⟨le_rfl, by omega, .inl rfl⟩, by decide⟩
    next zero =>
      have pos : exponent.toNat ≠ 0 := fun h => zero (BitVec.eq_of_toNat_eq h)
      unfold Canonical maxExponent
      exact ⟨⟨by unfold minExponent; omega, by omega, .inr (by omega)⟩, by omega⟩

theorem pack_finite (s : Sign) (pos : 0 < m) :
    UnpackedFloat.pack format (.finite s m e pos) =
      if 2048 ≤ (e + 1075).toNat + 1 then UnpackedFloat.packedInfinity format s
      else if m.log2 + 1 = 53 then
        packComponents format s (BitVec.ofNat 11 (e + 1075).toNat) (BitVec.ofNat 52 m)
      else packComponents format s 0#11 (BitVec.ofNat 52 m) := by
  have bias :
      e + (format.exponentBias : ℤ) + (format.mantissaBitsWithoutImplicit : ℤ) = e + 1075 := by
    rw [Int.add_assoc]
    rfl
  unfold UnpackedFloat.pack
  dsimp only
  rw [bias]
  rfl

theorem stored_infinity (s : Sign) : stored (.infinity s) = .infinity s :=
  unpack_packComponents s _ _

/-- A finite value is kept, or turns into an infinity if its exponent is too great. -/
theorem stored_finite (s : Sign) (pos : 0 < m) (h : Normalized m e) :
    stored (.finite s m e pos) = if e ≤ maxExponent then .finite s m e pos else .infinity s := by
  obtain ⟨least, short, full⟩ := h
  unfold minExponent maxExponent at *
  rw [stored, pack_finite]
  by_cases fits : e ≤ 971
  · rw [if_neg (by omega), if_pos fits]
    by_cases long : m.log2 + 1 = 53
    · have hm : 2 ^ 52 ≤ m := (Nat.le_log2 (by omega)).1 (by omega)
      have hmod : (BitVec.ofNat 52 m).toNat = m % 2 ^ 52 := rfl
      have he : (BitVec.ofNat 11 (e + 1075).toNat).toNat = (e + 1075).toNat :=
        Nat.mod_eq_of_lt (by omega)
      have below : BitVec.ofNat 11 (e + 1075).toNat ≠ -1#11 := fun h => by
        have : (e + 1075).toNat = 2047 := he ▸ congrArg BitVec.toNat h
        omega
      have above : BitVec.ofNat 11 (e + 1075).toNat ≠ 0#11 := fun h => by
        have : (e + 1075).toNat = 0 := he ▸ congrArg BitVec.toNat h
        omega
      rw [if_pos long, unpack_packComponents, if_neg below, if_neg above]
      congr 1 <;> omega
    · have hlog : m.log2 < 53 := (Nat.log2_lt (by omega)).2 short
      have hm : m < 2 ^ 52 := (Nat.log2_lt (by omega)).1 (by omega)
      have hmod : (BitVec.ofNat 52 m).toNat = m := Nat.mod_eq_of_lt hm
      have above : BitVec.ofNat 52 m ≠ 0#52 := fun h => by
        have : m = 0 := hmod ▸ congrArg BitVec.toNat h
        omega
      rw [if_neg long, unpack_packComponents, if_neg (by decide), if_pos rfl, dif_neg above]
      congr 1
      unfold minExponent
      omega
  · rw [if_pos (by omega), if_neg fits]
    exact unpack_packComponents s _ _

theorem stored_of_canonical {u : UnpackedFloat} (h : Canonical u) : stored u = u := by
  cases u with
  | notANumber => exact UnpackedFloat.unpack_packedNaN
  | infinity s => exact stored_infinity s
  | zero s => exact UnpackedFloat.unpack_packedZero
  | finite s m e pos => rw [stored_finite s pos h.1, if_pos h.2]

end Binary64

end Multistage
