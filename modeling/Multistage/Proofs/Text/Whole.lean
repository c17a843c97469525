import Mathlib
import Multistage.Proofs.Scalar.Binary64
import Multistage.Text.Decimal

/-!
# Whole doubles and their texts

The double nearest to an integer is a whole number: where its exponent divides, its mantissa is a
multiple. The fewest digits that determine a whole number need no place after the point: the powers
of ten down to the first place are tried before any place after it, and the number is a multiple of
one. So the text of a whole number has either a zero after the point or an exponent.

## Main definitions

- `Binary64.IsWhole`: whole numbers, by mantissa and exponent.
- `Binary64.partsOfBits`: the fields that bits encode.
- `Decimal.WholeText`: the texts of whole numbers.

## Main statements

- `Binary64.parts_ofBits`: the fields of a double are those that its bits encode.
- `Binary64.isWhole_of_parts_nearest`: the double nearest to an integer is whole.
- `Decimal.shortest_exponent_nonneg`: the digits of whole numbers are not places after the point.
- `Decimal.wholeText_shortest`: the text of a whole number.
-/

namespace Multistage

namespace Binary64

open Float.Model
open Float.Model.UnpackedFloat (Sign packComponents)

/-- The number `mantissa * 2 ^ exponent` is whole. -/
def IsWhole (mantissa : ℕ) (exponent : ℤ) : Prop := 0 ≤ exponent ∨ 2 ^ (-exponent).toNat ∣ mantissa

/-! ### Fields of bits -/

/-- The fields that bits encode. -/
def partsOfBits (bits : ℕ) : Parts :=
  let negative := 2 ^ 63 ≤ bits
  let field := bits / 2 ^ fractionBits % 2 ^ 11
  let fraction := bits % 2 ^ fractionBits
  if field == topField then
    if fraction == 0 then .infinite negative else .notANumber
  else if field == 0 then .finite negative fraction minExponent
  else .finite negative (fraction + 2 ^ fractionBits) (minExponent + (field - 1 : ℕ))

/-- The fields of an unpacked value. -/
def partsOf : UnpackedFloat → Parts
  | .finite s m e _ => .finite (s == .negative) m e
  | .zero s => .finite (s == .negative) 0 minExponent
  | .infinity s => .infinite (s == .negative)
  | .notANumber => .notANumber

theorem partsOf_unpack (b : BitVec 64) :
    partsOf (UnpackedFloat.unpack format b) = partsOfBits b.toNat := by
  obtain ⟨s, exponent, mantissa, rfl⟩ := exists_packComponents b
  have bits := toNat_packComponents s exponent mantissa
  have hm : mantissa.toNat < 2 ^ 52 := mantissa.isLt
  have he : exponent.toNat < 2 ^ 11 := exponent.isLt
  rw [unpack_packComponents]
  generalize BitVec.toNat (packComponents format s exponent mantissa) = n at bits
  have sign : decide (2 ^ 63 ≤ n) = (s == .negative) := by
    cases s with
    | negative =>
      have one : Sign.negative.toBitVec.toNat = 1 := rfl
      exact decide_eq_true (by omega)
    | positive =>
      have zero : Sign.positive.toBitVec.toNat = 0 := rfl
      exact decide_eq_false (by omega)
  have field : n / 2 ^ 52 % 2 ^ 11 = exponent.toNat := by omega
  have fraction : n % 2 ^ 52 = mantissa.toNat := by omega
  have top : exponent = -1#11 ↔ exponent.toNat = 2047 := BitVec.toNat_inj.symm
  have least : exponent = 0#11 ↔ exponent.toNat = 0 := BitVec.toNat_inj.symm
  have none : mantissa = 0#52 ↔ mantissa.toNat = 0 := BitVec.toNat_inj.symm
  unfold partsOfBits fractionBits topField
  simp only [sign, field, fraction, beq_iff_eq, top, least, none]
  split
  · split <;> rfl
  · split
    · split
      next h => rw [h]; rfl
      · rfl
    next pos =>
      have exponent_eq : (exponent.toNat : ℤ) - 1075 = minExponent + (exponent.toNat - 1 : ℕ) := by
        unfold minExponent
        omega
      rw [partsOf, Nat.add_comm, exponent_eq]

/-- The fields of a double are those that its bits encode. -/
theorem parts_ofBits (b : UInt64) : parts (Float.ofBits b) = partsOfBits b.toNat :=
  calc parts (Float.ofBits b)
      = partsOf (unpacked (Float.ofBits b)) :=
        (partsOf_unpack (Float.ofBits b).toBits.toBitVec).symm
    _ = partsOf (UnpackedFloat.unpack format b.toBitVec) := by rw [unpacked_ofBits]
    _ = partsOfBits b.toNat := partsOf_unpack b.toBitVec

variable {bits num m : ℕ} {e : ℤ} {negative : Bool}

/-- An exponent field above zero adds a digit to the mantissa. -/
theorem eq_of_partsOfBits (h : partsOfBits bits = .finite negative m e) :
    e = minExponent + (bits / 2 ^ 52 % 2 ^ 11 - 1 : ℕ) ∧
      (bits / 2 ^ 52 % 2 ^ 11 ≠ 0 → m = bits % 2 ^ 52 + 2 ^ 52) := by
  unfold partsOfBits fractionBits at h
  simp only [beq_iff_eq] at h
  split at h
  · split at h <;> cases h
  · split at h
    next zero =>
      cases h
      refine ⟨?_, fun pos => absurd zero pos⟩
      rw [zero]
      rfl
    · cases h
      exact ⟨rfl, fun _ => rfl⟩

/-- The first digit of a mantissa that has it adds one to the exponent field. -/
theorem eq_of_partsOfBits_add {field mantissa sign : ℕ} (hsign : sign = 0 ∨ sign = 2 ^ 63)
    (full : 2 ^ 52 ≤ mantissa) (fits : field * 2 ^ 52 + mantissa < 2047 * 2 ^ 52)
    (h : partsOfBits (field * 2 ^ 52 + mantissa + sign) = .finite negative m e) :
    e = minExponent + (field + mantissa / 2 ^ 52 - 1 : ℕ) ∧ m = mantissa % 2 ^ 52 + 2 ^ 52 := by
  obtain ⟨he, hm⟩ := eq_of_partsOfBits h
  have hfield : (field * 2 ^ 52 + mantissa + sign) / 2 ^ 52 % 2 ^ 11 =
      field + mantissa / 2 ^ 52 := by omega
  have hfraction : (field * 2 ^ 52 + mantissa + sign) % 2 ^ 52 = mantissa % 2 ^ 52 := by omega
  rw [hfield] at he hm
  rw [hfraction] at hm
  exact ⟨he, hm (by omega)⟩

/-! ### Rounding integers -/

theorem binaryExponent_one (h : num ≠ 0) : binaryExponent num 1 = num.log2 := by
  have one : Nat.log2 1 = 0 := by decide
  simp [binaryExponent, one, Nat.not_lt.2 (Nat.log2_self_le h)]

/-- The mantissa of the double nearest to an integer. -/
def mantissaOfNat (num : ℕ) : ℕ :=
  if num.log2 < 52 then num * 2 ^ (52 - num.log2) else roundHalfEven num (2 ^ (num.log2 - 52))

theorem le_mantissaOfNat (h : num ≠ 0) : 2 ^ 52 ≤ mantissaOfNat num := by
  have hle := Nat.log2_self_le h
  unfold mantissaOfNat
  split
  next small =>
    calc 2 ^ 52 = 2 ^ num.log2 * 2 ^ (52 - num.log2) := by
          rw [← Nat.pow_add]
          congr 1
          omega
      _ ≤ num * 2 ^ (52 - num.log2) := Nat.mul_le_mul_right _ hle
  next large =>
    have scaled : 2 ^ num.log2 = 2 ^ 52 * 2 ^ (num.log2 - 52) := by
      rw [← Nat.pow_add]
      congr 1
      omega
    calc 2 ^ 52 ≤ num / 2 ^ (num.log2 - 52) :=
          (Nat.le_div_iff_mul_le (Nat.two_pow_pos _)).2 (scaled ▸ hle)
      _ ≤ roundHalfEven num (2 ^ (num.log2 - 52)) := div_le_roundHalfEven ..

theorem mantissaOfNat_lt (h : num.log2 < 52) : mantissaOfNat num < 2 ^ 53 := by
  rw [mantissaOfNat, if_pos h]
  calc num * 2 ^ (52 - num.log2) < 2 ^ (num.log2 + 1) * 2 ^ (52 - num.log2) :=
        Nat.mul_lt_mul_of_pos_right Nat.lt_log2_self (Nat.two_pow_pos _)
    _ = 2 ^ 53 := by
        rw [← Nat.pow_add]
        congr 1
        omega

theorem nearest_intCast {n : ℤ} (h : n ≠ 0) :
    nearest n =
      let bits := (n.natAbs.log2 + 1022) * 2 ^ fractionBits + mantissaOfNat n.natAbs
      if topField * 2 ^ fractionBits ≤ bits then infinity (n < 0)
      else Float.ofBits (UInt64.ofNat (bits + if n < 0 then 2 ^ 63 else 0)) := by
  have hnum : n.natAbs ≠ 0 := Int.natAbs_ne_zero.2 h
  have exponent : max ((n.natAbs.log2 : ℤ) - (fractionBits : ℕ)) minExponent =
      (n.natAbs.log2 : ℤ) - 52 := by
    unfold fractionBits minExponent
    omega
  have field : ((n.natAbs.log2 : ℤ) - 52 - minExponent).toNat = n.natAbs.log2 + 1022 := by
    unfold minExponent
    omega
  have mantissa : (if 0 ≤ (n.natAbs.log2 : ℤ) - 52
        then roundHalfEven n.natAbs (1 * 2 ^ ((n.natAbs.log2 : ℤ) - 52).toNat)
        else roundHalfEven (n.natAbs * 2 ^ (-((n.natAbs.log2 : ℤ) - 52)).toNat) 1) =
      mantissaOfNat n.natAbs := by
    unfold mantissaOfNat
    by_cases small : n.natAbs.log2 < 52
    · rw [if_neg (by omega), if_pos small, show (-((n.natAbs.log2 : ℤ) - 52)).toNat =
        52 - n.natAbs.log2 by omega]
      simpa using roundHalfEven_mul (n.natAbs * 2 ^ (52 - n.natAbs.log2)) Nat.one_pos
    · rw [if_pos (by omega), if_neg small, Nat.one_mul, show ((n.natAbs.log2 : ℤ) - 52).toNat =
        n.natAbs.log2 - 52 by omega]
  unfold nearest
  simp only [Rat.num_intCast, Rat.den_intCast, binaryExponent_one hnum, Nat.pow_eq, exponent, field,
    mantissa, beq_iff_eq, if_neg hnum]
  rfl

/-- The double nearest to an integer is whole. Only one below the bound of exact integers has an
exponent that divides, and then its mantissa is the integer, shifted. -/
theorem isWhole_of_parts_nearest {n : ℤ} (h : parts (nearest n) = .finite negative m e) :
    IsWhole m e := by
  by_cases zero : n = 0
  · have parts_zero : parts (nearest (0 : ℤ)) = .finite false 0 minExponent := rfl
    rw [zero, parts_zero] at h
    cases h
    exact .inr (dvd_zero _)
  · have normal := le_mantissaOfNat (Int.natAbs_ne_zero.2 zero)
    rw [nearest_intCast zero] at h
    dsimp only at h
    split at h
    · have parts_infinity (b : Bool) : parts (infinity b) = .infinite b := by cases b <;> rfl
      rw [parts_infinity] at h
      cases h
    next fits =>
      unfold topField fractionBits at fits
      unfold fractionBits at h
      have hsign : (if n < 0 then 2 ^ 63 else 0) = 0 ∨ (if n < 0 then 2 ^ 63 else 0) = 2 ^ 63 := by
        split
        · exact .inr rfl
        · exact .inl rfl
      rw [parts_ofBits, UInt64.toNat_ofNat', Nat.mod_eq_of_lt (by omega)] at h
      obtain ⟨he, hm⟩ := eq_of_partsOfBits_add hsign normal (by omega) h
      unfold minExponent at he
      by_cases small : n.natAbs.log2 < 52
      · have short := mantissaOfNat_lt small
        have hmantissa : m = mantissaOfNat n.natAbs := by omega
        have hexponent : (-e).toNat = 52 - n.natAbs.log2 := by omega
        rw [IsWhole, hmantissa, hexponent, mantissaOfNat, if_pos small]
        exact .inr (Nat.dvd_mul_left _ _)
      · exact .inl (by omega)

end Binary64

namespace Decimal

open Binary64 (IsWhole)

variable {mantissa num den : ℕ} {exponent : ℤ}

/-! ### Rounding whole numbers -/

theorem leadingExponent_nonneg (hden : den ≠ 0) (h : den ≤ num) : 0 ≤ leadingExponent num den := by
  have hlog : den.log2 ≤ num.log2 := (Nat.le_log2 (by omega)).2 ((Nat.log2_self_le hden).trans h)
  have one : powerLe 0 num den = true := by simpa [powerLe] using h
  unfold leadingExponent
  dsimp only
  split
  · omega
  · split
    · omega
    next below =>
      by_cases zero : ((num.log2 : ℤ) - den.log2) * 30103 / 100000 = 0
      · rw [zero] at below
        exact absurd one below
      · omega

/-- The multiples of a power of ten have its exponent. -/
theorem exponent_of_onGrid? {i : Interval} {binary : ℤ} {d : Decimal}
    (h : i.onGrid? binary exponent = some d) : d.exponent = exponent := by
  unfold Interval.onGrid? at h
  extract_lets scale at h
  obtain ⟨unitNum, unitDen⟩ := scale 10 exponent
  obtain ⟨quarterNum, quarterDen⟩ := scale 2 (binary - 2)
  dsimp only at h
  split at h
  · cases h
    rfl
  · split at h
    · cases h
      rfl
    · cases h

/-- A double that is a multiple of the unit is admitted as it is. -/
theorem admits_value (hm : mantissa ≠ 0) {unit quarter : ℕ} (hquarter : 0 < quarter)
    (h : unit ∣ (interval mantissa exponent).value * quarter) :
    (interval mantissa exponent).admits unit quarter
      ((interval mantissa exponent).value * quarter / unit) = true := by
  unfold Interval.admits
  simp only [Nat.div_mul_cancel h]
  have low : (interval mantissa exponent).low < (interval mantissa exponent).value := by
    unfold interval
    dsimp only
    split <;> omega
  have high : (interval mantissa exponent).value < (interval mantissa exponent).high := by
    unfold interval
    dsimp only
    omega
  have hlow := Nat.mul_lt_mul_of_pos_right low hquarter
  have hhigh := Nat.mul_lt_mul_of_pos_right high hquarter
  split <;> simp <;> omega

/-- A quarter of the last place divides four times a whole number. -/
theorem four_mul_dvd (h : IsWhole mantissa exponent) :
    Nat.pow 2 (-(exponent - 2)).toNat ∣ 4 * mantissa := by
  show 2 ^ (-(exponent - 2)).toNat ∣ 4 * mantissa
  rcases h with whole | divides
  · have two : (-(exponent - 2)).toNat ≤ 2 := by omega
    exact (Nat.pow_dvd_pow 2 two).trans (Nat.dvd_mul_right _ _)
  · by_cases negative : exponent ≤ 0
    · rw [show (-(exponent - 2)).toNat = 2 + (-exponent).toNat by omega, Nat.pow_add]
      exact Nat.mul_dvd_mul_left _ divides
    · have two : (-(exponent - 2)).toNat ≤ 2 := by omega
      exact (Nat.pow_dvd_pow 2 two).trans (Nat.dvd_mul_right _ _)

/-- A whole number is a multiple of one in its own rounding interval. -/
theorem onGrid?_zero_isSome (hm : mantissa ≠ 0) (h : IsWhole mantissa exponent) :
    ((interval mantissa exponent).onGrid? exponent 0).isSome = true := by
  unfold Interval.onGrid?
  extract_lets scale
  have one : scale 10 0 = (1, 1) := rfl
  obtain ⟨quarter, unit, hscale, hquarter, hunit, hdvd⟩ : ∃ quarter unit,
      scale 2 (exponent - 2) = (quarter, unit) ∧ 0 < quarter ∧ 0 < unit ∧
        unit ∣ (interval mantissa exponent).value * quarter := by
    by_cases large : 0 ≤ exponent - 2
    · exact ⟨_, 1, if_pos large, Nat.two_pow_pos _, Nat.one_pos, Nat.one_dvd _⟩
    · refine ⟨1, _, if_neg large, Nat.one_pos, Nat.two_pow_pos _, ?_⟩
      rw [Nat.mul_one]
      exact four_mul_dvd h
  have admitted := admits_value hm hquarter hdvd
  obtain ⟨below, hbelow⟩ := hdvd
  rw [hbelow, Nat.mul_div_cancel_left _ hunit] at admitted
  have nearer : 0 < (below + 1) * unit - unit * below := by
    rw [Nat.add_one_mul, Nat.mul_comm]
    omega
  rw [one, hscale]
  simp [hbelow, Nat.mul_div_cancel_left _ hunit, admitted, Nat.mul_comm below, nearer]

theorem exponent_le_withoutZeros (digits : ℕ) (exponent : ℤ) :
    exponent ≤ (withoutZeros digits exponent).exponent := by
  fun_induction withoutZeros digits exponent with
  | case1 digits exponent _ ih => omega
  | case2 => exact le_rfl

theorem exponent_ofSignificant (count num den : ℕ) :
    leadingExponent num den - (count - 1 : ℕ) ≤ (ofSignificant count num den).exponent := by
  unfold ofSignificant
  dsimp only
  split
  · exact Int.le_add_one le_rfl
  · exact le_rfl

/-- The fewest digits that determine a whole number need no place after the point. -/
theorem shortest_exponent_nonneg (hm : mantissa ≠ 0) (h : IsWhole mantissa exponent) :
    0 ≤ (shortest mantissa exponent).exponent := by
  unfold shortest trim
  extract_lets num den leading found
  have hleading : 0 ≤ leading := by
    by_cases whole : 0 ≤ exponent
    · simp only [leading, num, den, whole, if_true]
      exact leadingExponent_nonneg Nat.one_ne_zero
        (Nat.mul_pos (Nat.pos_of_ne_zero hm) (Nat.two_pow_pos _))
    · simp only [leading, num, den, whole, if_false]
      exact leadingExponent_nonneg (Nat.two_pow_pos _).ne'
        (Nat.le_of_dvd (Nat.pos_of_ne_zero hm) (h.resolve_left whole))
  refine le_trans ?_ (exponent_le_withoutZeros _ _)
  cases hfound : found with
  | none =>
    have beyond : 17 ≤ leading := by
      by_contra within
      have none := List.findSome?_eq_none_iff.1 hfound leading.toNat (List.mem_range.2 (by omega))
      rw [Int.toNat_of_nonneg hleading, Int.sub_self] at none
      simpa [none] using onGrid?_zero_isSome hm h
    have := exponent_ofSignificant 17 num den
    rw [Option.getD_none]
    omega
  | some d =>
    obtain ⟨before, dropped, after, hrange, hd, hbefore⟩ := List.findSome?_eq_some_iff.1 hfound
    rw [Option.getD_some, exponent_of_onGrid? hd]
    by_contra negative
    -- The grid of the whole numbers was tried before, and the number is on it.
    have dropped_lt : dropped < 17 := List.mem_range.1 (hrange ▸ by simp)
    have tried : leading.toNat ∈ before ++ dropped :: after :=
      hrange ▸ List.mem_range.2 (by omega)
    have ascending := hrange ▸ List.pairwise_lt_range (n := 17)
    rw [List.pairwise_append, List.pairwise_cons] at ascending
    rcases List.mem_append.1 tried with hmem | hmem
    · have none := hbefore _ hmem
      rw [Int.toNat_of_nonneg hleading, Int.sub_self] at none
      simpa [none] using onGrid?_zero_isSome hm h
    · rcases List.mem_cons.1 hmem with same | hmem
      · omega
      · have := ascending.2.1.1 _ hmem
        omega

/-! ### Texts of whole numbers -/

theorem isDigit_of_mem_toString {n : ℕ} {c : Char} (h : c ∈ (toString n).toList) :
    c.isDigit = true := by
  rw [Nat.toString_eq_ofList_toDigits, String.toList_ofList] at h
  exact Nat.isDigit_of_mem_toDigits (by decide) (by decide) h

theorem toList_toString_ne_nil (n : ℕ) : (toString n).toList ≠ [] := by
  rw [Nat.toString_eq_ofList_toDigits, String.toList_ofList]
  exact Nat.toDigits_ne_nil

theorem exists_exponentText (e : ℤ) :
    ∃ sign rest, (exponentText e).toList = 'e' :: sign :: rest := by
  unfold exponentText
  dsimp only
  split
  · exact ⟨'-', _, by rw [String.toList_append]; rfl⟩
  · exact ⟨'+', _, by rw [String.toList_append]; rfl⟩

/-- The text of a whole number is digits, a point and a zero, or has an exponent, which may follow
digits after the point. -/
inductive WholeText : List Char → Prop where
  | positional (digits : List Char) : digits ≠ [] → (∀ c ∈ digits, c.isDigit = true) →
      WholeText (digits ++ ['.', '0'])
  | scientific (digit sign : Char) (rest : List Char) : digit.isDigit = true →
      WholeText (digit :: 'e' :: sign :: rest)
  | pointed (digit : Char) (places : List Char) (sign : Char) (rest : List Char) :
      digit.isDigit = true → places ≠ [] → (∀ c ∈ places, c.isDigit = true) →
      WholeText (digit :: '.' :: (places ++ 'e' :: sign :: rest))

theorem wholeText_pointAfter_one {digits : List Char} (hne : digits ≠ [])
    (h : ∀ c ∈ digits, c.isDigit = true) (e : ℤ) :
    WholeText (pointAfter 1 digits ++ exponentText e).toList := by
  obtain ⟨sign, rest, hexponent⟩ := exists_exponentText e
  obtain ⟨digit, places, rfl⟩ := List.exists_cons_of_ne_nil hne
  obtain ⟨hdigit, hplaces⟩ := List.forall_mem_cons.1 h
  rw [String.toList_append, hexponent, pointAfter]
  by_cases single : places = []
  · subst single
    simpa using WholeText.scientific digit sign rest hdigit
  · have several : ¬(digit :: places).length ≤ 1 := by
      have := List.length_pos_iff.2 single
      rw [List.length_cons]
      omega
    rw [if_neg several]
    simpa using WholeText.pointed digit places sign rest hdigit single hplaces

theorem wholeText_layOut {d : Decimal} (h : 0 ≤ d.exponent) : WholeText (d.layOut full).toList := by
  have hdigits : ∀ c ∈ (toString d.digits).toList, c.isDigit = true :=
    fun c => isDigit_of_mem_toString
  have hne := toList_toString_ne_nil d.digits
  have hlength := List.length_pos_iff.2 hne
  unfold layOut
  generalize (toString d.digits).toList = digits at *
  dsimp only
  split
  · have notNegative : ¬d.exponent + (digits.length - 1 : ℕ) < 0 := by omega
    have fits : digits.length ≤ (d.exponent + (digits.length - 1 : ℕ)).toNat + 1 := by omega
    rw [if_neg notNegative, if_pos fits]
    have padded (zeros : ℕ) : ∀ c ∈ digits ++ List.replicate zeros '0', c.isDigit = true := by
      intro c hc
      rcases List.mem_append.1 hc with hc | hc
      · exact hdigits c hc
      · rw [List.eq_of_mem_replicate hc]
        decide
    simpa [full] using WholeText.positional _ (by simp [hne]) (padded _)
  · exact wholeText_pointAfter_one hne hdigits _

/-- The text of a whole double that is not negative. -/
theorem wholeText_shortest (h : IsWhole mantissa exponent) :
    WholeText
      (if mantissa == 0 then "0.0" else (shortest mantissa exponent).layOut full).toList := by
  by_cases zero : mantissa = 0
  · rw [if_pos (by simpa using zero)]
    exact .positional ['0'] (List.cons_ne_nil _ _) (by simp)
  · rw [if_neg (by simpa using zero)]
    exact wholeText_layOut (shortest_exponent_nonneg zero h)

end Decimal

end Multistage
