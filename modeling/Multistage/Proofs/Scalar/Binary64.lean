import Multistage.Proofs.Scalar.Ordered
import Multistage.Proofs.Scalar.Unpacked

/-!
# Doubles are ordered scalars

Every double that is a number stands for an integer, which counts units of the least double above
zero; infinities stand for what the next greater exponent would begin with. Doubles compare as these
integers, and the sum of two doubles that are not negative is the sum of their integers, rounded to
53 binary digits and at most that of infinity. So the laws of ordered scalars hold in spite of
rounding and overflow.

## Main definitions

- `Binary64.units`: the integer that a value stands for.
- `Binary64.Counts`: the values that are not negative, with their numbers of units.

## Main statements

- `Binary64.compare_eq`: values compare as their units.
- `Binary64.Counts.add`: the sum of two values that are not negative.
- `Binary64.ordered_float`: doubles are ordered scalars.
-/

namespace Multistage

namespace Binary64

open Float.Model
open Float.Model.UnpackedFloat (Sign packComponents decreaseExponent)

/-! ### Units -/

/-- The number of units of an infinity: the first power of two that is too great for a double. -/
@[irreducible] def infiniteUnits : ℕ := 2 ^ (53 + place maxExponent)

/-- The number of units of a value, zero if it is not a number. -/
def units : UnpackedFloat → ℤ
  | .finite s m e _ => s.apply (m * 2 ^ place e : ℕ)
  | .infinity s => s.apply infiniteUnits
  | _ => 0

theorem infiniteUnits_pos : 0 < infiniteUnits := by
  unfold infiniteUnits
  exact Nat.two_pow_pos _

theorem rounded_infiniteUnits : rounded infiniteUnits = infiniteUnits := by
  have normalized : infiniteUnits = 2 ^ 52 * 2 ^ (1 + place maxExponent) := by
    unfold infiniteUnits
    rw [← Nat.pow_add, ← Nat.add_assoc]
  rw [normalized]
  exact rounded_mul (by decide) (by decide) (.inr le_rfl)

namespace Normalized

variable {m m' : ℕ} {e e' : ℤ}

/-- A normalized number has at most 53 digits above its place. -/
theorem mul_lt (h : Normalized m e) : m * 2 ^ place e < 2 ^ (53 + place e) := by
  rw [Nat.pow_add]
  exact Nat.mul_lt_mul_of_pos_right h.short (Nat.two_pow_pos _)

/-- Above the least exponent a normalized number has all of its 53 digits. -/
theorem le_mul (h : Normalized m e) (he : e ≠ minExponent) :
    2 ^ (52 + place e) ≤ m * 2 ^ place e := by
  rw [Nat.pow_add]
  exact Nat.mul_le_mul_right _ (h.full.resolve_left he)

/-- Up to the greatest exponent a normalized number is less than infinity. -/
theorem lt_infiniteUnits (h : Normalized m e) (he : e ≤ maxExponent) :
    m * 2 ^ place e < infiniteUnits := by
  have hplace : place e ≤ place maxExponent := by
    unfold place
    omega
  unfold infiniteUnits
  exact h.mul_lt.trans_le (Nat.pow_le_pow_right (by decide) (by omega))

/-- Beyond the greatest exponent a normalized number is stored as infinity. -/
theorem infiniteUnits_le (h : Normalized m e) (he : ¬e ≤ maxExponent) :
    infiniteUnits ≤ m * 2 ^ place e := by
  have hplace : place maxExponent + 1 ≤ place e := by
    unfold place maxExponent minExponent at *
    omega
  have hmin : e ≠ minExponent := by
    unfold maxExponent minExponent at *
    omega
  unfold infiniteUnits
  exact (Nat.pow_le_pow_right (by decide) (by omega)).trans (h.le_mul hmin)

/-- A greater exponent makes a greater magnitude. -/
theorem mul_lt_mul (h : Normalized m e) (h' : Normalized m' e') (hlt : e < e') :
    m * 2 ^ place e < m' * 2 ^ place e' := by
  have least := h.least
  have hplace : place e + 1 ≤ place e' := by
    unfold place
    omega
  calc m * 2 ^ place e < 2 ^ (53 + place e) := h.mul_lt
    _ ≤ 2 ^ (52 + place e') := Nat.pow_le_pow_right (by decide) (by omega)
    _ ≤ m' * 2 ^ place e' := h'.le_mul (by omega)

/-- Exponents are compared first, and mantissas where the exponents are equal. -/
theorem compare_mul (h : Normalized m e) (h' : Normalized m' e') :
    compare (m * 2 ^ place e) (m' * 2 ^ place e') = (compare e e').then (compare m m') := by
  rcases lt_trichotomy e e' with hlt | rfl | hgt
  · rw [compare_lt_iff_lt.2 hlt, compare_lt_iff_lt.2 (h.mul_lt_mul h' hlt)]
    rfl
  · have scaled {a b : ℕ} (hab : a < b) : a * 2 ^ place e < b * 2 ^ place e :=
      Nat.mul_lt_mul_of_pos_right hab (Nat.two_pow_pos _)
    rw [compare_eq_iff_eq.2 (rfl : e = e), Ordering.then]
    rcases lt_trichotomy m m' with hlt | rfl | hgt
    · rw [compare_lt_iff_lt.2 hlt, compare_lt_iff_lt.2 (scaled hlt)]
    · rw [compare_eq_iff_eq.2 rfl, compare_eq_iff_eq.2 rfl]
    · rw [compare_gt_iff_gt.2 hgt, compare_gt_iff_gt.2 (scaled hgt)]
  · rw [compare_gt_iff_gt.2 hgt, compare_gt_iff_gt.2 (h'.mul_lt_mul h hgt)]
    rfl

end Normalized

/-! ### Comparisons -/

theorem compare_natCast (a b : ℕ) : compare (a : ℤ) b = compare a b := by
  simp [compare, compareOfLessAndEq]

theorem compare_neg (a b : ℤ) : compare (-a) (-b) = (compare a b).swap := by
  rw [Int.compare_swap]
  simp [compare, compareOfLessAndEq, eq_comm]

/-- Signs turn comparisons around. -/
theorem compare_apply (s : Sign) (a b : ℕ) :
    compare (s.apply a) (s.apply b) = match s with
      | .negative => (compare a b).swap
      | .positive => compare a b := by
  cases s with
  | negative => exact (compare_neg _ _).trans (congrArg Ordering.swap (compare_natCast a b))
  | positive => exact compare_natCast a b

theorem some_compare {o : Ordering} {a b : ℤ} (h : o = .lt ∧ a < b ∨ o = .gt ∧ b < a) :
    some o = some (compare a b) := by
  rcases h with ⟨rfl, hlt⟩ | ⟨rfl, hgt⟩
  · rw [compare_lt_iff_lt.2 hlt]
  · rw [compare_gt_iff_gt.2 hgt]

/-- Values compare as their units. Only finite values of one sign need their mantissas compared; in
all other cases signs and infinities decide. -/
theorem compare_eq {u v : UnpackedFloat} (hu : Canonical u) (hv : Canonical v)
    (hu' : u ≠ .notANumber) (hv' : v ≠ .notANumber) :
    u.compare v = some (compare (units u) (units v)) := by
  have top := infiniteUnits_pos
  have bounds {m e} (pos : 0 < m) (h : Normalized m e ∧ e ≤ maxExponent) :
      0 < m * 2 ^ place e ∧ m * 2 ^ place e < infiniteUnits :=
    ⟨Nat.mul_pos pos (Nat.two_pow_pos _), h.1.lt_infiniteUnits h.2⟩
  cases u with
  | notANumber => exact absurd rfl hu'
  | infinity s =>
    cases v with
    | notANumber => exact absurd rfl hv'
    | infinity s' =>
      cases s <;> cases s'
      case negative.negative | positive.positive =>
        exact congrArg some (compare_eq_iff_eq.2 rfl).symm
      case negative.positive => exact some_compare (.inl ⟨rfl, by grind [units, Sign.apply]⟩)
      case positive.negative => exact some_compare (.inr ⟨rfl, by grind [units, Sign.apply]⟩)
    | zero s' => cases s <;> exact some_compare (by grind [units, Sign.apply])
    | finite s' m' e' pos' =>
      have := bounds pos' hv
      cases s <;> cases s' <;> exact some_compare (by grind [units, Sign.apply])
  | zero s =>
    cases v with
    | notANumber => exact absurd rfl hv'
    | infinity s' => cases s' <;> exact some_compare (by grind [units, Sign.apply])
    | zero s' => exact congrArg some (compare_eq_iff_eq.2 rfl).symm
    | finite s' m' e' pos' =>
      have := bounds pos' hv
      cases s' <;> exact some_compare (by grind [units, Sign.apply])
  | finite s m e pos =>
    have := bounds pos hu
    cases v with
    | notANumber => exact absurd rfl hv'
    | infinity s' => cases s <;> cases s' <;> exact some_compare (by grind [units, Sign.apply])
    | zero s' => cases s <;> exact some_compare (by grind [units, Sign.apply])
    | finite s' m' e' pos' =>
      have := bounds pos' hv
      cases s <;> cases s'
      case negative.negative | positive.positive =>
        rw [units, units, compare_apply, hu.1.compare_mul hv.1]
        rfl
      all_goals exact some_compare (by grind [units, Sign.apply])

/-- Not-a-number compares with nothing. -/
theorem compare_notANumber {u v : UnpackedFloat} (h : u = .notANumber ∨ v = .notANumber) :
    u.compare v = none := by
  rcases h with rfl | rfl
  · rfl
  · cases u <;> rfl

/-- The order of doubles is that of the units that they count. -/
theorem unpacked_le_iff {u v : UnpackedFloat} (hu : Canonical u) (hv : Canonical v) :
    u.le v = true ↔ u ≠ .notANumber ∧ v ≠ .notANumber ∧ units u ≤ units v := by
  by_cases h : u = .notANumber ∨ v = .notANumber
  · rw [UnpackedFloat.le, compare_notANumber h]
    simp only [Option.any_none, Bool.false_eq_true, false_iff]
    tauto
  · obtain ⟨hu', hv'⟩ := not_or.1 h
    rw [UnpackedFloat.le, compare_eq hu hv hu' hv', Option.any_some, ← Int.isLE_compare]
    simp only [ne_eq, hu', hv', not_false_eq_true, true_and]

/-- The strict order of doubles is that of the units that they count. -/
theorem unpacked_lt_iff {u v : UnpackedFloat} (hu : Canonical u) (hv : Canonical v) :
    u.lt v = true ↔ u ≠ .notANumber ∧ v ≠ .notANumber ∧ units u < units v := by
  by_cases h : u = .notANumber ∨ v = .notANumber
  · rw [UnpackedFloat.lt, compare_notANumber h]
    simp only [beq_iff_eq, reduceCtorEq, false_iff]
    tauto
  · obtain ⟨hu', hv'⟩ := not_or.1 h
    rw [UnpackedFloat.lt, compare_eq hu hv hu' hv', ← compare_lt_iff_lt]
    simp only [beq_iff_eq, Option.some.injEq, ne_eq, hu', hv', not_false_eq_true, true_and]

/-! ### Sums -/

/-- A value that is not negative counts `n` units. -/
inductive Counts : UnpackedFloat → ℕ → Prop where
  | zero (s : Sign) : Counts (.zero s) 0
  | finite {m : ℕ} {e : ℤ} (pos : 0 < m) (normalized : Normalized m e) (le : e ≤ maxExponent) :
      Counts (.finite .positive m e pos) (m * 2 ^ place e)
  | infinity : Counts (.infinity .positive) infiniteUnits

/-- A double that is not negative counts units. -/
theorem exists_counts {u : UnpackedFloat} (h : Canonical u) (hu : u ≠ .notANumber)
    (nonneg : 0 ≤ units u) : ∃ n, Counts u n := by
  have top := infiniteUnits_pos
  cases u with
  | notANumber => exact absurd rfl hu
  | zero s => exact ⟨0, .zero s⟩
  | infinity s =>
    cases s with
    | negative => grind [units, Sign.apply]
    | positive => exact ⟨_, .infinity⟩
  | finite s m e pos =>
    cases s with
    | negative =>
      have := Nat.mul_pos pos (Nat.two_pow_pos (place e))
      grind [units, Sign.apply]
    | positive => exact ⟨_, .finite pos h.1 h.2⟩

namespace Counts

variable {u v : UnpackedFloat} {a b : ℕ}

theorem ne_notANumber (h : Counts u a) : u ≠ .notANumber := by cases h <;> nofun

theorem units_eq (h : Counts u a) : units u = a := by cases h <;> rfl

theorem canonical (h : Counts u a) : Canonical u := by
  cases h with
  | zero => trivial
  | finite pos normalized le => exact ⟨normalized, le⟩
  | infinity => trivial

/-- Infinity counts the most units. -/
theorem le_infiniteUnits (h : Counts u a) : a ≤ infiniteUnits := by
  cases h with
  | zero => exact Nat.zero_le _
  | finite pos normalized le => exact (normalized.lt_infiniteUnits le).le
  | infinity => exact le_rfl

/-- What a double counts is not changed by rounding. -/
theorem rounded_eq (h : Counts u a) : rounded a = a := by
  cases h with
  | zero => exact rounded_zero
  | finite pos normalized le =>
    exact rounded_mul pos.ne' normalized.short normalized.place_eq_zero_or
  | infinity => exact rounded_infiniteUnits

/-- A value that needs no rounding is kept. -/
theorem stored (h : Counts u a) : Counts (stored u) (min (rounded a) infiniteUnits) := by
  rw [stored_of_canonical h.canonical, h.rounded_eq, Nat.min_eq_left h.le_infiniteUnits]
  exact h

/-- A value that is too great to be kept turns into infinity. -/
theorem stored_round {m : ℕ} {e : ℤ} (hm : m ≠ 0) (he : minExponent ≤ e) :
    Counts (Binary64.stored (UnpackedFloat.round format .positive m e))
      (min (rounded (m * 2 ^ place e)) infiniteUnits) := by
  obtain ⟨m', e', pos, round, normalized, magnitude⟩ := round_eq .positive hm he
  rw [round, stored_finite _ pos normalized, ← magnitude]
  by_cases h : e' ≤ maxExponent
  · rw [if_pos h, Nat.min_eq_left (normalized.lt_infiniteUnits h).le]
    exact .finite pos normalized h
  · rw [if_neg h, Nat.min_eq_right (normalized.infiniteUnits_le h)]
    exact .infinity

/-- What is beyond the greatest double is stored as infinity. -/
theorem stored_infinity {n : ℕ} (h : infiniteUnits ≤ n) :
    Counts (Binary64.stored (.infinity .positive)) (min (rounded n) infiniteUnits) := by
  have le : infiniteUnits ≤ rounded n := rounded_infiniteUnits.symm.trans_le (rounded_mono h)
  rw [Binary64.stored_infinity, Nat.min_eq_right le]
  exact .infinity

/-- The sum of two finite doubles counts the rounded sum of their units. -/
theorem add_finite {m m' : ℕ} {e e' : ℤ} (pos : 0 < m) (pos' : 0 < m') (he : minExponent ≤ e)
    (he' : minExponent ≤ e') :
    Counts
      (Binary64.stored (.add format (.finite .positive m e pos) (.finite .positive m' e' pos')))
      (min (rounded (m * 2 ^ place e + m' * 2 ^ place e')) infiniteUnits) := by
  have least : minExponent ≤ min e e' := le_min he he'
  set aligned := m <<< (e - min e e').toNat + m' <<< (e' - min e e').toNat with haligned
  have sum : m * 2 ^ place e + m' * 2 ^ place e' = aligned * 2 ^ place (min e e') := by
    rw [haligned, Nat.add_mul, shiftLeft_mul m least (min_le_left ..),
      shiftLeft_mul m' least (min_le_right ..)]
  have aligned_pos : 0 < aligned := by
    refine Nat.add_pos_left ?_ _
    rw [Nat.shiftLeft_eq]
    exact Nat.mul_pos pos (Nat.two_pow_pos _)
  have round : UnpackedFloat.add format (.finite .positive m e pos) (.finite .positive m' e' pos') =
      UnpackedFloat.round format .positive aligned (min e e') := by
    unfold UnpackedFloat.add decreaseExponent UnpackedFloat.normalize
    simp only [Sign.apply]
    rw [← Nat.cast_add, compare_gt_iff_gt.2 (Int.natCast_pos.2 aligned_pos)]
    rfl
  rw [sum, round]
  exact stored_round aligned_pos.ne' least

/-- The sum of values that are not negative is the exact sum, rounded, and at most infinity. -/
theorem add (h : Counts u a) (h' : Counts v b) :
    Counts (Binary64.stored (.add format u v)) (min (rounded (a + b)) infiniteUnits) := by
  cases h with
  | infinity => cases h' <;> exact stored_infinity (Nat.le_add_right _ _)
  | zero s =>
    rw [Nat.zero_add]
    cases h' with
    | zero s' => cases s <;> cases s' <;> exact (Counts.zero _).stored
    | finite pos' normalized' le' => exact (Counts.finite pos' normalized' le').stored
    | infinity => exact Counts.infinity.stored
  | finite pos normalized le =>
    cases h' with
    | zero s' => exact (Counts.finite pos normalized le).stored
    | infinity => exact stored_infinity (Nat.le_add_left _ _)
    | finite pos' normalized' le' => exact add_finite pos pos' normalized.least normalized'.least

end Counts

/-! ### Doubles -/

/-- The value of a double. -/
def unpacked (x : Float) : UnpackedFloat := x.toModel.unpack

variable {x y : Float} {a b : ℕ}

theorem canonical_unpacked (x : Float) : Canonical (unpacked x) := canonical_unpack _

theorem unpacked_add (x y : Float) :
    unpacked (x + y) = stored (.add format (unpacked x) (unpacked y)) := rfl

theorem unpacked_ofBits (b : UInt64) :
    unpacked (Float.ofBits b) = UnpackedFloat.unpack format b.toBitVec :=
  stored_of_canonical (canonical_unpack _)

theorem le_iff :
    x ≤ y ↔ unpacked x ≠ .notANumber ∧ unpacked y ≠ .notANumber ∧
      units (unpacked x) ≤ units (unpacked y) := by
  rw [← unpacked_le_iff (canonical_unpacked x) (canonical_unpacked y)]
  exact decide_eq_true_iff

theorem lt_iff :
    x < y ↔ unpacked x ≠ .notANumber ∧ unpacked y ≠ .notANumber ∧
      units (unpacked x) < units (unpacked y) := by
  rw [← unpacked_lt_iff (canonical_unpacked x) (canonical_unpacked y)]
  exact decide_eq_true_iff

/-- A double is a number iff it is at most itself. -/
theorem le_self_iff : x ≤ x ↔ unpacked x ≠ .notANumber := by
  rw [le_iff]
  exact ⟨fun h => h.1, fun h => ⟨h, h, le_rfl⟩⟩

/-- A double is not negative iff it counts units. -/
theorem zero_le_iff : (0.0 : Float) ≤ x ↔ ∃ n, Counts (unpacked x) n := by
  have zero : unpacked 0.0 = .zero .positive := rfl
  rw [le_iff, zero]
  constructor
  · rintro ⟨-, number, nonneg⟩
    exact exists_counts (canonical_unpacked x) number nonneg
  · rintro ⟨n, h⟩
    exact ⟨nofun, h.ne_notANumber, h.units_eq ▸ Int.natCast_nonneg n⟩

/-- Doubles that count units are in the order of their units. -/
theorem Counts.le_iff (h : Counts (unpacked x) a) (h' : Counts (unpacked y) b) : x ≤ y ↔ a ≤ b := by
  rw [Binary64.le_iff, h.units_eq, h'.units_eq]
  exact ⟨fun hle => Int.ofNat_le.1 hle.2.2,
    fun hle => ⟨h.ne_notANumber, h'.ne_notANumber, Int.ofNat_le.2 hle⟩⟩

/-- A sum with not-a-number is not a number. -/
theorem unpacked_add_notANumber (h : unpacked x = .notANumber ∨ unpacked y = .notANumber) :
    unpacked (x + y) = .notANumber := by
  have sum : UnpackedFloat.add format (unpacked x) (unpacked y) = .notANumber := by
    rcases h with h | h
    · rw [h]
      rfl
    · rw [h]
      cases unpacked x <;> rfl
  rw [unpacked_add, sum]
  exact stored_of_canonical (u := .notANumber) trivial

/-! ### Doubles near rational numbers -/

theorem exists_counts_of_ne {exponent : BitVec 11} (mantissa : BitVec 52) (h : exponent ≠ -1#11) :
    ∃ n, Counts (.unpack format (packComponents format .positive exponent mantissa)) n := by
  refine exists_counts (canonical_unpack _) ?_ ?_
  · rw [unpack_packComponents, if_neg h]
    split
    · split <;> nofun
    · nofun
  · rw [unpack_packComponents, if_neg h]
    split
    · split
      · exact le_rfl
      · exact Int.natCast_nonneg _
    · exact Int.natCast_nonneg _

/-- The bits below those of infinity are those of numbers that are not negative. -/
theorem ofBits_nonneg {n : ℕ} (h : n < topField * 2 ^ fractionBits) :
    (0.0 : Float) ≤ Float.ofBits (UInt64.ofNat n) := by
  unfold topField fractionBits at h
  obtain ⟨s, exponent, mantissa, components⟩ := exists_packComponents (UInt64.ofNat n).toBitVec
  have hn : (packComponents format s exponent mantissa).toNat = n :=
    components ▸ Nat.mod_eq_of_lt (by omega)
  rw [toNat_packComponents] at hn
  have positive : s = .positive := by
    cases s with
    | negative =>
      rw [show Sign.negative.toBitVec.toNat = 1 from rfl] at hn
      omega
    | positive => rfl
  have below : exponent ≠ -1#11 := by
    rintro rfl
    rw [show (-1#11 : BitVec 11).toNat = 2047 from rfl] at hn
    omega
  rw [zero_le_iff, unpacked_ofBits, components, positive]
  exact exists_counts_of_ne mantissa below

/-- The double that is nearest to a number that is not negative is not negative. -/
theorem nearest_nonneg {q : ℚ} (h : 0 ≤ q) : (0.0 : Float) ≤ nearest q := by
  have sign : ¬q.num < 0 := not_lt.2 (Rat.num_nonneg.2 h)
  have packed (bits : ℕ) :
      (0.0 : Float) ≤ if topField * Nat.pow 2 fractionBits ≤ bits then infinity false
        else Float.ofBits (UInt64.ofNat (bits + 0)) := by
    split
    · decide
    next fits => exact ofBits_nonneg (not_le.1 fits)
  unfold nearest
  simp only [sign, decide_false]
  split
  · decide
  · exact packed _

/-! ### The laws -/

instance ordered_float : Scalar.Ordered Float where
  refl_of_le h := ⟨le_self_iff.2 (le_iff.1 h).1, le_self_iff.2 (le_iff.1 h).2.1⟩
  trans h h' := by
    rw [le_iff] at *
    exact ⟨h.1, h'.2.1, h.2.2.trans h'.2.2⟩
  total h h' := by
    rw [le_self_iff] at h h'
    rw [le_iff, le_iff]
    exact (le_total _ _).imp (fun hle => ⟨h, h', hle⟩) (fun hle => ⟨h', h, hle⟩)
  lt_iff := by
    intro a b
    rw [lt_iff, le_iff, le_iff]
    constructor
    · exact fun ⟨ha, hb, hlt⟩ => ⟨⟨ha, hb, hlt.le⟩, fun hge => hlt.not_ge hge.2.2⟩
    · exact fun ⟨⟨ha, hb, _⟩, hnot⟩ => ⟨ha, hb, lt_of_not_ge fun hge => hnot ⟨hb, ha, hge⟩⟩
  zero_le_one := by decide
  ofRat_nonneg := nearest_nonneg
  refl_of_add h := by
    rw [le_self_iff] at h
    rw [le_self_iff, le_self_iff]
    exact ⟨fun ha => h (unpacked_add_notANumber (.inl ha)),
      fun hb => h (unpacked_add_notANumber (.inr hb))⟩
  le_add {a b} ha hb := by
    obtain ⟨n, hn⟩ := zero_le_iff.1 ha
    obtain ⟨k, hk⟩ := zero_le_iff.1 hb
    have hle : n ≤ rounded (n + k) :=
      hn.rounded_eq.symm.trans_le (rounded_mono (Nat.le_add_right n k))
    exact (hn.le_iff (unpacked_add a b ▸ hn.add hk)).2 (le_min hle hn.le_infiniteUnits)
  add_mono {a b c} ha hab hc := by
    obtain ⟨n, hn⟩ := zero_le_iff.1 ha
    obtain ⟨k, hk⟩ := zero_le_iff.1 hc
    have hb : unpacked b ≠ .notANumber := (le_iff.1 hab).2.1
    have nonneg : 0 ≤ units (unpacked b) := (le_iff.1 ha).2.2.trans (le_iff.1 hab).2.2
    obtain ⟨m, hm⟩ := exists_counts (canonical_unpacked b) hb nonneg
    have hle : n ≤ m := (hn.le_iff hm).1 hab
    have sums := (unpacked_add a c ▸ hn.add hk : Counts (unpacked (a + c)) _).le_iff
      (unpacked_add b c ▸ hm.add hk : Counts (unpacked (b + c)) _)
    exact sums.2 (min_le_min_right _ (rounded_mono (Nat.add_le_add_right hle k)))

end Binary64

end Multistage
