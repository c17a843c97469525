import Mathlib.Algebra.BigOperators.Group.List.Basic
import Mathlib.Algebra.Order.Ring.Rat
import Multistage.Scalar

/-!
# Rational numbers with infinities and not-a-number

The rational numbers together with two infinities and not-a-number are scalars: numbers are added
and compared exactly, and the other values as doubles do, save that zero has no sign. Not-a-number
is in no relation to anything, so that a check that is phrased as a rejection lets it pass.

## Main definitions

- `Extended.add`, `Extended.mul`, `Extended.div`, `Extended.neg`: the operations.

## Main statements

- `Extended.sum_eq_finite`: a sum is a number iff all its terms are.
- `Extended.sum_eq_nan`: a sum that has a term that is not a number, or opposite infinities, is not
  a number, and no other sum is.
-/

namespace Multistage

@[simp] theorem Scalar.isNumber_rat (x : ℚ) : Scalar.isNumber x = true := by
  simp [Scalar.isNumber, Scalar.same]

theorem Scalar.abs_rat (x : ℚ) : Scalar.abs x = |x| := by
  unfold Scalar.abs
  split
  next h => exact (abs_of_neg h).symm
  next h => exact (abs_of_nonneg (not_lt.1 h)).symm

namespace Extended

/-- The infinity with the sign of a number; zero has none. -/
def infinityOf (q : ℚ) : Extended ℚ := if 0 < q then posInf else if q < 0 then negInf else nan

/-- The sum; opposite infinities have none. -/
def add : Extended ℚ → Extended ℚ → Extended ℚ
  | finite x, finite y => finite (x + y)
  | finite _, b => b
  | a, finite _ => a
  | posInf, posInf => posInf
  | negInf, negInf => negInf
  | _, _ => nan

/-- The value with the other sign. -/
def neg : Extended ℚ → Extended ℚ
  | finite x => finite (-x)
  | posInf => negInf
  | negInf => posInf
  | nan => nan

/-- The product; zero and an infinity have none. -/
def mul : Extended ℚ → Extended ℚ → Extended ℚ
  | finite x, finite y => finite (x * y)
  | finite x, posInf | posInf, finite x => infinityOf x
  | finite x, negInf | negInf, finite x => infinityOf (-x)
  | posInf, posInf | negInf, negInf => posInf
  | posInf, negInf | negInf, posInf => negInf
  | _, _ => nan

/-- The quotient; a number other than zero by zero is an infinity. -/
def div : Extended ℚ → Extended ℚ → Extended ℚ
  | finite x, finite y => if y = 0 then infinityOf x else finite (x / y)
  | finite _, posInf | finite _, negInf => finite 0
  | posInf, finite y => if y < 0 then negInf else posInf
  | negInf, finite y => if y < 0 then posInf else negInf
  | _, _ => nan

instance : Scalar (Extended ℚ) where
  zero := finite 0
  one := finite 1
  add := add
  sub a b := add a (neg b)
  mul := mul
  div := div
  neg := neg
  lt a b := a.lt b = true
  le a b := a.le b = true
  decLt a b := inferInstanceAs (Decidable (a.lt b = true))
  decLe a b := inferInstanceAs (Decidable (a.le b = true))
  ofRat := finite
  exact a := a
  ofExtended? := some

theorem lt_iff {a b : Extended ℚ} : a < b ↔ a.lt b = true := Iff.rfl

theorem le_iff {a b : Extended ℚ} : a ≤ b ↔ a.le b = true := Iff.rfl

theorem zero_eq : (0 : Extended ℚ) = finite 0 := rfl

theorem one_eq : (1 : Extended ℚ) = finite 1 := rfl

theorem add_eq (a b : Extended ℚ) : a + b = add a b := rfl

@[simp] theorem finite_add (x y : ℚ) : finite x + finite y = finite (x + y) := rfl

@[simp] theorem finite_sub (x y : ℚ) : finite x - finite y = finite (x - y) :=
  congrArg finite (sub_eq_add_neg x y).symm

@[simp] theorem finite_lt {x y : ℚ} : finite x < finite y ↔ x < y := decide_eq_true_iff

@[simp] theorem finite_le {x y : ℚ} : finite x ≤ finite y ↔ x ≤ y := by
  simp [le_iff, le, lt, le_iff_lt_or_eq]

theorem le_intCast (a b : ℤ) : (finite (a : ℚ)).le (finite (b : ℚ)) = decide (a ≤ b) := by
  rw [Bool.eq_iff_iff, ← le_iff, finite_le, Rat.intCast_le_intCast, decide_eq_true_iff]

@[simp] theorem not_nan_lt (a : Extended ℚ) : ¬nan < a := by cases a <;> simp [lt_iff, lt]

@[simp] theorem not_lt_nan (a : Extended ℚ) : ¬a < nan := by cases a <;> simp [lt_iff, lt]

theorem abs_finite (x : ℚ) : Scalar.abs (finite x) = finite |x| := by
  unfold Scalar.abs
  split
  next h => rw [abs_of_neg (finite_lt.1 h)]; rfl
  next h => rw [abs_of_nonneg (not_lt.1 fun hx => h (finite_lt.2 hx))]

/-- Between numbers there are only numbers. -/
theorem exists_finite_of_le {a : Extended ℚ} {x y : ℚ} (hx : finite x ≤ a) (hy : a ≤ finite y) :
    ∃ q, a = finite q ∧ x ≤ q ∧ q ≤ y := by
  cases a with
  | finite q => exact ⟨q, rfl, finite_le.1 hx, finite_le.1 hy⟩
  | posInf => cases hy
  | negInf => cases hx
  | nan => cases hx

/-- A sum is finite iff both summands are, and then they are added as numbers. -/
theorem add_eq_finite {a b : Extended ℚ} {q : ℚ} :
    a + b = finite q ↔ ∃ x y, a = finite x ∧ b = finite y ∧ x + y = q := by
  constructor
  · intro h
    cases a with
    | finite x =>
      cases b with
      | finite y => exact ⟨x, y, rfl, rfl, by cases h; rfl⟩
      | _ => cases h
    | _ => cases b <;> cases h
  · rintro ⟨x, y, rfl, rfl, rfl⟩
    rfl

/-- A list of finite values is a list of numbers. -/
theorem exists_map_finite {xs : List (Extended ℚ)} (h : ∀ x ∈ xs, Scalar.isFinite x = true) :
    ∃ qs : List ℚ, xs = qs.map finite := by
  induction xs with
  | nil => exact ⟨[], rfl⟩
  | cons x rest ih =>
    obtain ⟨qs, rfl⟩ := ih fun y hy => h y (List.mem_cons_of_mem _ hy)
    have hx := h x List.mem_cons_self
    cases x with
    | finite q => exact ⟨q :: qs, rfl⟩
    | _ => cases hx

/-! ### Sums -/

/-- A sum from a start is finite iff the start and all values are. -/
theorem foldl_eq_finite {xs : List (Extended ℚ)} {a : Extended ℚ} {q : ℚ} :
    xs.foldl (· + ·) a = finite q ↔
      ∃ (x : ℚ) (qs : List ℚ), a = finite x ∧ xs = qs.map finite ∧ x + qs.sum = q := by
  induction xs generalizing a with
  | nil =>
    constructor
    · intro h
      exact ⟨q, [], h, rfl, by simp⟩
    · rintro ⟨x, qs, rfl, hqs, rfl⟩
      cases List.map_eq_nil_iff.1 hqs.symm
      simp
  | cons b rest ih =>
    rw [List.foldl_cons, ih]
    constructor
    · rintro ⟨s, qs, hs, rfl, rfl⟩
      obtain ⟨x, y, rfl, rfl, rfl⟩ := add_eq_finite.1 hs
      exact ⟨x, y :: qs, rfl, rfl, by rw [List.sum_cons, add_assoc]⟩
    · rintro ⟨x, qs, rfl, hqs, rfl⟩
      obtain ⟨y, ys, rfl, rfl, rfl⟩ := List.map_eq_cons_iff.1 hqs.symm
      exact ⟨x + y, ys, rfl, rfl, by rw [List.sum_cons, add_assoc]⟩

/-- A sum is a number iff all its terms are. -/
theorem sum_eq_finite {xs : List (Extended ℚ)} {q : ℚ} :
    Scalar.sum xs = finite q ↔ ∃ qs : List ℚ, xs = qs.map finite ∧ qs.sum = q := by
  unfold Scalar.sum
  rw [foldl_eq_finite]
  constructor
  · rintro ⟨x, qs, hx, rfl, rfl⟩
    cases hx
    exact ⟨qs, rfl, (zero_add _).symm⟩
  · rintro ⟨qs, rfl, rfl⟩
    exact ⟨0, qs, rfl, rfl, zero_add _⟩

/-- What makes a sum not a number. -/
def Undefined (xs : List (Extended ℚ)) : Prop := nan ∈ xs ∨ posInf ∈ xs ∧ negInf ∈ xs

/-- Adding the first two values leaves a sum as undefined as it was. -/
theorem undefined_pair {a b : Extended ℚ} {rest : List (Extended ℚ)} :
    Undefined (a :: b :: rest) ↔ Undefined ((a + b) :: rest) := by
  rw [add_eq]
  cases a <;> cases b <;> simp [Undefined, add]

/-- A sum from a start is undefined iff the values with the start are. -/
theorem foldl_eq_nan {xs : List (Extended ℚ)} {a : Extended ℚ} :
    xs.foldl (· + ·) a = nan ↔ Undefined (a :: xs) := by
  induction xs generalizing a with
  | nil => cases a <;> simp [Undefined]
  | cons b rest ih => rw [List.foldl_cons, ih, undefined_pair]

/-- A sum is not a number iff one of its terms is not, or two are opposite infinities. -/
theorem sum_eq_nan {xs : List (Extended ℚ)} : Scalar.sum xs = nan ↔ Undefined xs := by
  unfold Scalar.sum
  rw [foldl_eq_nan]
  simp [Undefined, zero_eq]

/-- A sum from a start is positive infinity iff one value is, and none is not-a-number or the other
infinity. -/
theorem foldl_eq_posInf {xs : List (Extended ℚ)} {a : Extended ℚ} :
    xs.foldl (· + ·) a = posInf ↔ posInf ∈ a :: xs ∧ nan ∉ a :: xs ∧ negInf ∉ a :: xs := by
  induction xs generalizing a with
  | nil => cases a <;> simp
  | cons b rest ih =>
    rw [List.foldl_cons, ih, add_eq]
    cases a <;> cases b <;> simp [add]

/-- A sum from a start is negative infinity iff one value is, and none is not-a-number or the other
infinity. -/
theorem foldl_eq_negInf {xs : List (Extended ℚ)} {a : Extended ℚ} :
    xs.foldl (· + ·) a = negInf ↔ negInf ∈ a :: xs ∧ nan ∉ a :: xs ∧ posInf ∉ a :: xs := by
  induction xs generalizing a with
  | nil => cases a <;> simp
  | cons b rest ih =>
    rw [List.foldl_cons, ih, add_eq]
    cases a <;> cases b <;> simp [add]

/-- A sum is positive infinity iff one value is, and none is not-a-number or the other infinity. -/
theorem sum_eq_posInf {xs : List (Extended ℚ)} :
    Scalar.sum xs = posInf ↔ posInf ∈ xs ∧ nan ∉ xs ∧ negInf ∉ xs := by
  unfold Scalar.sum
  rw [foldl_eq_posInf]
  simp [zero_eq]

/-- A sum is negative infinity iff one value is, and none is not-a-number or the other infinity. -/
theorem sum_eq_negInf {xs : List (Extended ℚ)} :
    Scalar.sum xs = negInf ↔ negInf ∈ xs ∧ nan ∉ xs ∧ posInf ∉ xs := by
  unfold Scalar.sum
  rw [foldl_eq_negInf]
  simp [zero_eq]

end Extended

end Multistage
