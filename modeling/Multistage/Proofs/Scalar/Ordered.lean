import Multistage.Proofs.Scalar.Extended
import Multistage.Scalar.Summation

/-!
# Ordered scalars

What a check of probabilities needs of its scalars: the comparisons are those of a total order of
the numbers, not-a-number is in no relation to anything and spoils every sum, and sums of
non-negative numbers grow with their terms. The exact numbers are such scalars, with and without
infinities; so are doubles, since their sums are exact sums that are rounded.

## Main definitions

- `Scalar.Ordered`: the laws.

## Main statements

- `Scalar.sum_nonneg`, `Scalar.isNumber_of_sum`: sums of non-negative numbers, and the terms of a
  sum that is a number.
- `Scalar.sum_filter_le`: what is left of a sum if terms are left out.
- `Scalar.sumInLanes_induction`: what addition preserves holds of sums in lanes.
-/

namespace Multistage

/-! ### The order of the extended numbers -/

namespace Extended

variable {a b : Extended ℚ}

@[simp] theorem le_posInf : a ≤ posInf ↔ a ≠ nan := by cases a <;> simp [le_iff, le, lt]

@[simp] theorem posInf_le : posInf ≤ a ↔ a = posInf := by cases a <;> simp [le_iff, le, lt]

@[simp] theorem negInf_le : negInf ≤ a ↔ a ≠ nan := by cases a <;> simp [le_iff, le, lt]

@[simp] theorem le_negInf : a ≤ negInf ↔ a = negInf := by cases a <;> simp [le_iff, le, lt]

@[simp] theorem not_nan_le : ¬nan ≤ a := by cases a <;> simp [le_iff, le, lt]

@[simp] theorem not_le_nan : ¬a ≤ nan := by cases a <;> simp [le_iff, le, lt]

/-- The strict order is the order that cannot be turned around. -/
theorem lt_iff_le_not_le : a < b ↔ a ≤ b ∧ ¬b ≤ a := by
  cases a with
  | finite x =>
    cases b with
    | finite y => simp only [finite_lt, finite_le, lt_iff_le_not_ge]
    | _ => simp [lt_iff, lt]
  | _ => cases b <;> simp [lt_iff, lt]

end Extended

namespace Scalar

/-- The numbers among the scalars are totally ordered, and sums of non-negative numbers are
monotone. A scalar is a number if it is at most itself. -/
class Ordered (α : Type) [Scalar α] : Prop where
  /-- Only numbers compare. -/
  refl_of_le {a b : α} : a ≤ b → a ≤ a ∧ b ≤ b
  trans {a b c : α} : a ≤ b → b ≤ c → a ≤ c
  /-- Numbers compare in one of the two directions. -/
  total {a b : α} : a ≤ a → b ≤ b → a ≤ b ∨ b ≤ a
  lt_iff {a b : α} : a < b ↔ a ≤ b ∧ ¬b ≤ a
  zero_le_one : (0 : α) ≤ 1
  ofRat_nonneg {q : ℚ} : 0 ≤ q → (0 : α) ≤ ofRat q
  /-- A sum with not-a-number is not a number. -/
  refl_of_add {a b : α} : a + b ≤ a + b → a ≤ a ∧ b ≤ b
  le_add {a b : α} : 0 ≤ a → 0 ≤ b → a ≤ a + b
  add_mono {a b c : α} : 0 ≤ a → a ≤ b → 0 ≤ c → a + c ≤ b + c

instance ordered_rat : Ordered ℚ where
  refl_of_le _ := ⟨le_refl _, le_refl _⟩
  trans := le_trans
  total _ _ := le_total _ _
  lt_iff := lt_iff_le_not_ge
  zero_le_one := zero_le_one
  ofRat_nonneg h := h
  refl_of_add _ := ⟨le_refl _, le_refl _⟩
  le_add _ h := le_add_of_nonneg_right h
  add_mono _ h _ := add_le_add_left h _

/-- Infinities and not-a-number with exact numbers between them. -/
instance ordered_extended : Ordered (Extended ℚ) where
  refl_of_le {a b} h := by cases a <;> cases b <;> simp_all
  trans {a b c} hab hbc := by
    cases a <;> cases b <;> cases c <;> simp_all
    exact le_trans hab hbc
  total {a b} ha hb := by cases a <;> cases b <;> simp_all [le_total]
  lt_iff := Extended.lt_iff_le_not_le
  zero_le_one := Extended.finite_le.2 zero_le_one
  ofRat_nonneg h := Extended.finite_le.2 h
  refl_of_add {a b} h := by
    rw [Extended.add_eq] at h
    cases a <;> cases b <;> simp_all [Extended.add]
  le_add {a b} ha hb := by
    rw [Extended.add_eq]
    cases a <;> cases b <;> simp_all [Extended.zero_eq, Extended.add]
  add_mono {a b c} ha h hc := by
    rw [Extended.add_eq, Extended.add_eq]
    cases a <;> cases b <;> cases c <;> simp_all [Extended.zero_eq, Extended.add]

section

variable {α : Type} [Scalar α]

/-- A number is what is at most itself. -/
theorem isNumber_iff {a : α} : isNumber a = true ↔ a ≤ a := by simp [isNumber, same]

/-! ### Sums in lanes -/

section

variable {P : α → Prop} {xs : List α}

/-- What holds of a start and of all summands, and of sums of two, holds of the sum. -/
theorem foldl_induction (add : ∀ a b, P a → P b → P (a + b)) {start : α} (hstart : P start)
    (h : ∀ x ∈ xs, P x) : P (xs.foldl (· + ·) start) := by
  induction xs generalizing start with
  | nil => exact hstart
  | cons x rest ih =>
    obtain ⟨hx, hrest⟩ := List.forall_mem_cons.1 h
    exact ih (add start x hstart hx) hrest

omit [Scalar α] in
/-- Both lanes have summands of the list only. -/
theorem forall_alternate (h : ∀ x ∈ xs, P x) :
    (∀ x ∈ (alternate xs).1, P x) ∧ ∀ x ∈ (alternate xs).2, P x := by
  induction xs with
  | nil => exact ⟨nofun, nofun⟩
  | cons x rest ih =>
    obtain ⟨hx, hrest⟩ := List.forall_mem_cons.1 h
    obtain ⟨even, odd⟩ := ih hrest
    exact ⟨List.forall_mem_cons.2 ⟨hx, odd⟩, even⟩

omit [Scalar α] in
theorem forall_parts (h : ∀ x ∈ xs, P x) : (∀ x ∈ evenPart xs, P x) ∧ ∀ x ∈ unevenPart xs, P x :=
  ⟨fun x hx => h x (List.mem_of_mem_take hx), fun x hx => h x (List.mem_of_mem_drop hx)⟩

omit [Scalar α] in
/-- What holds of the sums of lists whose items have a property holds of the sums of their lanes. -/
theorem lanes_induction {f : List α → α} (hf : ∀ ys : List α, (∀ y ∈ ys, P y) → P (f ys))
    (h : ∀ x ∈ xs, P x) : let sums := (Lanes.ofList xs).map f
      P sums.first ∧ P sums.second ∧ P sums.third ∧ P sums.fourth := by
  obtain ⟨even, odd⟩ := forall_alternate h
  obtain ⟨first, third⟩ := forall_alternate even
  obtain ⟨second, fourth⟩ := forall_alternate odd
  exact ⟨hf _ first, hf _ second, hf _ third, hf _ fourth⟩

variable (zero : P 0) (add : ∀ a b, P a → P b → P (a + b))

include zero add

/-- What holds of zero and of all summands, and of sums of two, holds of the sum. -/
theorem sum_induction (h : ∀ x ∈ xs, P x) : P (sum xs) := foldl_induction add zero h

/-- What holds of all summands holds of the sums of blocks and of what is left. -/
theorem forall_blockSums (h : ∀ x ∈ xs, P x) :
    (∀ s ∈ (blockSums xs).1, P s) ∧ ∀ x ∈ (blockSums xs).2, P x := by
  induction xs using blockSums.induct with
  | case1 xs hlength sums rest _ ih =>
    obtain ⟨hsums, hrest⟩ := ih fun x hx => h x (List.mem_of_mem_drop hx)
    have block : P (sum (xs.take blockSize)) :=
      sum_induction zero add fun x hx => h x (List.mem_of_mem_take hx)
    rw [blockSums, if_pos hlength]
    exact ⟨List.forall_mem_cons.2 ⟨block, hsums⟩, hrest⟩
  | case2 xs hlength =>
    rw [blockSums, if_neg hlength]
    exact ⟨List.forall_mem_nil _, h⟩

/-- The same for sums that are made block by block. -/
theorem addInBlocks_induction (order : ℕ) {start : α} (hstart : P start) (h : ∀ x ∈ xs, P x) :
    P (addInBlocks order start xs) := by
  induction order generalizing start xs with
  | zero => exact add _ _ hstart (sum_induction zero add h)
  | succ order ih =>
    obtain ⟨hsums, hrest⟩ := forall_blockSums zero add h
    exact ih (add _ _ hstart (sum_induction zero add hrest)) hsums

/-- The same for the sum of a lane. -/
theorem sumOfLane_induction (h : ∀ x ∈ xs, P x) : P (sumOfLane xs) := by
  obtain ⟨even, uneven⟩ := forall_parts h
  obtain ⟨first, second, third, fourth⟩ := lanes_induction
    (fun _ hys => addInBlocks_induction zero add blockOrder zero hys) even
  exact add _ _ (add _ _ (add _ _ (foldl_induction add first uneven) second) third) fourth

/-- What addition preserves holds of a sum in lanes. -/
theorem sumInLanes_induction (h : ∀ x ∈ xs, P x) : P (sumInLanes xs) := by
  obtain ⟨even, uneven⟩ := forall_parts h
  obtain ⟨first, second, third, fourth⟩ := lanes_induction
    (fun _ hys => sumOfLane_induction zero add hys) even
  have start := add _ _ (sum_induction zero add uneven) first
  exact add _ _ (add _ _ (add _ _ start second) third) fourth

end

/-! ### Consequences of the laws -/

variable [Ordered α] {a b : α} {xs : List α}

theorem not_lt_of_le (h : a ≤ b) : ¬b < a := fun hlt => (Ordered.lt_iff.1 hlt).2 h

/-- Numbers are in one order or the other. -/
theorem le_of_not_lt (ha : a ≤ a) (hb : b ≤ b) (h : ¬b < a) : a ≤ b := by
  rcases Ordered.total ha hb with hle | hle
  · exact hle
  · by_contra hnot
    exact h (Ordered.lt_iff.2 ⟨hle, hnot⟩)

theorem zero_refl : (0 : α) ≤ 0 := (Ordered.refl_of_le Ordered.zero_le_one).1

/-- A number is non-negative iff it is not negative. -/
theorem nonneg_iff : 0 ≤ a ↔ isNumber a = true ∧ ¬a < 0 := by
  rw [isNumber_iff]
  exact ⟨fun h => ⟨(Ordered.refl_of_le h).2, not_lt_of_le h⟩,
    fun ⟨ha, h⟩ => le_of_not_lt zero_refl ha h⟩

theorem add_nonneg (ha : 0 ≤ a) (hb : 0 ≤ b) : 0 ≤ a + b := Ordered.trans ha (Ordered.le_add ha hb)

/-- A sum of values that are not negative is not negative. -/
theorem sum_nonneg (h : ∀ x ∈ xs, 0 ≤ x) : 0 ≤ sum xs :=
  sum_induction zero_refl (fun _ _ => add_nonneg) h

theorem sumInLanes_nonneg (h : ∀ x ∈ xs, 0 ≤ x) : 0 ≤ sumInLanes xs :=
  sumInLanes_induction zero_refl (fun _ _ => add_nonneg) h

/-- The terms of a sum that is a number are numbers. -/
theorem isNumber_of_sum (h : isNumber (sum xs) = true) : ∀ x ∈ xs, isNumber x = true := by
  have all : ∀ (xs : List α) (start : α), xs.foldl (· + ·) start ≤ xs.foldl (· + ·) start →
      start ≤ start ∧ ∀ x ∈ xs, x ≤ x := by
    intro xs
    induction xs with
    | nil => exact fun start h => ⟨h, nofun⟩
    | cons x rest ih =>
      intro start h
      obtain ⟨hadd, hrest⟩ := ih (start + x) h
      obtain ⟨hstart, hx⟩ := Ordered.refl_of_add hadd
      exact ⟨hstart, List.forall_mem_cons.2 ⟨hx, hrest⟩⟩
  simp only [isNumber_iff] at h ⊢
  exact (all xs 0 h).2

/-- A sum of non-negative numbers from which terms are left out. -/
theorem sum_filter_le (p : α → Bool) (h : ∀ x ∈ xs, 0 ≤ x) : sum (xs.filter p) ≤ sum xs := by
  have grows : ∀ (xs : List α) (a b : α), (∀ x ∈ xs, 0 ≤ x) → 0 ≤ a → a ≤ b →
      (xs.filter p).foldl (· + ·) a ≤ xs.foldl (· + ·) b := by
    intro xs
    induction xs with
    | nil => exact fun _ _ _ _ hab => hab
    | cons x rest ih =>
      intro a b hxs ha hab
      obtain ⟨hx, hrest⟩ := List.forall_mem_cons.1 hxs
      rw [List.foldl_cons]
      by_cases hp : p x = true
      · rw [List.filter_cons_of_pos hp, List.foldl_cons]
        exact ih _ _ hrest (add_nonneg ha hx) (Ordered.add_mono ha hab hx)
      · rw [List.filter_cons_of_neg hp]
        exact ih _ _ hrest ha (Ordered.trans hab (Ordered.le_add (Ordered.trans ha hab) hx))
  exact grows xs 0 0 h zero_refl zero_refl

end

end Scalar

end Multistage
