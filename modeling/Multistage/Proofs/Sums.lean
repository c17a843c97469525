import Mathlib.Algebra.Order.BigOperators.Group.List
import Mathlib.Algebra.Order.Ring.Rat
import Multistage.Proofs.Dict
import Multistage.Scalar.Summation

/-!
# Sums over lists and maps

## Main statements

- `sum_map_eq_of_contains_eq`: the sum over distinct keys depends on the keys up to equality.
- `Dict.sum_entries`: the sum over the entries of a map is one over its keys.
-/

namespace Multistage

/-- In exact arithmetic the order of addition does not matter. -/
theorem Scalar.sum_eq_listSum (xs : List ℚ) : Scalar.sum xs = xs.sum := by
  induction xs with
  | nil => rfl
  | cons x rest ih => rw [Scalar.sum_cons, ih, List.sum_cons]

theorem Scalar.sum_map_neg (xs : List ℚ) : Scalar.sum (xs.map (-·)) = -Scalar.sum xs := by
  rw [Scalar.sum_eq_listSum, Scalar.sum_eq_listSum, List.sum_neg]

theorem Scalar.dot_neg (xs ys : List ℚ) : Scalar.dot xs (ys.map (-·)) = -Scalar.dot xs ys := by
  rw [Scalar.dot, Scalar.dot, ← Scalar.sum_map_neg, List.zipWith_map_right, List.map_zipWith]
  simp only [mul_neg]

theorem Scalar.neg_dot (xs ys : List ℚ) : Scalar.dot (xs.map (-·)) ys = -Scalar.dot xs ys := by
  rw [Scalar.dot, Scalar.dot, ← Scalar.sum_map_neg, List.zipWith_map_left, List.map_zipWith]
  simp only [neg_mul]

/-- Lists without repetition that hold the same items have the same sums, up to equality of
items. -/
theorem sum_map_eq_of_contains_eq {κ : Type} [BEq κ] [EquivBEq κ] {M : Type}
    [AddCommMonoid M] {f : κ → M} (hf : ∀ a b, (a == b) = true → f a = f b) {xs ys : List κ}
    (hx : xs.Pairwise fun a b => (a == b) = false) (hy : ys.Pairwise fun a b => (a == b) = false)
    (h : ∀ c, xs.contains c = ys.contains c) : (xs.map f).sum = (ys.map f).sum := by
  induction xs generalizing ys with
  | nil =>
    cases ys with
    | nil => rfl
    | cons y rest => simpa using h y
  | cons x rest ih =>
    obtain ⟨hfirst, hrest⟩ := List.pairwise_cons.1 hx
    have hmem : ys.contains x = true := by rw [← h]; simp
    obtain ⟨y, hy', hxy⟩ := List.contains_iff_exists_mem_beq.1 hmem
    obtain ⟨before, after, rfl⟩ := List.append_of_mem hy'
    have hmid : (y :: (before ++ after)).Pairwise fun a b => (a == b) = false :=
      List.perm_middle.pairwise hy fun {a b} hab => by rw [BEq.comm]; exact hab
    obtain ⟨hother, hremaining⟩ := List.pairwise_cons.1 hmid
    -- an item that is neither equal to the first nor to its partner is on both sides
    have same : ∀ c, rest.contains c = (before ++ after).contains c := by
      intro c
      have hc := h c
      have parts :
          (before ++ y :: after).contains c = ((y == c) || (before ++ after).contains c) := by
        rw [Bool.eq_iff_iff]
        simp only [List.contains_iff_exists_mem_beq, List.mem_append, List.mem_cons,
          Bool.or_eq_true]
        grind [BEq.comm]
      rw [parts, List.contains_cons, BEq.comm] at hc
      by_cases hxc : (x == c) = true
      · have none : ∀ zs : List κ, (∀ z ∈ zs, (x == z) = false) → zs.contains c = false := by
          intro zs hzs
          rw [Bool.eq_false_iff]
          intro hz
          obtain ⟨z, hz, hcz⟩ := List.contains_iff_exists_mem_beq.1 hz
          have := hzs z hz
          rw [BEq.trans hxc hcz] at this
          cases this
        rw [none rest hfirst, none (before ++ after)]
        intro z hz
        rw [Bool.eq_false_iff]
        intro hxz
        have := hother z hz
        rw [BEq.trans (BEq.symm hxy) hxz] at this
        cases this
      · have hyc : ¬(y == c) = true := fun hyc => hxc (BEq.trans hxy hyc)
        simpa [hxc, hyc] using hc
    rw [List.map_cons, List.sum_cons, ih hrest hremaining same, hf x y hxy,
      (List.perm_middle.map f).sum_eq, List.map_cons, List.sum_cons]

/-- A sum in which some terms are left out. -/
theorem sum_map_ite {κ M : Type} [AddCommMonoid M] (p : κ → Bool) (f : κ → M) (xs : List κ) :
    (xs.map fun x => if p x = true then f x else 0).sum = ((xs.filter p).map f).sum := by
  induction xs with
  | nil => rfl
  | cons x rest ih => by_cases hx : p x = true <;> simp [hx, ih]

theorem sum_map_sum_comm {β γ : Type} (xs : List β) (ys : List γ) (f : β → γ → ℚ) :
    (xs.map fun x => (ys.map (f x)).sum).sum =
    (ys.map fun y => (xs.map fun x => f x y).sum).sum := by
  induction xs with
  | nil => simp
  | cons x rest ih => rw [List.map_cons, List.sum_cons, ih]; simp [List.sum_map_add]

/-- A sum over items of which those that are not in another list add nothing. -/
theorem sum_map_eq_of_subset {κ M : Type} [BEq κ] [EquivBEq κ] [AddCommMonoid M] {f : κ → M}
    (hf : ∀ a b, (a == b) = true → f a = f b) {xs : List κ} (ys : List κ)
    (hx : xs.Pairwise fun a b => (a == b) = false) (hy : ys.Pairwise fun a b => (a == b) = false)
    (hsub : ∀ c, ys.contains c = true → xs.contains c = true)
    (hzero : ∀ x ∈ xs, ys.contains x = false → f x = 0) : (xs.map f).sum = (ys.map f).sum := by
  have kept : (xs.map f).sum = ((xs.filter fun x => ys.contains x).map f).sum := by
    rw [← sum_map_ite]
    refine congrArg List.sum (List.map_congr_left fun x hmem => ?_)
    split
    · rfl
    next h => exact hzero x hmem (Bool.eq_false_iff.2 h)
  rw [kept]
  refine sum_map_eq_of_contains_eq hf (hx.sublist List.filter_sublist) hy fun c => ?_
  rw [Bool.eq_iff_iff]
  simp only [List.contains_iff_exists_mem_beq, List.mem_filter] at hsub ⊢
  constructor
  · rintro ⟨x, ⟨-, y, hy, hxy⟩, hcx⟩
    exact ⟨y, hy, BEq.trans hcx hxy⟩
  · rintro ⟨y, hy, hcy⟩
    obtain ⟨x, hx, hcx⟩ := hsub c ⟨y, hy, hcy⟩
    exact ⟨x, ⟨hx, y, hy, BEq.trans (BEq.symm hcx) hcy⟩, hcx⟩

theorem sum_map_nonneg {κ : Type} {f : κ → ℚ} {xs : List κ} (hf : ∀ x ∈ xs, 0 ≤ f x) :
    0 ≤ (xs.map f).sum := by
  refine List.sum_nonneg fun y hy => ?_
  obtain ⟨x, hx, rfl⟩ := List.mem_map.1 hy
  exact hf x hx

theorem sum_map_eq_zero_iff {κ : Type} {f : κ → ℚ} (hf : ∀ x, 0 ≤ f x) (xs : List κ) :
    (xs.map f).sum = 0 ↔ ∀ x ∈ xs, f x = 0 := by
  induction xs with
  | nil => simp
  | cons x rest ih =>
    have tail : 0 ≤ (rest.map f).sum := sum_map_nonneg fun y _ => hf y
    rw [List.map_cons, List.sum_cons, add_eq_zero_iff_of_nonneg (hf x) tail, ih,
      List.forall_mem_cons]

/-- A sum over the entries of a map is one over its keys. -/
theorem Dict.sum_entries {κ β M : Type} [BEq κ] [EquivBEq κ] [AddCommMonoid M] {d : Dict κ β}
    (hd : d.Distinct) (other : β) (g : κ → β → M) :
    (d.entries.map fun e => g e.1 e.2).sum = (d.keys.map fun k => g k (d.getD k other)).sum := by
  rw [Dict.keys, List.map_map]
  refine congrArg List.sum (List.map_congr_left fun e he => ?_)
  have found : d.get? e.1 = some e.2 := (Dict.get?_eq_some_iff hd).2 ⟨e, he, BEq.rfl, rfl⟩
  simp only [Function.comp_apply, Dict.getD, found, Option.getD_some]

end Multistage
