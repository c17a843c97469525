import Mathlib.Algebra.BigOperators.Ring.List
import Mathlib.Algebra.Order.BigOperators.Group.List
import Mathlib.Algebra.Order.Field.Rat
import Mathlib.Tactic.FieldSimp
import Mathlib.Tactic.Linarith
import Mathlib.Tactic.Ring
import Multistage.Risk
import Multistage.Proofs.Except
import Multistage.Proofs.Scalar.Extended
import Multistage.Proofs.Sense
import Multistage.Proofs.Sums

/-!
# Adjusted probabilities

How the two elementary risk measures move probability: the tail gives the worst outcomes as much of
the mass as they can take, and the worst case gives all of it to one of the worst possible outcomes.

## Main definitions

- `entrySum`: the sum of an expression over the positions of a list.
- `Measure.Shares`: the weights that a tail may give.
- `Measure.TailWeights`: those that are full above a threshold and zero below it.
- `Measure.Collected`: what is collected along positions.

## Main statements

- `Measure.exists_adjustTail`: the adjusted probabilities of a tail.
- `Measure.exists_adjustWorstCase`: those of the worst case.
- `Measure.adjustTail_of_nonpos`, `Measure.adjustWorstCase_of_impossible`: both where there is no
  mass.
-/

namespace Multistage

namespace Sense

/-- The order of a sense is the usual one in the direction that is minimised. -/
theorem atMost_iff_sign_mul_le {sense : Sense} {a b : ℚ} :
    sense.AtMost a b ↔ sense.sign * a ≤ sense.sign * b := by
  cases sense with
  | min =>
    show a ≤ b ↔ (1 : ℚ) * a ≤ 1 * b
    rw [one_mul, one_mul]
  | max =>
    show b ≤ a ↔ (-1 : ℚ) * a ≤ -1 * b
    rw [neg_one_mul, neg_one_mul, neg_le_neg_iff]

end Sense

/-! ### Sums over positions -/

/-- The sum of an expression over the first positions. -/
def entrySum (n : ℕ) (f : ℕ → ℚ) : ℚ := ((List.range n).map f).sum

theorem entrySum_congr {n : ℕ} {f g : ℕ → ℚ} (h : ∀ k < n, f k = g k) :
    entrySum n f = entrySum n g :=
  congrArg List.sum (List.map_congr_left fun k hk => h k (List.mem_range.1 hk))

theorem entrySum_le {n : ℕ} {f g : ℕ → ℚ} (h : ∀ k < n, f k ≤ g k) :
    entrySum n f ≤ entrySum n g :=
  List.sum_le_sum fun k hk => h k (List.mem_range.1 hk)

theorem entrySum_succ (n : ℕ) (f : ℕ → ℚ) :
    entrySum (n + 1) f = f 0 + entrySum n fun k => f (k + 1) := by
  unfold entrySum
  rw [List.range_succ_eq_map, List.map_cons, List.sum_cons, List.map_map]
  rfl

theorem entrySum_add (n : ℕ) (f g : ℕ → ℚ) :
    entrySum n (fun k => f k + g k) = entrySum n f + entrySum n g := List.sum_map_add

theorem entrySum_mul (n : ℕ) (a : ℚ) (f : ℕ → ℚ) :
    entrySum n (fun k => a * f k) = a * entrySum n f := List.sum_map_mul_left _ _ _

theorem entrySum_nonneg {n : ℕ} {f : ℕ → ℚ} (h : ∀ k < n, 0 ≤ f k) : 0 ≤ entrySum n f :=
  List.sum_nonneg fun x hx => by
    obtain ⟨k, hk, rfl⟩ := List.mem_map.1 hx
    exact h k (List.mem_range.1 hk)

theorem le_entrySum {n i : ℕ} (hi : i < n) {f : ℕ → ℚ} (h : ∀ k < n, 0 ≤ f k) :
    f i ≤ entrySum n f := by
  refine List.single_le_sum (fun x hx => ?_) _ (List.mem_map_of_mem (List.mem_range.2 hi))
  obtain ⟨k, hk, rfl⟩ := List.mem_map.1 hx
  exact h k (List.mem_range.1 hk)

theorem entrySum_single {n i : ℕ} (hi : i < n) {f : ℕ → ℚ} (h : ∀ k < n, k ≠ i → f k = 0) :
    entrySum n f = f i := by
  induction n generalizing i f with
  | zero => omega
  | succ n ih =>
    rw [entrySum_succ]
    cases i with
    | zero =>
      have rest : entrySum n (fun k => f (k + 1)) = entrySum n fun _ => 0 :=
        entrySum_congr fun k hk => h (k + 1) (by omega) (by omega)
      rw [rest]
      simp [entrySum]
    | succ i =>
      rw [h 0 (by omega) (by omega), zero_add]
      exact ih (by omega) fun k hk hne => h (k + 1) (by omega) (by omega)

theorem sum_eq_entrySum (p : List ℚ) : Scalar.sum p = entrySum p.length fun k => p.getD k 0 := by
  induction p with
  | nil => rfl
  | cons x rest ih =>
    rw [Scalar.sum_cons, ih, List.length_cons, entrySum_succ]
    rfl

theorem entrySum_getD {n : ℕ} {p : List ℚ} (h : p.length = n) :
    entrySum n (fun k => p.getD k 0) = p.sum := by
  rw [← Scalar.sum_eq_listSum, sum_eq_entrySum, h]

theorem dot_eq_entrySum {n : ℕ} {p v : List ℚ} (hp : p.length = n) (hv : v.length = n) :
    Scalar.dot p v = entrySum n fun k => p.getD k 0 * v.getD k 0 := by
  induction p generalizing n v with
  | nil =>
    cases hp
    rfl
  | cons x rest ih =>
    obtain ⟨y, ys, rfl⟩ : ∃ y ys, v = y :: ys :=
      List.exists_cons_of_length_eq_add_one (hv.trans hp.symm)
    cases hp
    have step : Scalar.dot (x :: rest) (y :: ys) = x * y + Scalar.dot rest ys := Scalar.sum_cons _ _
    rw [step, ih rfl (Nat.succ.inj hv), List.length_cons, entrySum_succ]
    rfl

theorem mul_dot_eq_entrySum {n : ℕ} {p v : List ℚ} (hp : p.length = n) (hv : v.length = n) (a : ℚ) :
    a * Scalar.dot p v = entrySum n fun k => p.getD k 0 * (a * v.getD k 0) := by
  rw [dot_eq_entrySum hp hv, ← entrySum_mul]
  simp only [mul_left_comm]

theorem Scalar.dot_comm (p v : List ℚ) : Scalar.dot p v = Scalar.dot v p := by
  unfold Scalar.dot
  rw [List.zipWith_comm]
  simp only [mul_comm]

theorem getD_map_of_lt {f : ℚ → ℚ} {v : List ℚ} {k : ℕ} (hk : k < v.length) :
    (v.map f).getD k 0 = f (v.getD k 0) := by
  simp [List.getD_eq_getElem?_getD, hk]

theorem getD_set {p : List ℚ} {i : ℕ} (hi : i < p.length) (a : ℚ) (k : ℕ) :
    (p.set i a).getD k 0 = if k = i then a else p.getD k 0 := by
  by_cases hk : k = i
  · subst hk
    simp [List.getD_eq_getElem?_getD, hi]
  · simp [List.getD_eq_getElem?_getD, hk, List.getElem?_set_ne (Ne.symm hk)]

theorem getD_map_zero (p : List ℚ) (k : ℕ) : (p.map fun _ => (0 : ℚ)).getD k 0 = 0 := by
  rw [List.getD_eq_getElem?_getD, List.getElem?_map]
  cases p[k]? <;> rfl

/-- If all weight is on one position, then the mean is that of the value there. -/
theorem dot_single {p v : List ℚ} {i : ℕ} (hi : i < p.length) (hv : v.length = p.length) (a : ℚ) :
    Scalar.dot ((p.map fun _ => (0 : ℚ)).set i a) v = a * v.getD i 0 := by
  have inside : i < (p.map fun _ => (0 : ℚ)).length := by simpa using hi
  rw [dot_eq_entrySum (by simp) hv, entrySum_single hi]
  · rw [getD_set inside, if_pos rfl]
  · intro k _ hk
    rw [getD_set inside, if_neg hk, getD_map_zero, zero_mul]

/-! ### Tails -/

namespace Measure

/-- Weights of the same mass as the probabilities that are at most the scaled probabilities. -/
structure Shares (level : ℚ) (p q : List ℚ) : Prop where
  length_eq : q.length = p.length
  nonneg : ∀ k < p.length, 0 ≤ q.getD k 0
  le_share : ∀ k < p.length, q.getD k 0 ≤ p.getD k 0 / level
  sum_eq : q.sum = p.sum

/-- Weights of a total mass that are at most the scaled probabilities, full for values above a
threshold and zero for values below it. -/
structure TailWeights (level : ℚ) (p q : List ℚ) (value : ℕ → ℚ) : Prop where
  length_eq : q.length = p.length
  nonneg : ∀ k < p.length, 0 ≤ q.getD k 0
  le_share : ∀ k < p.length, q.getD k 0 ≤ p.getD k 0 / level
  sum_eq : entrySum p.length (fun k => q.getD k 0) = entrySum p.length fun k => p.getD k 0
  threshold : ∃ t, (∀ k < p.length, t < value k → q.getD k 0 = p.getD k 0 / level) ∧
    ∀ k < p.length, value k < t → q.getD k 0 = 0

theorem TailWeights.shares {level : ℚ} {p q : List ℚ} {value : ℕ → ℚ}
    (h : TailWeights level p q value) : Shares level p q :=
  ⟨h.length_eq, h.nonneg, h.le_share, by
    rw [← entrySum_getD h.length_eq, ← entrySum_getD rfl]
    exact h.sum_eq⟩

theorem collect_of_le {p : List ℚ} {total level : ℚ} {positions : List ℕ} {collected : ℚ}
    {adjusted : List ℚ} (h : level ≤ collected) :
    collect p total level positions collected adjusted = .ok adjusted := by
  cases positions with
  | nil => rfl
  | cons i rest => rw [collect, if_pos h]

/-- What is collected along positions from worst to best: either the level is reached at a
threshold, or every position has its full share. -/
structure Collected (p : List ℚ) (total level : ℚ) (value : ℕ → ℚ) (positions : List ℕ)
    (collected : ℚ) (adjusted q : List ℚ) : Prop where
  length_eq : q.length = p.length
  other : ∀ k, k ∉ positions → q.getD k 0 = adjusted.getD k 0
  between : ∀ k ∈ positions, 0 ≤ q.getD k 0 ∧ q.getD k 0 ≤ p.getD k 0 / level
  ending : (collected + (positions.map fun k => q.getD k 0).sum * level / total = level ∧
      ∃ t, (∀ k ∈ positions, t < value k → q.getD k 0 = p.getD k 0 / level) ∧
        (∀ k ∈ positions, value k < t → q.getD k 0 = 0) ∧
        ∀ bound, (∀ k ∈ positions, value k ≤ bound) → t ≤ bound) ∨
    (collected + (positions.map fun k => q.getD k 0).sum * level / total < level ∧
      ∀ k ∈ positions, q.getD k 0 = p.getD k 0 / level)

section Collected

variable {p adjusted q : List ℚ} {total level collected : ℚ} {value : ℕ → ℚ} {i : ℕ} {rest : List ℕ}
  (htotal : 0 < total) (hlevel : 0 < level) (hi : i ∉ rest) (hfirst : ∀ k ∈ rest, value k ≤ value i)

include htotal hlevel hi hfirst

/-- If the first position takes what is missing, then its value is the threshold. -/
theorem Collected.ofLast (hlength : adjusted.length = p.length)
    (hp : ∀ k ∈ i :: rest, k < p.length ∧ 0 ≤ p.getD k 0) (hcollected : collected < level)
    (hlast : level - collected ≤ p.getD i 0 / total)
    (hzero : ∀ k ∈ i :: rest, adjusted.getD k 0 = 0) :
    Collected p total level value (i :: rest) collected adjusted
      (adjusted.set i (total * (level - collected) / level)) := by
  have hia : i < adjusted.length := hlength ▸ (hp i List.mem_cons_self).1
  -- the positions that follow are left empty
  have others :
      ∀ k ∈ rest, (adjusted.set i (total * (level - collected) / level)).getD k 0 = 0 := by
    intro k hk
    rw [getD_set hia, if_neg (by rintro rfl; exact hi hk)]
    exact hzero k (List.mem_cons_of_mem _ hk)
  have own : (adjusted.set i (total * (level - collected) / level)).getD i 0 =
      total * (level - collected) / level := by rw [getD_set hia, if_pos rfl]
  have sum : ((i :: rest).map fun k =>
      (adjusted.set i (total * (level - collected) / level)).getD k 0).sum =
        total * (level - collected) / level := by
    rw [List.map_cons, List.sum_cons, own, List.map_congr_left others]
    simp
  refine ⟨by rw [List.length_set, hlength], fun k hk => ?_, fun k hk => ?_,
    .inl ⟨?_, value i, fun k hk hlt => ?_, fun k hk hlt => ?_, fun bound hbound =>
      hbound i List.mem_cons_self⟩⟩
  · rw [getD_set hia, if_neg (by rintro rfl; exact hk List.mem_cons_self)]
  · rcases List.mem_cons.1 hk with rfl | hrest
    · rw [own]
      have := (le_div_iff₀ htotal).1 hlast
      refine ⟨by have := sub_pos.2 hcollected; positivity, ?_⟩
      refine div_le_div_of_nonneg_right ?_ hlevel.le
      linarith
    · rw [others k hrest]
      have := (hp k hk).2
      exact ⟨le_rfl, by positivity⟩
  · rw [sum]
    field_simp
    ring
  · rcases List.mem_cons.1 hk with rfl | hk
    · exact absurd hlt (lt_irrefl _)
    · exact absurd hlt (not_lt.2 (hfirst k hk))
  · rcases List.mem_cons.1 hk with rfl | hk
    · exact absurd hlt (lt_irrefl _)
    · exact others k hk

/-- If the first position takes its full share, then the rest is collected along the others. -/
theorem Collected.cons (hia : i < adjusted.length) (hpi : 0 ≤ p.getD i 0)
    (h : Collected p total level value rest (collected + p.getD i 0 / total)
      (adjusted.set i (p.getD i 0 / level)) q) :
    Collected p total level value (i :: rest) collected adjusted q := by
  have own : q.getD i 0 = p.getD i 0 / level := by rw [h.other i hi, getD_set hia, if_pos rfl]
  have sum : collected + ((i :: rest).map fun k => q.getD k 0).sum * level / total =
      collected + p.getD i 0 / total + (rest.map fun k => q.getD k 0).sum * level / total := by
    rw [List.map_cons, List.sum_cons, own]
    field_simp
    ring
  refine ⟨h.length_eq, fun k hk => ?_, fun k hk => ?_, ?_⟩
  · rw [h.other k fun h => hk (List.mem_cons_of_mem _ h), getD_set hia,
      if_neg (by rintro rfl; exact hk List.mem_cons_self)]
  · rcases List.mem_cons.1 hk with rfl | hk
    · rw [own]
      exact ⟨by positivity, le_rfl⟩
    · exact h.between k hk
  · rw [sum]
    rcases h.ending with ⟨hreached, t, habove, hbelow, hleast⟩ | ⟨hshort, hall⟩
    · refine .inl ⟨hreached, t, fun k hk hkt => ?_, fun k hk hkt => ?_, fun bound hbound =>
        hleast bound fun k hk => hbound k (List.mem_cons_of_mem _ hk)⟩
      · rcases List.mem_cons.1 hk with rfl | hk
        · exact own
        · exact habove k hk hkt
      · rcases List.mem_cons.1 hk with rfl | hk
        · exact absurd (hleast _ hfirst) (not_le.2 hkt)
        · exact hbelow k hk hkt
    · refine .inr ⟨hshort, fun k hk => ?_⟩
      rcases List.mem_cons.1 hk with rfl | hk
      · exact own
      · exact hall k hk

end Collected

/-- Collecting along positions from worst to best succeeds. -/
theorem exists_collect {p : List ℚ} (hp : ∀ k < p.length, 0 ≤ p.getD k 0) {total level : ℚ}
    (htotal : 0 < total) (hlevel : 0 < level) {value : ℕ → ℚ} {positions : List ℕ}
    (hnodup : positions.Nodup) (hlt : ∀ k ∈ positions, k < p.length)
    (hsorted : positions.Pairwise fun i j => value j ≤ value i) {collected : ℚ}
    (hcollected : collected < level) {adjusted : List ℚ} (hlength : adjusted.length = p.length)
    (hzero : ∀ k ∈ positions, adjusted.getD k 0 = 0) :
    ∃ q, collect p total level positions collected adjusted = .ok q ∧
      Collected p total level value positions collected adjusted q := by
  induction positions generalizing collected adjusted with
  | nil => exact ⟨adjusted, rfl, hlength, fun _ _ => rfl, by simp, .inr (by simpa using hcollected)⟩
  | cons i rest ih =>
    obtain ⟨hi, hrest⟩ := List.nodup_cons.1 hnodup
    obtain ⟨hfirst, hsorted⟩ := List.pairwise_cons.1 hsorted
    have hip := hlt i List.mem_cons_self
    have hia : i < adjusted.length := hlength ▸ hip
    have at_i : p[i]? = some (p.getD i 0) := by
      simp [List.getD_eq_getElem?_getD, hip]
    rw [collect, if_neg (not_le.2 hcollected), at_i]
    simp only
    by_cases hlast : level - collected ≤ p.getD i 0 / total
    · have share : Scalar.lesser (p.getD i 0 / total) (level - collected) = level - collected := by
        unfold Scalar.lesser
        split
        · rfl
        next h => exact le_antisymm (not_lt.1 h) hlast
      rw [share]
      exact ⟨_, collect_of_le (by linarith), .ofLast htotal hlevel hi hfirst hlength
        (fun k hk => ⟨hlt k hk, hp k (hlt k hk)⟩) hcollected hlast hzero⟩
    · have hfull := not_le.1 hlast
      have share : Scalar.lesser (p.getD i 0 / total) (level - collected) = p.getD i 0 / total :=
        if_neg (not_lt.2 hfull.le)
      have full : total * (p.getD i 0 / total) / level = p.getD i 0 / level := by field_simp
      rw [share, full]
      have zero : ∀ k ∈ rest, (adjusted.set i (p.getD i 0 / level)).getD k 0 = 0 := by
        intro k hk
        rw [getD_set hia, if_neg (by rintro rfl; exact hi hk)]
        exact hzero k (List.mem_cons_of_mem _ hk)
      obtain ⟨q, hrun, h⟩ := ih hrest (fun k hk => hlt k (List.mem_cons_of_mem _ hk)) hsorted
        (show collected + p.getD i 0 / total < level by linarith)
        (by rw [List.length_set, hlength]) zero
      exact ⟨q, hrun, .cons htotal hlevel hi hfirst hia (hp i hip) h⟩

theorem ascends_iff {a b : ℚ} : ascends a b = true ↔ a ≤ b := by
  simp [ascends]

/-- The positions from worst to best are all positions, sorted. -/
theorem worstFirst_spec (sense : Sense) (f : List ℚ) :
    (worstFirst sense f).Perm (List.range f.length) ∧
      (worstFirst sense f).Pairwise fun i j =>
      sense.sign * f.getD j 0 ≤ sense.sign * f.getD i 0 := by
  let comes : ℚ × ℕ → ℚ × ℕ → Bool := fun x y =>
    if sense = .min then ascends y.1 x.1 else ascends x.1 y.1
  have sorted_eq : worstFirst sense f = (f.zipIdx.mergeSort comes).map (·.2) := by
    cases sense with
    | min => rfl
    | max => rfl
  have comes_iff : ∀ x y, comes x y = true ↔ sense.sign * y.1 ≤ sense.sign * x.1 := by
    intro x y
    rw [← Sense.atMost_iff_sign_mul_le]
    cases sense with
    | min => exact ascends_iff
    | max => exact ascends_iff
  have place : ∀ x ∈ f.zipIdx, f.getD x.2 0 = x.1 := by
    rintro ⟨x, i⟩ hx
    have := List.mem_zipIdx_iff_getElem?.1 hx
    simp [List.getD_eq_getElem?_getD, this]
  have sorted : (f.zipIdx.mergeSort comes).Pairwise fun x y => comes x y = true := by
    refine List.pairwise_mergeSort (fun x y z hxy hyz => ?_) (fun x y => ?_) _
    · rw [comes_iff] at hxy hyz ⊢
      exact hyz.trans hxy
    · rw [Bool.or_eq_true, comes_iff, comes_iff]
      exact le_total _ _
  have perm := List.mergeSort_perm f.zipIdx comes
  rw [sorted_eq]
  constructor
  · have := perm.map (·.2)
    rwa [List.zipIdx_map_snd, ← List.range_eq_range'] at this
  · refine List.pairwise_map.2 (sorted.imp_of_mem fun {x y} hx hy hxy => ?_)
    rw [place x (perm.mem_iff.1 hx), place y (perm.mem_iff.1 hy)]
    exact (comes_iff x y).1 hxy

/-- Without mass there is nothing to adjust. -/
theorem adjustTail_of_nonpos (level : ℚ) (sense : Sense) {p : List ℚ} (f : List ℚ)
    (h : Scalar.sum p ≤ 0) : adjustTail level sense p f = .ok (p.map fun _ => 0) := by
  unfold adjustTail
  rw [Scalar.sumInLanes_eq_sum]
  exact if_pos h

/-- The adjusted probabilities of a tail of a positive mass. -/
theorem exists_adjustTail {level : ℚ} (hpos : 0 < level) (hone : level ≤ 1) (sense : Sense)
    {p f : List ℚ} (hp : ∀ k < p.length, 0 ≤ p.getD k 0) (hf : f.length = p.length)
    (htotal : 0 < Scalar.sum p) :
    ∃ q, adjustTail level sense p f = .ok q ∧
      TailWeights level p q fun k => sense.sign * f.getD k 0 := by
  obtain ⟨perm, sorted⟩ := worstFirst_spec sense f
  rw [hf] at perm
  have inside : ∀ k, k ∈ worstFirst sense f ↔ k < p.length := fun k =>
    perm.mem_iff.trans List.mem_range
  obtain ⟨q, hrun, hlength, -, hbetween, hend⟩ := exists_collect hp htotal hpos
    (perm.nodup_iff.2 List.nodup_range) (fun k hk => (inside k).1 hk) sorted hpos
    (show (p.map fun _ => (0 : ℚ)).length = p.length from List.length_map _)
    (fun k _ => getD_map_zero p k)
  have sums : ((worstFirst sense f).map fun k => q.getD k 0).sum = entrySum p.length fun k =>
      q.getD k 0 :=
    (perm.map _).sum_eq
  have total := sum_eq_entrySum p
  have mass : entrySum p.length (fun k => q.getD k 0) * level / Scalar.sum p = level ∧
      ∃ t, (∀ k < p.length, t < sense.sign * f.getD k 0 → q.getD k 0 = p.getD k 0 / level) ∧
        ∀ k < p.length, sense.sign * f.getD k 0 < t → q.getD k 0 = 0 := by
    rw [sums, zero_add] at hend
    rcases hend with ⟨hreached, t, habove, hbelow, -⟩ | ⟨hshort, hall⟩
    · exact ⟨hreached, t, fun k hk => habove k ((inside k).2 hk),
        fun k hk => hbelow k ((inside k).2 hk)⟩
    · -- full shares everywhere add up to all of the mass, which reaches every level
      exfalso
      have : entrySum p.length (fun k => q.getD k 0) = 1 / level * Scalar.sum p := by
        rw [total, ← entrySum_mul]
        refine entrySum_congr fun k hk => ?_
        rw [hall k ((inside k).2 hk)]
        ring
      rw [this] at hshort
      have : 1 / level * Scalar.sum p * level / Scalar.sum p = 1 := by field_simp
      linarith
  refine ⟨q, ?_, hlength, fun k hk => (hbetween k ((inside k).2 hk)).1,
    fun k hk => (hbetween k ((inside k).2 hk)).2, ?_, mass.2⟩
  · unfold adjustTail
    rw [Scalar.sumInLanes_eq_sum]
    simp only
    rw [if_neg (not_le.2 htotal)]
    exact hrun
  · rw [← total]
    have := mass.1
    field_simp at this
    linarith

/-! ### The worst case -/

theorem worse_trans {sense : Sense} {a b c : Extended ℚ} (h : worse sense a b = true)
    (h' : worse sense b c = true) : worse sense a c = true := by
  cases sense <;> cases a <;> cases b <;> cases c <;>
    simp_all [worse, Extended.lt] <;> exact lt_trans ‹_› ‹_›

theorem worse_irrefl (sense : Sense) (a : Extended ℚ) : worse sense a a = false := by
  cases sense <;> cases a <;> simp [worse, Extended.lt]

/-- The first of the worst values of a list is one of its values, and none is worse. -/
theorem firstWorst_spec (sense : Sense) {values : List (Extended ℚ)} (h : values ≠ []) :
    ∃ v, values[firstWorst sense values]? = some v ∧ ∀ w ∈ values, worse sense v w = false := by
  have scan : ∀ (rest : List (Extended ℚ)) (start i : ℕ) (x : Extended ℚ) (k : ℕ) (y : Extended ℚ),
      (rest.zipIdx start).foldl
          (fun best e => if worse sense best.2 e.1 then (e.2, e.1) else best) (i, x) = (k, y) →
        ((k, y) = (i, x) ∨ start ≤ k ∧ rest[k - start]? = some y) ∧
          (∀ w, worse sense y w = true → worse sense x w = true) ∧
          ∀ w ∈ rest, worse sense y w = false := by
    intro rest
    induction rest with
    | nil =>
      intro start i x k y h
      cases h
      exact ⟨.inl rfl, fun w => id, by simp⟩
    | cons z rest ih =>
      intro start i x k y h
      rw [List.zipIdx_cons, List.foldl_cons] at h
      by_cases hz : worse sense x z = true
      · rw [if_pos hz] at h
        obtain ⟨hplace, hworse, hrest⟩ := ih (start + 1) start z k y h
        refine ⟨?_, fun w hw => worse_trans hz (hworse w hw), ?_⟩
        · rcases hplace with hk | ⟨hk, hget⟩
          · cases hk
            exact .inr ⟨le_rfl, by simp⟩
          · refine .inr ⟨by omega, ?_⟩
            rw [show k - start = k - (start + 1) + 1 by omega, List.getElem?_cons_succ, hget]
        · intro w hw
          rcases List.mem_cons.1 hw with rfl | hw
          · exact Bool.eq_false_iff.2 fun hyw =>
              Bool.eq_false_iff.1 (worse_irrefl sense w) (hworse w hyw)
          · exact hrest w hw
      · rw [if_neg hz] at h
        obtain ⟨hplace, hworse, hrest⟩ := ih (start + 1) i x k y h
        refine ⟨?_, hworse, ?_⟩
        · rcases hplace with hk | ⟨hk, hget⟩
          · exact .inl hk
          · refine .inr ⟨by omega, ?_⟩
            rw [show k - start = k - (start + 1) + 1 by omega, List.getElem?_cons_succ, hget]
        · intro w hw
          rcases List.mem_cons.1 hw with rfl | hw
          · exact Bool.eq_false_iff.2 fun hyw => hz (hworse w hyw)
          · exact hrest w hw
  cases values with
  | nil => exact absurd rfl h
  | cons v rest =>
    let last := (rest.zipIdx 1).foldl
      (fun best e => if worse sense best.2 e.1 then (e.2, e.1) else best) (0, v)
    obtain ⟨hplace, hworse, hrest⟩ := scan rest 1 0 v last.1 last.2 rfl
    refine ⟨last.2, ?_, fun w hw => ?_⟩
    · show (v :: rest)[last.1]? = some last.2
      rcases hplace with hk | ⟨hk, hget⟩
      · rw [show last.1 = 0 from congrArg (·.1) hk, show last.2 = v from congrArg (·.2) hk]
        rfl
      · rw [show last.1 = last.1 - 1 + 1 by omega, List.getElem?_cons_succ, hget]
    · rcases List.mem_cons.1 hw with rfl | hw
      · exact Bool.eq_false_iff.2 fun hyw =>
          Bool.eq_false_iff.1 (worse_irrefl sense w) (hworse w hyw)
      · exact hrest w hw

/-- Where nothing is possible there is nothing to adjust. -/
theorem adjustWorstCase_of_impossible (sense : Sense) {p : List ℚ} (f : List ℚ)
    (h : ¬∃ k < p.length, 0 < p.getD k 0) :
    adjustWorstCase sense p f = .ok (p.map fun _ => 0) := by
  have none : p.any (0 < ·) = false := by
    refine List.any_eq_false.2 fun a ha hpos => ?_
    obtain ⟨k, hk⟩ := List.getElem?_of_mem ha
    refine h ⟨k, (List.getElem?_eq_some_iff.1 hk).1, ?_⟩
    rw [List.getD_eq_getElem?_getD, hk]
    exact of_decide_eq_true hpos
  unfold adjustWorstCase
  simp only [none]
  rfl

/-- The adjusted probabilities of the worst case: all mass on a possible outcome that is at least as
bad as all other possible ones. -/
theorem exists_adjustWorstCase (sense : Sense) {p f : List ℚ} (hf : f.length = p.length)
    (hpossible : ∃ k < p.length, 0 < p.getD k 0) :
    ∃ worst < p.length, 0 < p.getD worst 0 ∧
      (∀ k < p.length, 0 < p.getD k 0 → sense.AtMost (f.getD k 0) (f.getD worst 0)) ∧
      adjustWorstCase sense p f = .ok ((p.map fun _ => 0).set worst (Scalar.sum p)) := by
  let best : Extended ℚ := if sense = .min then .negInf else .posInf
  let values := List.zipWith (fun p f => if 0 < p then Scalar.classify f else best) p f
  obtain ⟨k₀, hk₀, hpos₀⟩ := hpossible
  have value : ∀ k < p.length, values[k]? =
      some (if 0 < p.getD k 0 then .finite (f.getD k 0) else best) := by
    intro k hk
    have hkf : k < f.length := by omega
    simp [values, List.getD_eq_getElem?_getD, hk, hkf, Scalar.classify,
      Scalar.exact]
  have length : values.length = p.length := by
    simp [values, hf]
  have nonempty : values ≠ [] := fun h => by
    rw [h] at length
    exact absurd length.symm (by simp; rintro rfl; simp at hk₀)
  obtain ⟨v, hv, hworst⟩ := firstWorst_spec sense nonempty
  have hlt : firstWorst sense values < p.length := by
    rw [← length]
    exact (List.getElem?_eq_some_iff.1 hv).1
  have possible : ∀ k < p.length, 0 < p.getD k 0 →
      worse sense v (.finite (f.getD k 0)) = false := by
    intro k hk hpos
    refine hworst _ (List.mem_of_getElem? ((value k hk).trans ?_))
    rw [if_pos hpos]
  have own := value _ hlt
  rw [hv] at own
  -- an impossible outcome would be better than a possible one
  have hpos : 0 < p.getD (firstWorst sense values) 0 := by
    by_contra hnot
    rw [if_neg hnot] at own
    have := possible k₀ hk₀ hpos₀
    rw [Option.some.inj own] at this
    cases sense with
    | min => cases this
    | max => cases this
  rw [if_pos hpos] at own
  refine ⟨firstWorst sense values, hlt, hpos, fun k hk hposk => ?_, ?_⟩
  · have := possible k hk hposk
    rw [Option.some.inj own] at this
    cases sense with
    | min => exact not_lt.1 (of_decide_eq_false this)
    | max => exact not_lt.1 (of_decide_eq_false this)
  · have any : p.any (0 < ·) = true := by
      refine List.any_eq_true.2 ⟨p[k₀], List.getElem_mem hk₀, decide_eq_true ?_⟩
      rwa [List.getD_eq_getElem?_getD, List.getElem?_eq_getElem hk₀] at hpos₀
    unfold adjustWorstCase
    simp only [any, hf, Scalar.sumInLanes_eq_sum]
    rw [if_neg (by simp), if_neg (by simp)]
    cases sense with
    | min => rfl
    | max => rfl

end Measure

end Multistage
