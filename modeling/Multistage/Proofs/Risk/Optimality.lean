import Multistage.Proofs.Risk.Mass

/-!
# Adjusted probabilities are the worst that are admissible

A tail gives every outcome at most its scaled probability, the worst case moves probability between
possible outcomes as it likes, and both keep the mass. Neither looks at other weights: the tail
collects from the worst outcome on, and the worst case takes the first of the worst outcomes. All
the same no other weights that are admissible weigh the outcomes worse.

The reason is the same for both. A threshold splits the outcomes, the adjusted probabilities take
all there is to take above it, and the value of any admissible weights is at most that of the
threshold and the excess over it.

## Main definitions

- `Measure.IsWorst`: weights that are admissible, and no admissible ones have a worse mean.

## Main statements

- `Measure.TailWeights.isWorst`: weights that are full above a threshold and zero below it.
- `Measure.exists_worstCase`: the worst case, whose value is the mass times a bound of the
  objectives.
- `Measure.adjust_isWorst`: the adjusted probabilities of the tail and of the worst case.
-/

namespace Multistage

namespace Measure

/-- The weights are admissible, and the mean of the objectives under any admissible weights is at
most as bad: it is no greater when minimising and no less when maximising. -/
structure IsWorst (sense : Sense) (Admissible : List ℚ → Prop) (f q : List ℚ) : Prop where
  admissible : Admissible q
  atMost : ∀ q', Admissible q' → sense.AtMost (Scalar.dot q' f) (Scalar.dot q f)

/-- The more weights are admissible, the worse is the mean of the worst of them. -/
theorem IsWorst.atMost_of_imp {sense : Sense} {Few Many : List ℚ → Prop} {f q q' : List ℚ}
    (hq : IsWorst sense Few f q) (hq' : IsWorst sense Many f q') (h : ∀ q, Few q → Many q) :
    sense.AtMost (Scalar.dot q f) (Scalar.dot q' f) :=
  hq'.atMost q (h q hq.admissible)

/-- The weights that are full above a threshold of the objectives are the worst below the scaled
probabilities. -/
theorem TailWeights.isWorst {level : ℚ} {sense : Sense} {p f q : List ℚ}
    (h : TailWeights level p q fun k => sense.sign * f.getD k 0) (hf : f.length = p.length) :
    IsWorst sense (Shares level p) f q := by
  refine ⟨h.shares, fun q' hq' => ?_⟩
  obtain ⟨t, ht⟩ := h.exists_sum_eq
  have below := hq'.sum_le (fun k => sense.sign * f.getD k 0) t
  rw [← ht] at below
  rwa [Sense.atMost_iff_sign_mul_le, mul_dot_eq_entrySum hq'.length_eq hf,
    mul_dot_eq_entrySum h.length_eq hf]

/-- Weights of possible outcomes have at most the mean that a bound of the possible objectives
has. -/
theorem Spreads.mul_dot_le {a s t : ℚ} {p f q : List ℚ} (h : Spreads a p q) (hp : ∀ a ∈ p, 0 ≤ a)
    (hf : f.length = p.length) (ht : ∀ k < p.length, 0 < p.getD k 0 → s * f.getD k 0 ≤ t) :
    s * Scalar.dot q f ≤ t * q.sum := by
  rw [mul_dot_eq_entrySum h.length_eq hf, ← entrySum_getD h.length_eq, ← entrySum_mul]
  apply entrySum_le
  intro k hk
  by_cases hpos : 0 < p.getD k 0
  · rw [mul_comm t]
    exact mul_le_mul_of_nonneg_left (ht k hk hpos) (getD_nonneg h.nonneg k)
  · have none : p.getD k 0 = 0 := le_antisymm (not_lt.1 hpos) (getD_nonneg hp k)
    rw [h.impossible k none, zero_mul, mul_zero]

/-- The worst case gives possible outcomes the mean of a bound of the possible objectives. -/
theorem exists_worstCase (sense : Sense) {p f : List ℚ} (hp : ∀ a ∈ p, 0 ≤ a)
    (hf : f.length = p.length) :
    ∃ q t, worstCase.adjust sense p f = .ok q ∧ Spreads 1 p q ∧
      (∀ k < p.length, 0 < p.getD k 0 → sense.sign * f.getD k 0 ≤ t) ∧
        sense.sign * Scalar.dot q f = t * q.sum := by
  obtain ⟨q, hrun, hq⟩ := conserves_worstCase sense p f hp hf
  rw [massFactor] at hq
  by_cases hpossible : ∃ k < p.length, 0 < p.getD k 0
  · obtain ⟨worst, hlt, -, hworst, hrun'⟩ := exists_adjustWorstCase sense hf hpossible
    refine ⟨q, sense.sign * f.getD worst 0, hrun, hq,
      fun k hk hpos => Sense.atMost_iff_sign_mul_le.1 (hworst k hk hpos), ?_⟩
    rw [hq.sum_eq]
    cases hrun.symm.trans hrun'
    rw [dot_single hlt hf, Scalar.sum_eq_listSum]
    ring
  · refine ⟨q, 0, hrun, hq, fun k hk hpos => absurd ⟨k, hk, hpos⟩ hpossible, ?_⟩
    cases hrun.symm.trans (adjustWorstCase_of_impossible sense f hpossible)
    rw [dot_zeros hf, mul_zero, zero_mul]

theorem exists_isWorst_tail {level : ℚ} (hpos : 0 < level) (hone : level ≤ 1) (sense : Sense)
    {p f : List ℚ} (hp : ∀ a ∈ p, 0 ≤ a) (hf : f.length = p.length) :
    ∃ q, (tail level).adjust sense p f = .ok q ∧ IsWorst sense (Shares level p) f q := by
  obtain ⟨q, hrun, hq⟩ := exists_tailWeights hpos hone sense hp hf
  exact ⟨q, hrun, hq.isWorst hf⟩

theorem exists_isWorst_worstCase (sense : Sense) {p f : List ℚ} (hp : ∀ a ∈ p, 0 ≤ a)
    (hf : f.length = p.length) :
    ∃ q, worstCase.adjust sense p f = .ok q ∧ IsWorst sense (Spreads 1 p) f q := by
  obtain ⟨q, t, hrun, hq, hbound, hmean⟩ := exists_worstCase sense hp hf
  refine ⟨q, hrun, hq, fun q' hq' => ?_⟩
  rw [Sense.atMost_iff_sign_mul_le, hmean, hq.sum_eq, ← hq'.sum_eq]
  exact hq'.mul_dot_le hp hf hbound

/-- **Collecting from the worst outcome on is optimal.** For a level in `(0, 1]`, probabilities that
are not negative and as many objectives, in either sense, the tail has adjusted probabilities. They
are between zero and the probabilities divided by the level and have the same mass, and of all
weights with these properties they have the worst mean, the greatest when minimising and the least
when maximising. The worst case has adjusted probabilities as well, which are the worst of all
weights of the same mass that are not negative and leave out impossible outcomes. -/
theorem adjust_isWorst {level : ℚ} (hpos : 0 < level) (hone : level ≤ 1) (sense : Sense)
    {p f : List ℚ} (hp : ∀ a ∈ p, 0 ≤ a) (hf : f.length = p.length) :
    (∃ q, (tail level).adjust sense p f = .ok q ∧ IsWorst sense (Shares level p) f q) ∧
      ∃ q, worstCase.adjust sense p f = .ok q ∧ IsWorst sense (Spreads 1 p) f q :=
  ⟨exists_isWorst_tail hpos hone sense hp hf, exists_isWorst_worstCase sense hp hf⟩

/-- Of a mass of three quarters the worse half is collected: the worst outcome is impossible and
gets nothing, and of two equal ones the first is full and the second takes what is missing. -/
theorem adjust_isWorst_of_tie :
    (tail (1 / 2)).adjust .min [1 / 4, 0, 1 / 2] [3, 9, 3] = .ok ([1 / 2, 0, 1 / 4] : List ℚ) ∧
      IsWorst .min (Shares (1 / 2) [1 / 4, 0, 1 / 2]) [3, 9, 3] [1 / 2, 0, 1 / 4] ∧
      worstCase.adjust .min [1 / 4, 0, 1 / 2] [3, 9, 3] = .ok ([3 / 4, 0, 0] : List ℚ) ∧
      IsWorst .min (Spreads 1 [1 / 4, 0, 1 / 2]) [3, 9, 3] [3 / 4, 0, 0] := by
  have order : worstFirst .min [(3 : ℚ), 9, 3] = [1, 0, 2] := by
    norm_num [worstFirst, ascends, List.mergeSort, List.MergeSort.Internal.splitInTwo, List.merge]
  have htail : (tail (1 / 2)).adjust .min [1 / 4, 0, 1 / 2] [3, 9, 3] =
      .ok ([1 / 2, 0, 1 / 4] : List ℚ) := by
    apply Except.eq_ok_of_toOption
    simp only [adjust, adjustTail, order]
    decide +kernel
  have hworst : worstCase.adjust .min [1 / 4, 0, 1 / 2] [3, 9, 3] =
      .ok ([3 / 4, 0, 0] : List ℚ) := Except.eq_ok_of_toOption (by decide +kernel)
  obtain ⟨⟨q, hq, hqworst⟩, r, hr, hrworst⟩ := adjust_isWorst (show (0 : ℚ) < 1 / 2 by norm_num)
    (by norm_num) .min (p := [1 / 4, 0, 1 / 2]) (f := [3, 9, 3]) (by norm_num) rfl
  cases htail.symm.trans hq
  cases hworst.symm.trans hr
  exact ⟨htail, hqworst, hworst, hrworst⟩

end Measure

end Multistage
