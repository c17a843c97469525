import Multistage.Proofs.Risk.Laws
import Multistage.Proofs.Risk.Optimality

/-!
# Tails between the expectation and the worst case

The smaller the level of a tail, the more an outcome may be given, so that tails of falling levels
lead from the expectation to the worst case. Two tails stop at different outcomes and split
different ones, and the worst case takes one outcome where a tail takes all of the worst ones. They
are compared by what they may give: what is admissible for one level is admissible for every smaller
one.

## Main definitions

- `Measure.massAt`: the probability of the outcomes with a given objective.
- `Measure.WorstPossible`: the worst objective of possible outcomes.
- `Measure.concentrated`: all mass on the outcomes with a given objective, in their proportions.

## Main statements

- `Measure.Shares.eq_of_one`: a tail of the level one keeps the probabilities.
- `Measure.Shares.of_le`: weights for a level are weights for every smaller level.
- `Measure.shares_concentrated`: a level that is no more than the probability of an objective allows
  to put all mass there.
- `Measure.value_tail_between`: tails are ordered by their levels, between expectation and worst
  case.
-/

namespace Multistage

namespace Measure

variable {sense : Sense} {level : ℚ} {p f q : List ℚ} {v : ℚ}

/-! ### Levels -/

/-- What a tail of the level one may give is the probabilities themselves. -/
theorem Shares.eq_of_one (h : Shares 1 p q) : q = p := by
  have below : ∀ k < p.length, 0 ≤ p.getD k 0 + -1 * q.getD k 0 := by
    intro k hk
    have share := h.le_share k hk
    rw [div_one] at share
    linarith
  have missing : entrySum p.length (fun k => p.getD k 0 + -1 * q.getD k 0) = 0 := by
    rw [entrySum_add, entrySum_mul, entrySum_getD rfl, entrySum_getD h.length_eq, h.sum_eq]
    ring
  apply List.ext_getElem h.length_eq
  intro k hkq hk
  have none := le_entrySum hk below
  rw [missing] at none
  have equal : q.getD k 0 = p.getD k 0 := by linarith [below k hk]
  simpa [List.getD_eq_getElem?_getD, hkq, hk] using equal

/-- What is admissible for a level is admissible for every smaller one. -/
theorem Shares.of_le {small : ℚ} (h : Shares level p q) (hp : ∀ a ∈ p, 0 ≤ a) (hpos : 0 < small)
    (hle : small ≤ level) : Shares small p q :=
  ⟨h.length_eq, h.nonneg,
    fun k hk => (h.le_share k hk).trans
      (div_le_div_of_nonneg_left (getD_nonneg hp k) hpos hle), h.sum_eq⟩

/-! ### The worst objective -/

/-- The probability of the outcomes with a given objective. -/
def massAt (p f : List ℚ) (v : ℚ) : ℚ :=
  entrySum p.length fun k => if f.getD k 0 = v then p.getD k 0 else 0

/-- A possible outcome has the objective, and no possible outcome has a worse one. -/
structure WorstPossible (sense : Sense) (p f : List ℚ) (v : ℚ) : Prop where
  attained : ∃ k < p.length, 0 < p.getD k 0 ∧ f.getD k 0 = v
  atMost : ∀ k < p.length, 0 < p.getD k 0 → sense.AtMost (f.getD k 0) v

theorem WorstPossible.unique {w : ℚ} (hv : WorstPossible sense p f v)
    (hw : WorstPossible sense p f w) :
    v = w := by
  obtain ⟨i, hi, hposi, rfl⟩ := hv.attained
  obtain ⟨j, hj, hposj, rfl⟩ := hw.attained
  exact (hw.atMost i hi hposi).antisymm (hv.atMost j hj hposj)

theorem exists_worstPossible (sense : Sense) (hf : f.length = p.length) (hmass : 0 < p.sum) :
    ∃ v, WorstPossible sense p f v := by
  have possible : ∃ k < p.length, 0 < p.getD k 0 := by
    by_contra hnone
    have below : p.sum ≤ entrySum p.length fun _ => 0 := by
      rw [← entrySum_getD rfl]
      exact entrySum_le fun k hk => not_lt.1 fun hpos => hnone ⟨k, hk, hpos⟩
    exact absurd hmass (not_lt.2 (below.trans (by simp [entrySum])))
  obtain ⟨worst, hlt, hpos, hworst, -⟩ := exists_adjustWorstCase sense hf possible
  exact ⟨f.getD worst 0, ⟨worst, hlt, hpos, rfl⟩, hworst⟩

theorem massAt_le_sum (hp : ∀ a ∈ p, 0 ≤ a) : massAt p f v ≤ p.sum := by
  rw [← entrySum_getD rfl]
  apply entrySum_le
  intro k _
  split
  · exact le_rfl
  · exact getD_nonneg hp k

/-- All mass on the outcomes with an objective, in proportion to their probabilities. -/
def concentrated (p f : List ℚ) (v : ℚ) : List ℚ :=
  List.zipWith (fun a x => if x = v then a * (p.sum / massAt p f v) else 0) p f

theorem length_concentrated (hf : f.length = p.length) :
    (concentrated p f v).length = p.length := by
  simp [concentrated, hf]

theorem getD_concentrated (hf : f.length = p.length) {k : ℕ} (hk : k < p.length) :
    (concentrated p f v).getD k 0 =
      p.sum / massAt p f v * if f.getD k 0 = v then p.getD k 0 else 0 := by
  have hkf : k < f.length := by omega
  simp [concentrated, List.getD_eq_getElem?_getD, hk, hkf, mul_comm]

/-- A level that is no more than the part of the mass that an objective has allows to put all of the
mass there. -/
theorem shares_concentrated (hp : ∀ a ∈ p, 0 ≤ a) (hf : f.length = p.length) (hmass : 0 < p.sum)
    (hpos : 0 < level) (hle : level ≤ massAt p f v / p.sum) :
    Shares level p (concentrated p f v) := by
  have within := (le_div_iff₀ hmass).1 hle
  have some : 0 < massAt p f v := (mul_pos hpos hmass).trans_le within
  have factor : p.sum / massAt p f v ≤ 1 / level := by
    rw [div_le_div_iff₀ some hpos]
    linarith
  have ratio : 0 ≤ p.sum / massAt p f v := (div_pos hmass some).le
  have entry := fun k hk => getD_concentrated (v := v) hf (k := k) hk
  refine ⟨length_concentrated hf, fun k hk => ?_, fun k hk => ?_, ?_⟩
  · rw [entry k hk]
    split
    · exact mul_nonneg ratio (getD_nonneg hp k)
    · rw [mul_zero]
  · rw [entry k hk]
    split
    · rw [div_eq_mul_one_div (p.getD k 0), mul_comm]
      exact mul_le_mul_of_nonneg_left factor (getD_nonneg hp k)
    · rw [mul_zero]
      exact div_nonneg (getD_nonneg hp k) hpos.le
  · rw [← entrySum_getD (length_concentrated hf), entrySum_congr entry, entrySum_mul]
    exact div_mul_cancel₀ p.sum some.ne'

/-- The mean under weights that are only where an objective is. -/
theorem dot_concentrated (hf : f.length = p.length) :
    Scalar.dot (concentrated p f v) f = v * (concentrated p f v).sum := by
  rw [dot_eq_entrySum (length_concentrated hf) hf, ← entrySum_getD (length_concentrated hf),
    ← entrySum_mul]
  apply entrySum_congr
  intro k hk
  rw [getD_concentrated hf hk]
  by_cases hv : f.getD k 0 = v
  · rw [if_pos hv, hv, mul_comm]
  · simp only [if_neg hv, mul_zero, zero_mul]

/-! ### Values -/

theorem value_of_adjust {m : Measure ℚ} (h : m.adjust sense p f = .ok q) :
    m.value sense p f = .ok (Scalar.dot q f) := by
  rw [value, h]
  rfl

/-- The value of a mixture of expectation and tail is the mixture of the values. -/
theorem value_weightedTail {weight : ℚ} (hq : (tail level).adjust sense p f = .ok q)
    (hlength : q.length = p.length) (hf : f.length = p.length) :
    (weightedTail weight level).value sense p f =
      .ok (weight * Scalar.dot p f + (1 - weight) * Scalar.dot q f) := by
  have htail : adjustTail level sense p f = .ok q := hq
  have run : (weightedTail weight level).adjust sense p f =
      .ok (addScaled (1 - weight) (addScaled weight (p.map fun _ => 0) p) q) := by
    simp only [adjust, htail]
    rfl
  have zeros : (p.map fun _ => (0 : ℚ)).length = p.length := List.length_map _
  rw [value_of_adjust run, dot_addScaled (length_addScaled zeros rfl) hlength hf,
    dot_addScaled zeros rfl hf, dot_zeros hf, zero_add]

/-- Below the probability of the worst objective a tail reaches the worst case. -/
theorem value_tail_eq_worstCase {w : List ℚ} (hpf : Weighed p f) (hmass : 0 < p.sum)
    (hv : WorstPossible sense p f v) (hw : IsWorst sense (Spreads 1 p) f w) (hpos : 0 < level)
    (hle : level ≤ massAt p f v / p.sum) :
    (tail level).value sense p f = .ok (Scalar.dot w f) := by
  have hone : level ≤ 1 := hle.trans (div_le_one_of_le₀ (massAt_le_sum hpf.nonneg) hmass.le)
  obtain ⟨q, hrun, hq⟩ := exists_isWorst_tail hpos hone sense hpf.nonneg hpf.length_eq
  have reached := shares_concentrated hpf.nonneg hpf.length_eq hmass hpos hle
  -- the worst case is no worse than the worst objective, and the tail no better than its outcomes
  have bound : sense.AtMost (Scalar.dot w f) (Scalar.dot (concentrated p f v) f) := by
    have below := hw.admissible.mul_dot_le hpf.nonneg hpf.length_eq
      fun k hk hposk => Sense.atMost_iff_sign_mul_le.1 (hv.atMost k hk hposk)
    rw [Sense.atMost_iff_sign_mul_le, dot_concentrated hpf.length_eq, reached.spreads.sum_eq,
      ← hw.admissible.sum_eq, ← mul_assoc]
    exact below
  rw [value_of_adjust hrun]
  exact congrArg _ ((hq.atMost_of_imp hw fun _ h => h.spreads).antisymm
    (bound.trans (hq.atMost _ reached)))

/-- **Tails are between the expectation and the worst case.** Let the probabilities not be negative,
some of them positive, and let there be as many objectives. In either sense the tail of the level
one has the value of the expectation, a tail of a smaller level is at least as bad as one of a
greater level, and the worst case is at least as bad as every tail. A tail whose level is at most
the part of the mass that the worst objective of possible outcomes has is as bad as the worst case.
The value of a mixture of expectation and tail is the mixture of their values. -/
theorem value_tail_between {small great : ℚ} (hpos : 0 < small) (hle : small ≤ great)
    (hone : great ≤ 1) (sense : Sense) (hpf : Weighed p f) (hmass : 0 < p.sum) :
    ∃ mean above below worst v,
      expectation.value sense p f = .ok mean ∧ (tail 1).value sense p f = .ok mean ∧
      (tail great).value sense p f = .ok above ∧ (tail small).value sense p f = .ok below ∧
      worstCase.value sense p f = .ok worst ∧
      sense.AtMost mean above ∧ sense.AtMost above below ∧ sense.AtMost below worst ∧
      WorstPossible sense p f v ∧
      (∀ level, 0 < level → level ≤ massAt p f v / p.sum →
        (tail level).value sense p f = .ok worst) ∧
      ∀ weight level, 0 < level → level ≤ 1 → ∃ t, (tail level).value sense p f = .ok t ∧
        (weightedTail weight level).value sense p f = .ok (weight * mean + (1 - weight) * t) := by
  have hp := hpf.nonneg
  have hf := hpf.length_eq
  obtain ⟨q₁, hrun₁, hq₁⟩ := exists_isWorst_tail one_pos le_rfl sense hp hf
  obtain ⟨qg, hrung, hqg⟩ := exists_isWorst_tail (hpos.trans_le hle) hone sense hp hf
  obtain ⟨qs, hruns, hqs⟩ := exists_isWorst_tail hpos (hle.trans hone) sense hp hf
  obtain ⟨w, hrunw, hw⟩ := exists_isWorst_worstCase sense hp hf
  obtain ⟨v, hv⟩ := exists_worstPossible sense hf hmass
  cases hq₁.admissible.eq_of_one
  refine ⟨_, _, _, _, v, value_of_adjust rfl, value_of_adjust hrun₁, value_of_adjust hrung,
    value_of_adjust hruns, value_of_adjust hrunw,
    hq₁.atMost_of_imp hqg fun _ h => h.of_le hp (hpos.trans_le hle) hone,
    hqg.atMost_of_imp hqs fun _ h => h.of_le hp hpos hle,
    hqs.atMost_of_imp hw fun _ h => h.spreads, hv,
    fun level hlevel hbound => value_tail_eq_worstCase hpf hmass hv hw hlevel hbound, ?_⟩
  intro weight level hlevel hlevel_one
  obtain ⟨q, hrun, hq⟩ := exists_isWorst_tail hlevel hlevel_one sense hp hf
  exact ⟨_, value_of_adjust hrun, value_weightedTail hrun hq.admissible.length_eq hf⟩

/-- Two outcomes share the worst objective of possible ones and have a third of the mass together.
The tail of half of the mass takes part of a better outcome, that of a third is as bad as the worst
case. -/
theorem value_tail_between_of_tie :
    WorstPossible .min [1 / 8, 0, 1 / 2, 1 / 8] [4, 9, 1, 4] 4 ∧
      expectation.value .min [1 / 8, 0, 1 / 2, 1 / 8] [4, 9, 1, 4] = .ok (3 / 2) ∧
      (tail 1).value .min [1 / 8, 0, 1 / 2, 1 / 8] [4, 9, 1, 4] = .ok (3 / 2) ∧
      (tail (1 / 2)).value .min [1 / 8, 0, 1 / 2, 1 / 8] [4, 9, 1, 4] = .ok (9 / 4) ∧
      (tail (1 / 3)).value .min [1 / 8, 0, 1 / 2, 1 / 8] [4, 9, 1, 4] = .ok 3 ∧
      worstCase.value .min [1 / 8, 0, 1 / 2, 1 / 8] [4, 9, 1, 4] = .ok 3 := by
  have order : worstFirst .min [(4 : ℚ), 9, 1, 4] = [1, 0, 3, 2] := by
    norm_num [worstFirst, ascends, List.mergeSort, List.MergeSort.Internal.splitInTwo, List.merge]
  have hmean : expectation.value .min [1 / 8, 0, 1 / 2, 1 / 8] [4, 9, 1, 4] = .ok (3 / 2) :=
    Except.eq_ok_of_toOption (by decide +kernel)
  have hhalf : (tail (1 / 2)).value .min [1 / 8, 0, 1 / 2, 1 / 8] [4, 9, 1, 4] = .ok (9 / 4) := by
    apply Except.eq_ok_of_toOption
    simp only [value, adjust, adjustTail, order]
    decide +kernel
  have hworst : worstCase.value .min [1 / 8, 0, 1 / 2, 1 / 8] [4, 9, 1, 4] = .ok 3 :=
    Except.eq_ok_of_toOption (by decide +kernel)
  have hfour : WorstPossible .min [1 / 8, 0, 1 / 2, 1 / 8] [4, 9, 1, 4] 4 := by
    refine ⟨⟨0, by decide, by norm_num, rfl⟩, ?_⟩
    show ∀ k < 4, 0 < ([1 / 8, 0, 1 / 2, 1 / 8] : List ℚ).getD k 0 →
        ([4, 9, 1, 4] : List ℚ).getD k 0 ≤ 4
    decide +kernel
  obtain ⟨mean, above, below, worst, v, hm, hone, -, -, hw, -, -, -, hv, hreached, -⟩ :=
    value_tail_between (show (0 : ℚ) < 1 / 3 by norm_num) (show (1 / 3 : ℚ) ≤ 1 / 2 by norm_num)
      (by norm_num) .min (p := [1 / 8, 0, 1 / 2, 1 / 8]) (f := [4, 9, 1, 4]) ⟨by norm_num, rfl⟩
      (by norm_num)
  cases hmean.symm.trans hm
  cases hworst.symm.trans hw
  cases hv.unique hfour
  have third : (1 / 3 : ℚ) =
      massAt [1 / 8, 0, 1 / 2, 1 / 8] [4, 9, 1, 4] 4 / [1 / 8, 0, 1 / 2, 1 / 8].sum := by
        decide +kernel
  exact ⟨hfour, hmean, hone, hhalf, hreached (1 / 3) (by norm_num) third.le, hworst⟩

end Measure

end Multistage
