import Mathlib.Algebra.BigOperators.Ring.List
import Mathlib.Algebra.Order.Field.Rat
import Mathlib.Data.List.GetD
import Mathlib.Tactic.Ring
import Multistage.Proofs.Risk.Coherent
import Multistage.Proofs.Sums

/-!
# The mass of adjusted probabilities

A measure moves probability, it does not make or lose any: expectation, worst case, tail and the
mixture of expectation and tail keep the mass of the probabilities, and a weighted sum multiplies it
by the weighted sum of the factors of its terms. No probability is moved to an impossible outcome.

## Main definitions

- `Measure.massFactor`: the factor by which a measure multiplies the mass.
- `Measure.weighted`: the terms that a measure contributes to a sum.
- `Measure.Spreads`: weights that have a multiple of the mass and leave out what is impossible.

## Main statements

- `Measure.massFactor_of_scale`, `Measure.massFactor_of_join`: the factors of multiples and sums.
- `Measure.Built.spreads_adjust`: what every measure that can be built does to the mass.
-/

namespace Multistage

namespace Measure

mutual

/-- The factor by which a measure multiplies the mass. -/
def massFactor : Measure ℚ → ℚ
  | expectation => 1
  | worstCase => 1
  | tail _ => 1
  | mixture terms => termsFactor terms
  | weightedTail _ _ => 1

/-- The weighted sum of the factors of the terms of a weighted sum. -/
def termsFactor : List (ℚ × Measure ℚ) → ℚ
  | [] => 0
  | (weight, m) :: rest => weight * massFactor m + termsFactor rest

end

theorem termsFactor_append (terms terms' : List (ℚ × Measure ℚ)) :
    termsFactor (terms ++ terms') = termsFactor terms + termsFactor terms' := by
  induction terms with
  | nil => exact (zero_add _).symm
  | cons t rest ih =>
    obtain ⟨weight, m⟩ := t
    rw [List.cons_append, termsFactor, termsFactor, ih, add_assoc]

/-- Weights of outcomes with given probabilities: none is negative, what is impossible has none, and
together they have a multiple of the mass. -/
structure Spreads (factor : ℚ) (p q : List ℚ) : Prop where
  length_eq : q.length = p.length
  nonneg : ∀ a ∈ q, 0 ≤ a
  impossible : ∀ k, p.getD k 0 = 0 → q.getD k 0 = 0
  sum_eq : q.sum = factor * p.sum

/-- For all outcomes there are adjusted probabilities, with the mass that the factor says. -/
def Conserves (m : Measure ℚ) : Prop :=
  ∀ (sense : Sense) (p f : List ℚ), (∀ a ∈ p, 0 ≤ a) → f.length = p.length →
    ∃ q, m.adjust sense p f = .ok q ∧ Spreads m.massFactor p q

section Spreads

variable {p q r : List ℚ} {a b : ℚ}

theorem Spreads.self (hp : ∀ a ∈ p, 0 ≤ a) : Spreads 1 p p :=
  ⟨rfl, hp, fun _ h => h, (one_mul _).symm⟩

theorem sum_zeros (p : List ℚ) : (p.map fun _ => (0 : ℚ)).sum = 0 := by simp

theorem Spreads.zeros (p : List ℚ) : Spreads 0 p (p.map fun _ => 0) :=
  ⟨List.length_map _, zeros_nonneg p, fun k _ => getD_map_zero p k, by rw [sum_zeros, zero_mul]⟩

/-- Without mass every factor is right. -/
theorem Spreads.of_sum_eq_zero (h : Spreads a p q) (hp : p.sum = 0) (b : ℚ) : Spreads b p q :=
  ⟨h.length_eq, h.nonneg, h.impossible, by rw [h.sum_eq, hp, mul_zero, mul_zero]⟩

/-- Adding a multiple of weights adds the multiple of their factor. -/
theorem Spreads.addScaled {weight : ℚ} (hq : Spreads a p q) (hr : Spreads b p r)
    (hweight : 0 ≤ weight) : Spreads (a + weight * b) p (addScaled weight q r) := by
  have length : (Measure.addScaled weight q r).length = p.length :=
    length_addScaled hq.length_eq hr.length_eq
  have entry : ∀ k < p.length,
      (Measure.addScaled weight q r).getD k 0 = q.getD k 0 + weight * r.getD k 0 :=
    fun k hk => getD_addScaled hq.length_eq hr.length_eq hk
  refine ⟨length, nonneg_of_getD length fun k hk => ?_, fun k hk => ?_, ?_⟩
  · rw [entry k hk]
    exact add_nonneg (getD_nonneg hq.nonneg k) (mul_nonneg hweight (getD_nonneg hr.nonneg k))
  · by_cases hlt : k < p.length
    · rw [entry k hlt, hq.impossible k hk, hr.impossible k hk, mul_zero, add_zero]
    · exact List.getD_eq_default _ _ (by omega)
  · rw [← entrySum_getD length, entrySum_congr entry, entrySum_add, entrySum_mul,
      entrySum_getD hq.length_eq, entrySum_getD hr.length_eq, hq.sum_eq, hr.sum_eq]
    ring

end Spreads

/-! ### Elementary measures -/

theorem conserves_expectation : Conserves expectation := fun _ p _ hp _ => ⟨p, rfl, .self hp⟩

/-- The worst case moves all of the mass to a possible outcome. -/
theorem conserves_worstCase : Conserves worstCase := by
  intro sense p f hp hf
  by_cases hpossible : ∃ k < p.length, 0 < p.getD k 0
  · obtain ⟨worst, hlt, hpos, -, hrun⟩ := exists_adjustWorstCase sense hf hpossible
    have inside : worst < (p.map fun _ => (0 : ℚ)).length := by rwa [List.length_map]
    have length : ((p.map fun _ => (0 : ℚ)).set worst (Scalar.sum p)).length = p.length := by
      rw [List.length_set, List.length_map]
    have entry : ∀ k, ((p.map fun _ => (0 : ℚ)).set worst (Scalar.sum p)).getD k 0 =
        if k = worst then Scalar.sum p else 0 := fun k => by rw [getD_set inside, getD_map_zero]
    refine ⟨_, hrun, length, nonneg_of_getD length fun k _ => ?_, fun k hk => ?_, ?_⟩
    · rw [entry]
      split
      · rw [Scalar.sum_eq_listSum]
        exact List.sum_nonneg hp
      · exact le_rfl
    · rw [entry, if_neg]
      rintro rfl
      exact absurd hk hpos.ne'
    · rw [← entrySum_getD length, entrySum_single hlt, entry, if_pos rfl, Scalar.sum_eq_listSum]
      · exact (one_mul _).symm
      · intro k _ hk
        rw [entry, if_neg hk]
  · refine ⟨_, adjustWorstCase_of_impossible sense f hpossible,
      (Spreads.zeros p).of_sum_eq_zero ?_ 1⟩
    rw [← entrySum_getD rfl, entrySum_congr (g := fun _ => 0) fun k hk => ?_]
    · simp [entrySum]
    · exact le_antisymm (not_lt.1 fun hpos => hpossible ⟨k, hk, hpos⟩) (getD_nonneg hp k)

/-- Weights below the scaled probabilities leave out what is impossible. -/
theorem Shares.spreads {level : ℚ} {p q : List ℚ} (h : Shares level p q) : Spreads 1 p q := by
  refine ⟨h.length_eq, nonneg_of_getD h.length_eq h.nonneg, fun k hk => ?_, ?_⟩
  · by_cases hlt : k < p.length
    · have share := h.le_share k hlt
      rw [hk, zero_div] at share
      exact le_antisymm share (h.nonneg k hlt)
    · exact List.getD_eq_default _ _ (by rw [h.length_eq]; omega)
  · rw [h.sum_eq, one_mul]

/-- A tail collects its level of the mass and scales it to all of the mass. -/
theorem conserves_tail {level : ℚ} (hpos : 0 < level) (hone : level ≤ 1) :
    Conserves (tail level) := by
  intro sense p f hp hf
  obtain ⟨q, hrun, hq⟩ := exists_tailWeights hpos hone sense hp hf
  exact ⟨q, hrun, hq.shares.spreads⟩

/-! ### Weighted sums -/

/-- Every term adds its weighted factor. -/
theorem exists_spreads_adjustTerms (sense : Sense) {p f : List ℚ} (hp : ∀ a ∈ p, 0 ≤ a)
    (hf : f.length = p.length) {terms : List (ℚ × Measure ℚ)}
    (hterms : ∀ t ∈ terms, 0 ≤ t.1 ∧ Conserves t.2) {factor : ℚ} {sum : List ℚ}
    (hsum : Spreads factor p sum) :
    ∃ q, adjustTerms sense p f terms sum = .ok q ∧ Spreads (factor + termsFactor terms) p q := by
  induction terms generalizing factor sum with
  | nil => exact ⟨sum, rfl, by rwa [termsFactor, add_zero]⟩
  | cons t rest ih =>
    obtain ⟨weight, m⟩ := t
    obtain ⟨hweight, hm⟩ := hterms _ List.mem_cons_self
    obtain ⟨r, hr, hspread⟩ := hm sense p f hp hf
    obtain ⟨q, hq, hrest⟩ := ih (fun t ht => hterms t (List.mem_cons_of_mem _ ht))
      (hsum.addScaled hspread hweight)
    refine ⟨q, ?_, ?_⟩
    · rw [adjustTerms, hr]
      exact hq
    · rwa [termsFactor, ← add_assoc]

theorem conserves_mixture {terms : List (ℚ × Measure ℚ)}
    (hterms : ∀ t ∈ terms, 0 ≤ t.1 ∧ Conserves t.2) : Conserves (mixture terms) := by
  intro sense p f hp hf
  obtain ⟨q, hrun, hq⟩ := exists_spreads_adjustTerms sense hp hf hterms (.zeros p)
  rw [zero_add] at hq
  exact ⟨q, hrun, hq⟩

theorem conserves_weightedTail {weight level : ℚ} (hweight : 0 ≤ weight) (hone : weight ≤ 1)
    (h : Conserves (tail level)) : Conserves (weightedTail weight level) := by
  intro sense p f hp hf
  have terms : Conserves (mixture [(weight, expectation), (1 - weight, tail level)]) := by
    refine conserves_mixture fun t ht => ?_
    rcases List.mem_cons.1 ht with rfl | ht
    · exact ⟨hweight, conserves_expectation⟩
    · rw [List.mem_singleton.1 ht]
      exact ⟨sub_nonneg.2 hone, h⟩
  -- the two weights add up to one
  have factor : massFactor (mixture [(weight, expectation), (1 - weight, tail level)]) = 1 := by
    simp only [massFactor, termsFactor]
    ring
  rw [adjust_weightedTail]
  obtain ⟨q, hrun, hq⟩ := terms sense p f hp hf
  rw [factor] at hq
  exact ⟨q, hrun, hq⟩

theorem Proper.conserves {m : Measure ℚ} (h : m.Proper) : m.Conserves := by
  induction h with
  | expectation => exact conserves_expectation
  | worstCase => exact conserves_worstCase
  | tail hpos hone => exact conserves_tail hpos hone
  | weightedTail hweight hrest hpos hone =>
    exact conserves_weightedTail hweight hrest (conserves_tail hpos hone)
  | mixture hweights _ ih => exact conserves_mixture fun t ht => ⟨hweights t ht, ih t ht⟩

/-! ### Multiples and sums of measures -/

/-- The terms that a measure contributes to a sum, with numbers as weights. -/
def weighted : Measure ℚ → List (ℚ × Measure ℚ)
  | mixture terms => terms
  | m => [(1, m)]

theorem summands_eq (m : Measure ℚ) : m.summands = m.weighted.map fun t => (.real t.1, t.2) := by
  cases m with
  | mixture terms => rfl
  | _ => rfl

theorem join_eq_ok {m n s : Measure ℚ} :
    join m n = .ok s ↔
      (∀ t ∈ m.weighted ++ n.weighted, 0 ≤ t.1) ∧ s = mixture (m.weighted ++ n.weighted) := by
  rw [join, summands_eq, summands_eq, ← List.map_append, mixture?_eq_ok]
  constructor
  · rintro ⟨ts, hread, hnonneg, rfl⟩
    have same : m.weighted ++ n.weighted = ts := by
      rw [List.forall₂_map_left_iff] at hread
      rw [← List.forall₂_eq_eq_eq]
      exact hread.imp fun t s hts => Prod.ext (Except.ok.inj hts.1) hts.2
    rw [same]
    exact ⟨hnonneg, rfl⟩
  · rintro ⟨hnonneg, rfl⟩
    refine ⟨_, ?_, hnonneg, rfl⟩
    rw [List.forall₂_map_left_iff, List.forall₂_same]
    exact fun t _ => ⟨rfl, rfl⟩

theorem scale_eq_ok {weight : Datum ℚ} {m s : Measure ℚ} :
    scale weight m = .ok s ↔ ∃ x, weight.toScalar = .ok x ∧ 0 ≤ x ∧ s = mixture [(x, m)] := by
  rw [scale, mixture?_eq_ok]
  constructor
  · rintro ⟨ts, hread, hnonneg, rfl⟩
    obtain ⟨t, rest, ⟨hx, hm⟩, hrest, rfl⟩ := List.forall₂_cons_left_iff.1 hread
    cases hrest
    refine ⟨t.1, hx, hnonneg t List.mem_cons_self, ?_⟩
    rw [show m = t.2 from hm]
  · rintro ⟨x, hx, hpos, rfl⟩
    exact ⟨_, .cons ⟨hx, rfl⟩ .nil, by simpa using hpos, rfl⟩

/-- The factor of a sum is the sum of the factors. -/
theorem massFactor_of_join {m n s : Measure ℚ} (h : join m n = .ok s) :
    s.massFactor = m.massFactor + n.massFactor := by
  have factor : ∀ m : Measure ℚ, termsFactor m.weighted = m.massFactor := by
    intro m
    cases m with
    | mixture terms => rw [weighted, massFactor]
    | _ => simp only [weighted, termsFactor, one_mul, add_zero]
  rw [(join_eq_ok.1 h).2, massFactor, termsFactor_append, factor, factor]

/-- The factor of a multiple is the multiple of the factor. -/
theorem massFactor_of_scale {weight : Datum ℚ} {m s : Measure ℚ} (h : scale weight m = .ok s) :
    ∃ x, weight.toScalar = .ok x ∧ s.massFactor = x * m.massFactor := by
  obtain ⟨x, hx, -, rfl⟩ := scale_eq_ok.1 h
  exact ⟨x, hx, by simp only [massFactor, termsFactor, add_zero]⟩

/-! ### What can be built -/

/-- **Risk adjustment keeps mass.** For every measure that can be built, probabilities that are not
negative and as many objectives, in either sense, there are adjusted probabilities: none is
negative, an impossible outcome has none, and their sum is that of the probabilities times the
factor of the measure, which is one for expectation, worst case, tail and the mixture of expectation
and tail, and the weighted sum of the factors of the terms for a weighted sum. The mass is kept iff
the factor is one, unless there is no mass. -/
theorem Built.spreads_adjust {m : Measure ℚ} (hm : m.Built) (sense : Sense) {p f : List ℚ}
    (hp : ∀ a ∈ p, 0 ≤ a) (hf : f.length = p.length) :
    ∃ q, m.adjust sense p f = .ok q ∧ Spreads m.massFactor p q ∧
      (0 < p.sum → (q.sum = p.sum ↔ m.massFactor = 1)) := by
  obtain ⟨q, hrun, hq⟩ := hm.proper.conserves sense p f hp hf
  refine ⟨q, hrun, hq, fun hmass => ?_⟩
  rw [hq.sum_eq, mul_eq_right₀ hmass.ne']

/-- Half of the expectation and a quarter of a tail: of a mass of three quarters they keep three
quarters, and the worst outcome, which is impossible, gets nothing. -/
theorem spreads_adjust_of_two_terms :
    ∃ (m : Measure ℚ) (q : List ℚ), Built m ∧ m.massFactor = 3 / 4 ∧
      m.adjust .min [1 / 4, 0, 1 / 2] [3, 9, 3] = .ok q ∧
      Spreads (3 / 4) [1 / 4, 0, 1 / 2] q ∧ q.sum = 9 / 16 := by
  let first : Measure ℚ := mixture [(1 / 2, expectation)]
  let second : Measure ℚ := mixture [(1 / 4, tail (1 / 2))]
  let both : Measure ℚ := mixture [(1 / 2, expectation), (1 / 4, tail (1 / 2))]
  have level : tail? (.real (1 / 2)) = .ok (tail (1 / 2 : ℚ)) := by with_unfolding_all rfl
  have hfirst : scale (.real (1 / 2)) expectation = .ok first := by with_unfolding_all rfl
  have hsecond : scale (.real (1 / 4)) (tail (1 / 2)) = .ok second := by with_unfolding_all rfl
  have hboth : join first second = .ok both := by with_unfolding_all rfl
  have built : both.Built := .join (.scale .expectation hfirst) (.scale (.tail level) hsecond) hboth
  have factor : both.massFactor = 3 / 4 := by norm_num [both, massFactor, termsFactor]
  obtain ⟨q, hrun, hq, -⟩ := built.spreads_adjust .min (p := [1 / 4, 0, 1 / 2]) (f := [3, 9, 3])
    (by norm_num) rfl
  rw [factor] at hq
  refine ⟨both, q, built, factor, hrun, hq, ?_⟩
  rw [hq.sum_eq]
  norm_num

end Measure

end Multistage
