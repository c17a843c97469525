import Mathlib.Algebra.BigOperators.Ring.List
import Mathlib.Algebra.Order.BigOperators.Group.List
import Mathlib.Algebra.Order.Field.Rat
import Mathlib.Tactic.Linarith
import Mathlib.Tactic.Ring
import Multistage.Proofs.Lists
import Multistage.Proofs.Risk.Adjustment

/-!
# Measures that can be built are coherent

A measure that is built from the constructors weighs outcomes at least as badly as any of its
adjusted probabilities do, whichever outcomes these were adjusted to. This depends on the law of the
outcomes only: their order does not matter, nor do impossible ones.

## Main definitions

- `Measure.Built`: the measures that can be built.
- `Measure.Proper`: the measures whose levels and weights are as the constructors want them.
- `SameLaw`: two lists of outcomes with probabilities have the same law.
- `Measure.Coherent`: adjusted probabilities exist, are probabilities of their own, and are worst
  for the outcomes that they are adjusted to.

## Main statements

- `Measure.Built.proper`: the measures that can be built are proper.
- `Measure.Built.coherent`: the measures that can be built are coherent.
-/

namespace Multistage

/-- Every function of the outcomes has the same mean. -/
def SameLaw (p v p' v' : List ℚ) : Prop :=
  ∀ g : ℚ → ℚ, Scalar.dot p (v.map g) = Scalar.dot p' (v'.map g)

theorem SameLaw.entrySum_eq {p v p' v' : List ℚ} (h : SameLaw p v p' v') (hv : v.length = p.length)
    (hv' : v'.length = p'.length) (g : ℚ → ℚ) :
    entrySum p.length (fun k => p.getD k 0 * g (v.getD k 0)) =
      entrySum p'.length fun k => p'.getD k 0 * g (v'.getD k 0) := by
  have mean : ∀ {p v : List ℚ}, v.length = p.length → Scalar.dot p (v.map g) =
      entrySum p.length fun k => p.getD k 0 * g (v.getD k 0) := by
    intro p v hv
    rw [dot_eq_entrySum rfl (by rw [List.length_map, hv])]
    exact entrySum_congr fun k hk => by rw [getD_map_of_lt (by omega)]
  rw [← mean hv, ← mean hv', h g]

theorem SameLaw.sum_eq {p v p' v' : List ℚ} (h : SameLaw p v p' v') (hv : v.length = p.length)
    (hv' : v'.length = p'.length) : Scalar.sum p = Scalar.sum p' := by
  have := h.entrySum_eq hv hv' fun _ => 1
  simp only [mul_one] at this
  rw [sum_eq_entrySum, sum_eq_entrySum, this]

theorem SameLaw.symm {p v p' v' : List ℚ} (h : SameLaw p v p' v') : SameLaw p' v' p v :=
  fun g => (h g).symm

theorem getD_nonneg {p : List ℚ} (hp : ∀ a ∈ p, 0 ≤ a) (k : ℕ) : 0 ≤ p.getD k 0 := by
  rw [List.getD_eq_getElem?_getD]
  cases h : p[k]? with
  | none => exact le_rfl
  | some a => exact hp a (List.mem_of_getElem? h)

/-- The value of a possible outcome is possible in every list of the same law. -/
theorem SameLaw.exists_possible {p v p' v' : List ℚ} (h : SameLaw p v p' v')
    (hv : v.length = p.length) (hv' : v'.length = p'.length) (hp : ∀ a ∈ p, 0 ≤ a)
    (hp' : ∀ a ∈ p', 0 ≤ a) {k : ℕ} (hk : k < p.length) (hpos : 0 < p.getD k 0) :
    ∃ j < p'.length, 0 < p'.getD j 0 ∧ v'.getD j 0 = v.getD k 0 := by
  by_contra hnone
  have seen := h.entrySum_eq hv hv' fun x => if x = v.getD k 0 then 1 else 0
  have right : entrySum p'.length (fun j => p'.getD j 0 *
      if v'.getD j 0 = v.getD k 0 then 1 else 0) = 0 := by
    rw [entrySum_congr (g := fun _ => 0) fun j hj => ?_]
    · simp [entrySum]
    · by_cases hvalue : v'.getD j 0 = v.getD k 0
      · rw [if_pos hvalue, mul_one]
        exact le_antisymm (not_lt.1 fun hposj => hnone ⟨j, hj, hposj, hvalue⟩) (getD_nonneg hp' j)
      · rw [if_neg hvalue, mul_zero]
  have left := le_entrySum hk (f := fun j => p.getD j 0 * if v.getD j 0 = v.getD k 0 then 1 else 0)
    fun j _ => mul_nonneg (getD_nonneg hp j) (by split <;> norm_num)
  rw [seen, right, if_pos rfl, mul_one] at left
  exact absurd hpos (not_lt.2 left)

namespace Measure

/-- The measures that can be built. -/
inductive Built : Measure ℚ → Prop where
  | expectation : Built expectation
  | worstCase : Built worstCase
  | tail {level : Datum ℚ} {m : Measure ℚ} (h : tail? level = .ok m) : Built m
  | weightedTail {weight level : Datum ℚ} {m : Measure ℚ} (h : weightedTail? weight level = .ok m) :
      Built m
  | mixture {terms : List (Datum ℚ × Measure ℚ)} {m : Measure ℚ} (hterms : ∀ t ∈ terms, Built t.2)
      (h : mixture? terms = .ok m) : Built m
  | scale {weight : Datum ℚ} {m m' : Measure ℚ} (hm : Built m) (h : scale weight m = .ok m') :
      Built m'
  | join {m n m' : Measure ℚ} (hm : Built m) (hn : Built n) (h : join m n = .ok m') : Built m'

/-- Adjusted probabilities are weights of their own, and no adjusted probabilities of outcomes of
the same law weigh these worse than those that are adjusted to them. -/
def Coherent (m : Measure ℚ) : Prop :=
  ∀ (sense : Sense) (p f : List ℚ), (∀ a ∈ p, 0 ≤ a) → f.length = p.length →
    ∃ q, m.adjust sense p f = .ok q ∧ q.length = p.length ∧ (∀ a ∈ q, 0 ≤ a) ∧
      ∀ v p' v' q', v.length = p.length → (∀ a ∈ p', 0 ≤ a) → v'.length = p'.length →
        SameLaw p v p' v' → m.adjust sense p' v' = .ok q' →
          sense.AtMost (Scalar.dot q v) (Scalar.dot q' v')

/-- Worse outcomes have a worse value, although they are weighed anew. -/
theorem Coherent.dot_atMost {m : Measure ℚ} (hm : m.Coherent) {sense : Sense} {p f f' q q' : List ℚ}
    (hp : ∀ a ∈ p, 0 ≤ a) (hf : f.length = p.length) (hworse : List.Forall₂ sense.AtMost f f')
    (hq : m.adjust sense p f = .ok q) (hq' : m.adjust sense p f' = .ok q') :
    sense.AtMost (Scalar.dot q f) (Scalar.dot q' f') := by
  obtain ⟨q₀, hq₀, hlength, hnonneg, hworst⟩ := hm sense p f hp hf
  cases hq.symm.trans hq₀
  have hf' : f'.length = p.length := hworse.length_eq.symm.trans hf
  -- the old weights at the new outcomes lie between the two
  refine Sense.AtMost.trans ?_ (hworst f' p f' q' hf' hp hf' (fun _ => rfl) hq')
  rw [Sense.atMost_iff_sign_mul_le, mul_dot_eq_entrySum hlength hf, mul_dot_eq_entrySum hlength hf']
  refine entrySum_le fun k hk => ?_
  have hkf : k < f.length := hf.symm ▸ hk
  have hkf' : k < f'.length := hf'.symm ▸ hk
  have worse := Sense.atMost_iff_sign_mul_le.1 ((List.forall₂_iff_get.1 hworse).2 k hkf hkf')
  have entry : ∀ {v : List ℚ} (hk : k < v.length), v.get ⟨k, hk⟩ = v.getD k 0 := by
    intro v hk
    rw [List.getD_eq_getElem?_getD, List.getElem?_eq_getElem hk]
    rfl
  rw [entry, entry] at worse
  exact mul_le_mul_of_nonneg_left worse (getD_nonneg hnonneg k)

theorem nonneg_of_getD {q : List ℚ} {n : ℕ} (hn : q.length = n) (h : ∀ k < n, 0 ≤ q.getD k 0) :
    ∀ a ∈ q, 0 ≤ a := by
  intro a ha
  obtain ⟨k, hk⟩ := List.getElem?_of_mem ha
  have := h k (by rw [← hn]; exact (List.getElem?_eq_some_iff.1 hk).1)
  rwa [List.getD_eq_getElem?_getD, hk] at this

theorem dot_zeros {p v : List ℚ} (h : v.length = p.length) :
    Scalar.dot (p.map fun _ => (0 : ℚ)) v = 0 := by
  rw [dot_eq_entrySum (List.length_map _) h,
    entrySum_congr (g := fun _ => 0) fun k _ => by rw [getD_map_zero, zero_mul]]
  simp [entrySum]

theorem zeros_nonneg (p : List ℚ) : ∀ a ∈ p.map fun _ => (0 : ℚ), 0 ≤ a := by
  intro a ha
  obtain ⟨_, -, rfl⟩ := List.mem_map.1 ha
  exact le_rfl

/-! ### Tails -/

/-- Weights below the scaled probabilities weigh values at most as the excess over any threshold. -/
theorem Shares.sum_le {level : ℚ} {p q : List ℚ} (h : Shares level p q) (w : ℕ → ℚ) (t : ℚ) :
    entrySum p.length (fun k => q.getD k 0 * w k) ≤
      t * p.sum + entrySum p.length fun k => p.getD k 0 * (1 / level * max (w k - t) 0) := by
  rw [← h.sum_eq, ← entrySum_getD h.length_eq, ← entrySum_mul, ← entrySum_add]
  refine entrySum_le fun k hk => ?_
  have excess : q.getD k 0 * (w k - t) ≤ p.getD k 0 * (1 / level * max (w k - t) 0) := by
    rcases le_total 0 (w k - t) with hw | hw
    · rw [max_eq_left hw, ← mul_assoc, mul_one_div]
      exact mul_le_mul_of_nonneg_right (h.le_share k hk) hw
    · rw [max_eq_right hw, mul_zero, mul_zero]
      exact mul_nonpos_of_nonneg_of_nonpos (h.nonneg k hk) hw
  linarith

/-- At its threshold the weights take all of the excess. -/
theorem TailWeights.exists_sum_eq {level : ℚ} {p q : List ℚ} {value : ℕ → ℚ}
    (h : TailWeights level p q value) :
    ∃ t, entrySum p.length (fun k => q.getD k 0 * value k) =
      t * p.sum + entrySum p.length fun k => p.getD k 0 * (1 / level * max (value k - t) 0) := by
  obtain ⟨t, habove, hbelow⟩ := h.threshold
  refine ⟨t, ?_⟩
  rw [← h.shares.sum_eq, ← entrySum_getD h.length_eq, ← entrySum_mul, ← entrySum_add]
  refine entrySum_congr fun k hk => ?_
  have excess : q.getD k 0 * (value k - t) = p.getD k 0 * (1 / level * max (value k - t) 0) := by
    -- full shares above the threshold, no shares below it, no excess at it
    rcases lt_trichotomy (value k) t with hlt | heq | hgt
    · rw [hbelow k hk hlt, max_eq_right (by linarith)]
      ring
    · rw [heq, sub_self, max_self]
      ring
    · rw [habove k hk hgt, max_eq_left (by linarith)]
      ring
  linarith

/-- A tail has adjusted probabilities, also of outcomes without mass. -/
theorem exists_tailWeights {level : ℚ} (hpos : 0 < level) (hone : level ≤ 1) (sense : Sense)
    {p f : List ℚ} (hp : ∀ a ∈ p, 0 ≤ a) (hf : f.length = p.length) :
    ∃ q, (tail level).adjust sense p f = .ok q ∧
      TailWeights level p q fun k => sense.sign * f.getD k 0 := by
  by_cases htotal : 0 < Scalar.sum p
  · exact exists_adjustTail hpos hone sense (fun k _ => getD_nonneg hp k) hf htotal
  · -- every share of nothing is nothing
    have none : ∀ k < p.length, p.getD k 0 = 0 := by
      intro k hk
      have below := le_entrySum hk fun j _ => getD_nonneg hp j
      rw [← sum_eq_entrySum] at below
      exact le_antisymm (below.trans (not_lt.1 htotal)) (getD_nonneg hp k)
    refine ⟨_, adjustTail_of_nonpos level sense f (not_lt.1 htotal), ?_⟩
    have zero : ∀ k < p.length, (p.map fun _ => (0 : ℚ)).getD k 0 = p.getD k 0 / level := by
      intro k hk
      rw [getD_map_zero, none k hk, zero_div]
    refine ⟨List.length_map _, fun k _ => (getD_map_zero p k).ge, fun k hk => (zero k hk).le, ?_,
      0, fun k hk _ => zero k hk, fun k _ _ => getD_map_zero p k⟩
    exact entrySum_congr fun k hk => by rw [getD_map_zero, none k hk]

theorem coherent_tail {level : ℚ} (hpos : 0 < level) (hone : level ≤ 1) :
    Coherent (tail level) := by
  intro sense p f hp hf
  obtain ⟨q, hrun, hq⟩ := exists_tailWeights hpos hone sense hp hf
  refine ⟨q, hrun, hq.length_eq, nonneg_of_getD hq.length_eq hq.nonneg, ?_⟩
  intro v p' v' q' hv hp' hv' hlaw hrun'
  obtain ⟨q₀, hrun₀, hq'⟩ := exists_tailWeights hpos hone sense hp' hv'
  cases hrun'.symm.trans hrun₀
  obtain ⟨t, ht⟩ := hq'.exists_sum_eq
  -- the excess over the threshold of the second list depends on the law only
  have below := hq.shares.sum_le (fun k => sense.sign * v.getD k 0) t
  have masses := hlaw.sum_eq hv hv'
  have excesses := hlaw.entrySum_eq hv hv' fun x => 1 / level * max (sense.sign * x - t) 0
  rw [Scalar.sum_eq_listSum, Scalar.sum_eq_listSum] at masses
  rw [masses, excesses, ← ht] at below
  rwa [Sense.atMost_iff_sign_mul_le, mul_dot_eq_entrySum hq.length_eq hv,
    mul_dot_eq_entrySum hq'.length_eq hv']

/-! ### The worst case -/

theorem coherent_worstCase : Coherent worstCase := by
  intro sense p f hp hf
  by_cases hpossible : ∃ k < p.length, 0 < p.getD k 0
  · obtain ⟨worst, hlt, hpos, -, hrun⟩ := exists_adjustWorstCase sense hf hpossible
    have mass : 0 ≤ Scalar.sum p := by
      rw [sum_eq_entrySum]
      exact entrySum_nonneg fun k _ => getD_nonneg hp k
    refine ⟨_, hrun, by rw [List.length_set, List.length_map], ?_, ?_⟩
    · intro a ha
      rcases List.mem_or_eq_of_mem_set ha with ha | rfl
      · exact zeros_nonneg p a ha
      · exact mass
    · intro v p' v' q' hv hp' hv' hlaw hrun'
      -- the outcome that takes the mass is possible in the second list, too
      obtain ⟨k, hk, hposk, hvalue⟩ := hlaw.exists_possible hv hv' hp hp' hlt hpos
      obtain ⟨worst', hlt', -, hworst, hrun₀⟩ := exists_adjustWorstCase sense hv' ⟨k, hk, hposk⟩
      cases hrun'.symm.trans hrun₀
      have ordered := Sense.atMost_iff_sign_mul_le.1 (hworst k hk hposk)
      rw [Sense.atMost_iff_sign_mul_le, dot_single hlt hv, dot_single hlt' hv',
        ← hlaw.sum_eq hv hv',
        mul_left_comm, mul_left_comm sense.sign, ← hvalue]
      exact mul_le_mul_of_nonneg_left ordered mass
  · refine ⟨_, adjustWorstCase_of_impossible sense f hpossible, List.length_map _,
      zeros_nonneg p, ?_⟩
    intro v p' v' q' hv hp' hv' hlaw hrun'
    have hnone : ¬∃ k < p'.length, 0 < p'.getD k 0 := by
      rintro ⟨k, hk, hpos⟩
      obtain ⟨j, hj, hposj, -⟩ := hlaw.symm.exists_possible hv' hv hp' hp hk hpos
      exact hpossible ⟨j, hj, hposj⟩
    cases hrun'.symm.trans (adjustWorstCase_of_impossible sense v' hnone)
    rw [dot_zeros hv, dot_zeros hv']
    exact .refl sense 0

/-! ### Weighted sums -/

theorem length_addScaled {α : Type} [Scalar α] {weight : α} {q r : List α} {n : ℕ}
    (hq : q.length = n) (hr : r.length = n) : (addScaled weight q r).length = n := by
  rw [addScaled, List.length_zipWith, hq, hr, Nat.min_self]

theorem getD_addScaled {weight : ℚ} {q r : List ℚ} {n k : ℕ} (hq : q.length = n)
    (hr : r.length = n) (hk : k < n) :
    (addScaled weight q r).getD k 0 = q.getD k 0 + weight * r.getD k 0 := by
  have hkq : k < q.length := by omega
  have hkr : k < r.length := by omega
  simp [addScaled, List.getD_eq_getElem?_getD, hkq, hkr]

theorem dot_addScaled {weight : ℚ} {q r v : List ℚ} {n : ℕ} (hq : q.length = n)
    (hr : r.length = n) (hv : v.length = n) :
    Scalar.dot (addScaled weight q r) v = Scalar.dot q v + weight * Scalar.dot r v := by
  rw [dot_eq_entrySum (length_addScaled hq hr) hv, dot_eq_entrySum hq hv, dot_eq_entrySum hr hv,
    ← entrySum_mul, ← entrySum_add]
  refine entrySum_congr fun k hk => ?_
  rw [getD_addScaled hq hr hk]
  ring

/-- Adding terms to a sum of weights. -/
theorem exists_adjustTerms {sense : Sense} {p f : List ℚ} (hp : ∀ a ∈ p, 0 ≤ a)
    (hf : f.length = p.length) {terms : List (ℚ × Measure ℚ)}
    (hterms : ∀ t ∈ terms, 0 ≤ t.1 ∧ Coherent t.2) {sum : List ℚ} (hlength : sum.length = p.length)
    (hsum : ∀ a ∈ sum, 0 ≤ a) :
    ∃ q, adjustTerms sense p f terms sum = .ok q ∧ q.length = p.length ∧ (∀ a ∈ q, 0 ≤ a) ∧
      ∀ v p' v' sum' q', v.length = p.length → (∀ a ∈ p', 0 ≤ a) → v'.length = p'.length →
        sum'.length = p'.length → SameLaw p v p' v' → adjustTerms sense p' v' terms sum' = .ok q' →
          sense.sign * Scalar.dot q v - sense.sign * Scalar.dot sum v ≤
            sense.sign * Scalar.dot q' v' - sense.sign * Scalar.dot sum' v' := by
  induction terms generalizing sum with
  | nil =>
    refine ⟨sum, rfl, hlength, hsum, ?_⟩
    intro v p' v' sum' q' _ _ _ _ _ hrun'
    cases hrun'
    rw [sub_self, sub_self]
  | cons t rest ih =>
    obtain ⟨weight, m⟩ := t
    obtain ⟨hweight, hm⟩ := hterms _ List.mem_cons_self
    -- the first measure adjusts the probabilities, and its weights are added
    obtain ⟨r, hr, hrlength, hrnonneg, hworst⟩ := hm sense p f hp hf
    have hnext : ∀ a ∈ addScaled weight sum r, 0 ≤ a := by
      refine nonneg_of_getD (length_addScaled hlength hrlength) fun k hk => ?_
      rw [getD_addScaled hlength hrlength hk]
      exact add_nonneg (getD_nonneg hsum k) (mul_nonneg hweight (getD_nonneg hrnonneg k))
    obtain ⟨q, hq, hqlength, hqnonneg, hrest⟩ :=
      ih (fun t ht => hterms t (List.mem_cons_of_mem _ ht))
      (length_addScaled hlength hrlength) hnext
    refine ⟨q, ?_, hqlength, hqnonneg, ?_⟩
    · rw [adjustTerms, hr]
      exact hq
    · intro v p' v' sum' q' hv hp' hv' hlength' hlaw hrun'
      obtain ⟨r', hr', hrlength', -, -⟩ := hm sense p' v' hp' hv'
      rw [adjustTerms, hr'] at hrun'
      have later := hrest v p' v' _ q' hv hp' hv' (length_addScaled hlength' hrlength') hlaw hrun'
      have now := Sense.atMost_iff_sign_mul_le.1 (hworst v p' v' r' hv hp' hv' hlaw hr')
      rw [dot_addScaled hlength hrlength hv, dot_addScaled hlength' hrlength' hv'] at later
      have := mul_le_mul_of_nonneg_left now hweight
      linarith

theorem coherent_mixture {terms : List (ℚ × Measure ℚ)}
    (hterms : ∀ t ∈ terms, 0 ≤ t.1 ∧ Coherent t.2) : Coherent (mixture terms) := by
  intro sense p f hp hf
  obtain ⟨q, hrun, hlength, hnonneg, hworst⟩ := @exists_adjustTerms sense _ _ hp hf _ hterms _
    (List.length_map _) (zeros_nonneg p)
  refine ⟨q, hrun, hlength, hnonneg, ?_⟩
  intro v p' v' q' hv hp' hv' hlaw hrun'
  have := hworst v p' v' _ q' hv hp' hv' (List.length_map _) hlaw hrun'
  rw [dot_zeros hv, dot_zeros hv', mul_zero, sub_zero, sub_zero] at this
  exact Sense.atMost_iff_sign_mul_le.2 this

theorem coherent_expectation : Coherent expectation := by
  intro sense p f hp _
  refine ⟨p, rfl, rfl, hp, ?_⟩
  intro v p' v' q' _ _ _ hlaw hrun'
  cases hrun'
  have := hlaw id
  rw [List.map_id, List.map_id] at this
  rw [this]
  exact .refl sense _

/-- The mixture of expectation and tail is a weighted sum. -/
theorem adjust_weightedTail (sense : Sense) (p f : List ℚ) (weight level : ℚ) :
    adjust sense p f (weightedTail weight level) =
      adjust sense p f (mixture [(weight, expectation), (1 - weight, tail level)]) := by
  show _ = adjustTerms sense p f _ _
  rw [adjustTerms]
  show _ = adjustTerms sense p f [(1 - weight, tail level)] _
  rw [adjustTerms]
  rfl

theorem coherent_weightedTail {weight level : ℚ} (hweight : 0 ≤ weight) (hone : weight ≤ 1)
    (h : Coherent (tail level)) : Coherent (weightedTail weight level) := by
  have terms : Coherent (mixture [(weight, expectation), (1 - weight, tail level)]) := by
    refine coherent_mixture fun t ht => ?_
    rcases List.mem_cons.1 ht with rfl | ht
    · exact ⟨hweight, coherent_expectation⟩
    · rw [List.mem_singleton.1 ht]
      exact ⟨sub_nonneg.2 hone, h⟩
  intro sense p f
  simp only [adjust_weightedTail]
  exact terms sense p f

/-! ### What can be built -/

/-- A number that is read in both ways is the same in both. -/
theorem value_of_asNumber {d : Datum ℚ} {v : Extended ℚ} {x : ℚ} (hv : d.value = .ok v)
    (hx : d.asNumber = .ok x) : v = .finite x := by
  cases d with
  | int n =>
    cases hv
    cases hx
    rfl
  | bool b =>
    cases hv
    cases hx
    cases b <;> rfl
  | real y =>
    cases hv
    cases hx
    rfl
  | _ => cases hx

theorem le_finite_iff {a b : ℚ} : Extended.le (.finite a) (.finite b) = true ↔ a ≤ b := by
  simp [Extended.le, Extended.lt, le_iff_lt_or_eq]

theorem tailLevel_eq_ok {level : Datum ℚ} {a : ℚ} (h : tailLevel level = .ok a) :
    level.asNumber = .ok a ∧ 0 < a ∧ a ≤ 1 := by
  obtain ⟨v, hv, h⟩ := Except.bind_eq_ok.1 h
  split at h
  next hrange =>
    rw [value_of_asNumber hv h] at hrange
    rw [Bool.and_eq_true, le_finite_iff] at hrange
    exact ⟨h, of_decide_eq_true hrange.1, hrange.2⟩
  next => cases h

theorem weightedTail?_eq_ok {weight level : Datum ℚ} {m : Measure ℚ}
    (h : weightedTail? weight level = .ok m) :
    ∃ x a, weight.asNumber = .ok x ∧ level.asNumber = .ok a ∧ (0 ≤ x ∧ x ≤ 1) ∧ (0 < a ∧ a ≤ 1) ∧
      m = weightedTail x a := by
  obtain ⟨v, hv, h⟩ := Except.bind_eq_ok.1 h
  split at h
  · cases h
  next hrange =>
    obtain ⟨x, hx, h⟩ := Except.bind_eq_ok.1 h
    obtain ⟨a, hlevel, h⟩ := Except.bind_eq_ok.1 h
    cases h
    obtain ⟨ha, hbounds⟩ := tailLevel_eq_ok hlevel
    rw [value_of_asNumber hv hx] at hrange
    have range : 0 ≤ x ∧ x ≤ 1 := by
      simpa only [Bool.not_eq_true', Bool.not_eq_false, Bool.and_eq_true,
        le_finite_iff] using hrange
    exact ⟨x, a, hx, ha, range, hbounds, rfl⟩

/-- A weighted sum needs weights that are read as numbers, of which none is negative. -/
theorem mixture?_eq_ok {terms : List (Datum ℚ × Measure ℚ)} {m : Measure ℚ} :
    mixture? terms = .ok m ↔
      ∃ ts, List.Forall₂ (fun t s => t.1.toScalar = .ok s.1 ∧ t.2 = s.2) terms ts ∧
        (∀ s ∈ ts, 0 ≤ s.1) ∧ m = mixture ts := by
  have read : ∀ (t : Datum ℚ × Measure ℚ) (s : ℚ × Measure ℚ),
      t.1.toScalar.map (fun x => (x, t.2)) = .ok s ↔ t.1.toScalar = .ok s.1 ∧ t.2 = s.2 := by
    intro t s
    rw [Except.map_eq_ok]
    constructor
    · rintro ⟨x, hx, rfl⟩
      exact ⟨hx, rfl⟩
    · rintro ⟨hx, hm⟩
      exact ⟨s.1, hx, by rw [hm]⟩
  have signs : ∀ ts : List (ℚ × Measure ℚ), ts.any (·.1 < 0) = false ↔ ∀ s ∈ ts, 0 ≤ s.1 := by
    simp
  rw [mixture?, Except.bind_eq_ok]
  simp only [Except.mapM_eq_ok, read, ← signs]
  refine exists_congr fun ts => and_congr_right fun _ => ?_
  cases ts.any (·.1 < 0) with
  | false =>
    constructor
    · intro h
      cases h
      exact ⟨rfl, rfl⟩
    · rintro ⟨-, rfl⟩
      rfl
  | true =>
    constructor
    · intro h
      cases h
    · intro h
      cases h.1

/-- A measure as its constructors check it: levels are in `(0, 1]`, the weight of a mixture with a
tail is in `[0, 1]`, and no weight of a sum is negative, at any depth. -/
inductive Proper : Measure ℚ → Prop where
  | expectation : Proper expectation
  | worstCase : Proper worstCase
  | tail {level : ℚ} (hpos : 0 < level) (hone : level ≤ 1) : Proper (tail level)
  | weightedTail {weight level : ℚ} (hweight : 0 ≤ weight) (hrest : weight ≤ 1) (hpos : 0 < level)
      (hone : level ≤ 1) : Proper (weightedTail weight level)
  | mixture {terms : List (ℚ × Measure ℚ)} (hweights : ∀ t ∈ terms, 0 ≤ t.1)
      (hterms : ∀ t ∈ terms, Proper t.2) : Proper (mixture terms)

theorem Proper.mixture? {terms : List (Datum ℚ × Measure ℚ)} {m : Measure ℚ}
    (hterms : ∀ t ∈ terms, t.2.Proper) (h : Measure.mixture? terms = .ok m) : m.Proper := by
  obtain ⟨ts, hread, hnonneg, rfl⟩ := mixture?_eq_ok.1 h
  exact .mixture hnonneg ((forall_mem_iff_of_forall₂ hread fun t s hts => by rw [hts.2]).1 hterms)

/-- The measures that are added are those of a weighted sum, or the one that there is. -/
theorem Proper.summands {m : Measure ℚ} (h : m.Proper) : ∀ t ∈ m.summands, t.2.Proper := by
  intro t ht
  cases h with
  | mixture _ hterms =>
    obtain ⟨s, hs, rfl⟩ := List.mem_map.1 ht
    exact hterms s hs
  | expectation => exact List.mem_singleton.1 ht ▸ .expectation
  | worstCase => exact List.mem_singleton.1 ht ▸ .worstCase
  | tail hpos hone => exact List.mem_singleton.1 ht ▸ .tail hpos hone
  | weightedTail hweight hrest hpos hone =>
    exact List.mem_singleton.1 ht ▸ .weightedTail hweight hrest hpos hone

/-- Whatever can be built was checked. -/
theorem Built.proper {m : Measure ℚ} (h : m.Built) : m.Proper := by
  induction h with
  | expectation => exact .expectation
  | worstCase => exact .worstCase
  | tail h =>
    obtain ⟨level, hlevel, h⟩ := Except.bind_eq_ok.1 h
    cases h
    obtain ⟨-, hpos, hone⟩ := tailLevel_eq_ok hlevel
    exact .tail hpos hone
  | weightedTail h =>
    obtain ⟨x, a, -, -, hweight, hlevel, rfl⟩ := weightedTail?_eq_ok h
    exact .weightedTail hweight.1 hweight.2 hlevel.1 hlevel.2
  | mixture _ h ih => exact .mixture? ih h
  | scale _ h ih =>
    refine .mixture? (fun t ht => ?_) h
    rw [List.mem_singleton.1 ht]
    exact ih
  | join _ _ h ihm ihn =>
    refine .mixture? (fun t ht => ?_) h
    rcases List.mem_append.1 ht with ht | ht
    · exact ihm.summands t ht
    · exact ihn.summands t ht

theorem Proper.coherent {m : Measure ℚ} (h : m.Proper) : m.Coherent := by
  induction h with
  | expectation => exact coherent_expectation
  | worstCase => exact coherent_worstCase
  | tail hpos hone => exact coherent_tail hpos hone
  | weightedTail hweight hrest hpos hone =>
    exact coherent_weightedTail hweight hrest (coherent_tail hpos hone)
  | mixture hweights _ ih => exact coherent_mixture fun t ht => ⟨hweights t ht, ih t ht⟩

theorem Built.coherent {m : Measure ℚ} (h : m.Built) : m.Coherent := h.proper.coherent

end Measure

end Multistage
