import Multistage.Proofs.Risk.Adjustment
import Multistage.Proofs.Scalar.Extended

/-!
# Risk under the other sense

Bad outcomes are those of high cost, or those of low reward. If the sense is the other one and all
objectives are negated, the same outcomes are bad, so that a measure moves the same probabilities.

## Main definitions

- `Sense.flip`: the other sense.

## Main statements

- `Measure.adjust_flip`: the adjusted probabilities are the same.
-/

namespace Multistage

/-- The other sense. -/
def Sense.flip : Sense → Sense
  | min => max
  | max => min

@[simp] theorem Sense.sign_flip (sense : Sense) : (sense.flip.sign : ℚ) = -sense.sign := by
  cases sense
  · rfl
  · exact (neg_neg (1 : ℚ)).symm

namespace Measure

variable {sense : Sense} {p f : List ℚ}

/-- The worse of two values is that of the negative values in the other sense. -/
theorem worse_flip (sense : Sense) (a b : Extended ℚ) :
    worse sense.flip a.neg b.neg = worse sense a b := by
  cases sense <;> cases a <;> cases b <;>
    simp [worse, Sense.flip, Extended.neg, Extended.lt]

/-- The first of the worst values stands where that of the negative values does. -/
theorem firstWorst_flip (sense : Sense) (values : List (Extended ℚ)) :
    firstWorst sense.flip (values.map Extended.neg) = firstWorst sense values := by
  have scan : ∀ (rest : List (Extended ℚ)) (start i : ℕ) (v : Extended ℚ),
      ((rest.map Extended.neg).zipIdx start).foldl
          (fun best e => if worse sense.flip best.2 e.1 then (e.2, e.1) else best) (i, v.neg) =
        Prod.map id Extended.neg ((rest.zipIdx start).foldl
          (fun best e => if worse sense best.2 e.1 then (e.2, e.1) else best) (i, v)) := by
    intro rest
    induction rest with
    | nil => exact fun _ _ _ => rfl
    | cons w rest ih =>
      intro start i v
      rw [List.map_cons, List.zipIdx_cons, List.zipIdx_cons, List.foldl_cons, List.foldl_cons]
      simp only [worse_flip]
      split
      · exact ih _ _ w
      · exact ih _ _ v
  cases values with
  | nil => rfl
  | cons v rest => exact (congrArg Prod.fst (scan rest 1 0 v)).trans rfl

/-- The worst case of negative objectives in the other sense has the same probabilities. -/
theorem adjustWorstCase_flip (sense : Sense) (p f : List ℚ) :
    adjustWorstCase sense.flip p (f.map (-·)) = adjustWorstCase sense p f := by
  have values : ∀ best : Extended ℚ,
      List.zipWith (fun p f => if 0 < p then Scalar.classify f else best.neg) p (f.map (-·)) =
        (List.zipWith (fun p f => if 0 < p then Scalar.classify f else best) p f).map
        Extended.neg := by
    intro best
    rw [List.zipWith_map_right, List.map_zipWith]
    congr 1
    funext a x
    split <;> rfl
  unfold adjustWorstCase
  rw [List.length_map]
  refine if_congr Iff.rfl rfl (if_congr Iff.rfl rfl ?_)
  cases sense with
  | min =>
    simp only [← firstWorst_flip .min, ← values]
    rfl
  | max =>
    simp only [← firstWorst_flip .max, ← values]
    rfl

/-- Negative objectives in the other sense are in the same order. -/
theorem worstFirst_flip (sense : Sense) (f : List ℚ) :
    worstFirst sense.flip (f.map (-·)) = worstFirst sense f := by
  have ascends_neg : ∀ x y : ℚ, ascends (-x) (-y) = ascends y x := fun x y => by
    rw [Bool.eq_iff_iff, ascends_iff, ascends_iff, neg_le_neg_iff]
  have sorted : ∀ comes comes' : ℚ × ℕ → ℚ × ℕ → Bool,
      (∀ x y, comes x y = comes' (Prod.map (-·) id x) (Prod.map (-·) id y)) →
        (((f.map (-·)).zipIdx.mergeSort comes').map (·.2)) =
        ((f.zipIdx.mergeSort comes).map (·.2)) := by
    intro comes comes' h
    rw [List.zipIdx_map, ← List.map_mergeSort (r := comes) fun x _ y _ => h x y, List.map_map]
    rfl
  cases sense with
  | min => exact sorted _ _ fun x y => (ascends_neg x.1 y.1).symm
  | max => exact sorted _ _ fun x y => (ascends_neg y.1 x.1).symm

/-- The tail of negative objectives in the other sense has the same probabilities. -/
theorem adjustTail_flip (level : ℚ) (sense : Sense) (p f : List ℚ) :
    adjustTail level sense.flip p (f.map (-·)) = adjustTail level sense p f := by
  unfold adjustTail
  rw [worstFirst_flip]

mutual

/-- The probabilities that a measure moves are those of the negated objectives under the other
sense. -/
theorem adjust_flip (sense : Sense) (p f : List ℚ) :
    ∀ m : Measure ℚ, m.adjust sense.flip p (f.map (-·)) = m.adjust sense p f
  | expectation => rfl
  | worstCase => adjustWorstCase_flip sense p f
  | tail level => adjustTail_flip level sense p f
  | mixture terms => adjustTerms_flip sense p f terms _
  | weightedTail weight level => by rw [adjust, adjust, adjustTail_flip]

theorem adjustTerms_flip (sense : Sense) (p f : List ℚ) :
    ∀ (terms : List (ℚ × Measure ℚ)) (sum : List ℚ),
      adjustTerms sense.flip p (f.map (-·)) terms sum = adjustTerms sense p f terms sum
  | [], _ => rfl
  | (weight, m) :: rest, sum => by
    rw [adjustTerms, adjustTerms, adjust_flip sense p f m]
    exact bind_congr fun q => adjustTerms_flip sense p f rest _

end

end Measure

end Multistage
