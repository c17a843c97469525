import Multistage.Proofs.Risk.Mass
import Multistage.Proofs.Risk.Mirror

/-!
# The laws of risk

The value of a measure at outcomes with probabilities is the mean of the objectives under the
probabilities that are adjusted to them. The adjusted probabilities depend on the objectives through
an order or the place of an extremum, so that no law holds outcome by outcome. What holds is that
the value is an envelope: it is the mean under some weights of the right mass, and these weights
give no other objectives a mean above their own value. All laws follow from that.

## Main definitions

- `Weighed`: probabilities and objectives that fit each other.
- `Measure.value`, `Measure.loss`: the value of outcomes, and the value in the direction in which it
  is to be small.
- `Measure.RiskLaws`: monotone, subadditive, positively homogeneous, translated by the mass, and
  blind to everything but the law of the outcomes.
- `Measure.Enveloped`: at all outcomes the mean under weights that are nowhere above the values.

## Main statements

- `Measure.Enveloped.riskLaws`: an envelope obeys the laws.
- `Measure.Built.riskLaws_loss`: every measure that can be built does.
-/

namespace Multistage

/-- As many objectives as probabilities, of which none is negative. -/
structure Weighed (p f : List ℚ) : Prop where
  nonneg : ∀ a ∈ p, 0 ≤ a
  length_eq : f.length = p.length

/-! ### Means of other outcomes -/

theorem dot_add {q f g : List ℚ} {n : ℕ} (hq : q.length = n) (hf : f.length = n)
    (hg : g.length = n) :
    Scalar.dot q (List.zipWith (· + ·) f g) = Scalar.dot q f + Scalar.dot q g := by
  rw [dot_eq_entrySum hq (by simp [hf, hg]), dot_eq_entrySum hq hf, dot_eq_entrySum hq hg,
    ← entrySum_add]
  apply entrySum_congr
  intro k hk
  have hkf : k < f.length := by omega
  have hkg : k < g.length := by omega
  simp [List.getD_eq_getElem?_getD, hkf, hkg, mul_add]

theorem dot_affine {q f : List ℚ} {n : ℕ} (hq : q.length = n) (hf : f.length = n) (a c : ℚ) :
    Scalar.dot q (f.map fun x => a * x + c) = a * Scalar.dot q f + c * q.sum := by
  rw [dot_eq_entrySum hq (by simp [hf]), dot_eq_entrySum hq hf, ← entrySum_getD hq, ← entrySum_mul,
    ← entrySum_mul, ← entrySum_add]
  apply entrySum_congr
  intro k hk
  rw [getD_map_of_lt (by omega)]
  ring

/-! ### Outcomes of the same law -/

theorem dot_map_eq_sum_zip (p v : List ℚ) (g : ℚ → ℚ) :
    Scalar.dot p (v.map g) = ((p.zip v).map fun o => o.1 * g o.2).sum := by
  rw [Scalar.dot, Scalar.sum_eq_listSum, List.zipWith_map_right, List.zip, List.map_zipWith]

theorem SameLaw.of_perm {p v p' v' : List ℚ} (h : (p.zip v).Perm (p'.zip v')) :
    SameLaw p v p' v' := by
  intro g
  rw [dot_map_eq_sum_zip, dot_map_eq_sum_zip]
  exact (h.map _).sum_eq

/-- An outcome may be split into two with the same objective. -/
theorem SameLaw.of_split {p₁ p₂ v₁ v₂ : List ℚ} (a b x : ℚ) (h : v₁.length = p₁.length) :
    SameLaw (p₁ ++ (a + b) :: p₂) (v₁ ++ x :: v₂) (p₁ ++ a :: b :: p₂) (v₁ ++ x :: x :: v₂) := by
  intro g
  rw [dot_map_eq_sum_zip, dot_map_eq_sum_zip]
  simp only [List.zip_append h.symm, List.zip_cons_cons, List.map_append, List.map_cons,
    List.sum_append, List.sum_cons]
  ring

namespace Measure

/-- The value of outcomes: the mean of the objectives under the probabilities adjusted to them. -/
def value (m : Measure ℚ) (sense : Sense) (p f : List ℚ) : Except (Failure ℚ) ℚ := do
  let q ← m.adjust sense p f
  return Scalar.dot q f

/-- The value in the direction in which it is to be small: when maximising, minus the value of the
negated objectives. -/
def loss (m : Measure ℚ) : Sense → (p f : List ℚ) → Except (Failure ℚ) ℚ
  | .min, p, f => m.value .min p f
  | .max, p, f => do
    let v ← m.value .max p (f.map (-·))
    return -v

/-- The laws of risk, for a measure that multiplies the mass by a factor. -/
structure RiskLaws (factor : ℚ) (F : List ℚ → List ℚ → ℚ) : Prop where
  /-- Objectives that are nowhere worse where they are possible have no worse value. -/
  monotone : ∀ {p f g}, Weighed p f → Weighed p g →
    (∀ k < p.length, 0 < p.getD k 0 → f.getD k 0 ≤ g.getD k 0) → F p f ≤ F p g
  subadditive : ∀ {p f g}, Weighed p f → Weighed p g →
    F p (List.zipWith (· + ·) f g) ≤ F p f + F p g
  affine : ∀ {p f} {a : ℚ} (c : ℚ), Weighed p f → 0 ≤ a →
    F p (f.map fun x => a * x + c) = a * F p f + c * (factor * p.sum)
  permuted : ∀ {p f p' f'}, Weighed p f → Weighed p' f' → (p.zip f).Perm (p'.zip f') →
  F p f = F p' f'
  split : ∀ {p₁ p₂ f₁ f₂} {a b x : ℚ}, Weighed (p₁ ++ a :: b :: p₂) (f₁ ++ x :: x :: f₂) →
    f₁.length = p₁.length →
      F (p₁ ++ (a + b) :: p₂) (f₁ ++ x :: f₂) = F (p₁ ++ a :: b :: p₂) (f₁ ++ x :: x :: f₂)

/-- At all outcomes a value is the mean under weights, of a multiple of the mass, that give no
outcomes a mean above the value of any outcomes of the same law. -/
def Enveloped (factor : ℚ) (F : List ℚ → List ℚ → ℚ) : Prop :=
  ∀ p f, Weighed p f → ∃ q, Spreads factor p q ∧ F p f = Scalar.dot q f ∧
    ∀ v p' v', v.length = p.length → Weighed p' v' → SameLaw p v p' v' → Scalar.dot q v ≤ F p' v'

namespace Enveloped

variable {factor : ℚ} {F : List ℚ → List ℚ → ℚ} {p f g p' f' : List ℚ}

theorem le_of_sameLaw (h : Enveloped factor F) (hf : Weighed p f) (hf' : Weighed p' f')
    (hlaw : SameLaw p f p' f') : F p f ≤ F p' f' := by
  obtain ⟨q, -, hvalue, hbelow⟩ := h p f hf
  rw [hvalue]
  exact hbelow f p' f' hf.length_eq hf' hlaw

theorem eq_of_sameLaw (h : Enveloped factor F) (hf : Weighed p f) (hf' : Weighed p' f')
    (hlaw : SameLaw p f p' f') : F p f = F p' f' :=
  le_antisymm (h.le_of_sameLaw hf hf' hlaw) (h.le_of_sameLaw hf' hf hlaw.symm)

theorem monotone (h : Enveloped factor F) (hf : Weighed p f) (hg : Weighed p g)
    (hle : ∀ k < p.length, 0 < p.getD k 0 → f.getD k 0 ≤ g.getD k 0) : F p f ≤ F p g := by
  obtain ⟨q, hq, hvalue, hbelow⟩ := h p f hf
  -- the weights for the first objectives give the second a mean in between
  refine le_trans ?_ (hbelow g p g hg.length_eq hg fun _ => rfl)
  rw [hvalue, dot_eq_entrySum hq.length_eq hf.length_eq, dot_eq_entrySum hq.length_eq hg.length_eq]
  apply entrySum_le
  intro k hk
  by_cases hpos : 0 < p.getD k 0
  · exact mul_le_mul_of_nonneg_left (hle k hk hpos) (getD_nonneg hq.nonneg k)
  · have none : p.getD k 0 = 0 := le_antisymm (not_lt.1 hpos) (getD_nonneg hf.nonneg k)
    rw [hq.impossible k none, zero_mul, zero_mul]

theorem subadditive (h : Enveloped factor F) (hf : Weighed p f) (hg : Weighed p g) :
    F p (List.zipWith (· + ·) f g) ≤ F p f + F p g := by
  have hsum : Weighed p (List.zipWith (· + ·) f g) :=
    ⟨hf.nonneg, by simp [hf.length_eq, hg.length_eq]⟩
  obtain ⟨q, hq, hvalue, hbelow⟩ := h p _ hsum
  rw [hvalue, dot_add hq.length_eq hf.length_eq hg.length_eq]
  exact add_le_add (hbelow f p f hf.length_eq hf fun _ => rfl)
    (hbelow g p g hg.length_eq hg fun _ => rfl)

theorem affine (h : Enveloped factor F) {a : ℚ} (c : ℚ) (hf : Weighed p f) (ha : 0 ≤ a) :
    F p (f.map fun x => a * x + c) = a * F p f + c * (factor * p.sum) := by
  have hmap : Weighed p (f.map fun x => a * x + c) := ⟨hf.nonneg, by simp [hf.length_eq]⟩
  apply le_antisymm
  · obtain ⟨q, hq, hvalue, hbelow⟩ := h p _ hmap
    have below := mul_le_mul_of_nonneg_left (hbelow f p f hf.length_eq hf fun _ => rfl) ha
    rw [hvalue, dot_affine hq.length_eq hf.length_eq, hq.sum_eq]
    linarith
  · obtain ⟨q, hq, hvalue, hbelow⟩ := h p f hf
    have below := hbelow _ p _ hmap.length_eq hmap fun _ => rfl
    rwa [dot_affine hq.length_eq hf.length_eq, hq.sum_eq, ← hvalue] at below

/-- An envelope obeys the laws of risk. -/
theorem riskLaws (h : Enveloped factor F) : RiskLaws factor F where
  monotone := h.monotone
  subadditive := h.subadditive
  affine := h.affine
  permuted hf hf' hperm := h.eq_of_sameLaw hf hf' (.of_perm hperm)
  split := by
    intro p₁ p₂ f₁ f₂ a b x hf hlength
    refine h.eq_of_sameLaw ⟨?_, ?_⟩ hf (.of_split a b x hlength)
    · have := hf.nonneg
      simp only [List.forall_mem_append, List.forall_mem_cons] at this ⊢
      exact ⟨this.1, add_nonneg this.2.1 this.2.2.1, this.2.2.2⟩
    · have := hf.length_eq
      simp at this ⊢
      omega

end Enveloped

/-! ### Measures -/

/-- Negated objectives under the other sense have the same loss. -/
theorem loss_eq (m : Measure ℚ) (sense : Sense) (p f : List ℚ) :
    m.loss sense p f = m.value .min p f := by
  cases sense with
  | min => rfl
  | max =>
    have flipped : m.adjust .max p (f.map (-·)) = m.adjust .min p f := adjust_flip .min p f m
    rw [loss, value, value, flipped]
    cases m.adjust .min p f with
    | error e => rfl
    | ok q =>
      show Except.ok (-Scalar.dot q (f.map (-·))) = Except.ok (Scalar.dot q f)
      rw [Scalar.dot_neg, neg_neg]

/-- The values of a proper measure are an envelope. -/
theorem Proper.exists_enveloped {m : Measure ℚ} (hm : m.Proper) :
    ∃ F, (∀ p f, Weighed p f → m.value .min p f = .ok (F p f)) ∧ Enveloped m.massFactor F := by
  let F : List ℚ → List ℚ → ℚ := fun p f => (m.value .min p f).toOption.getD 0
  have known : ∀ p f, Weighed p f → ∃ q, m.adjust .min p f = .ok q ∧ Spreads m.massFactor p q ∧
      F p f = Scalar.dot q f ∧ m.value .min p f = .ok (F p f) := by
    intro p f hf
    obtain ⟨q, hrun, hq⟩ := hm.conserves .min p f hf.nonneg hf.length_eq
    have hvalue : m.value .min p f = .ok (Scalar.dot q f) := by rw [value, hrun]; rfl
    have hF : F p f = Scalar.dot q f := congrArg (·.toOption.getD 0) hvalue
    exact ⟨q, hrun, hq, hF, hF ▸ hvalue⟩
  refine ⟨F, fun p f hf => ?_, fun p f hf => ?_⟩
  · obtain ⟨q, -, -, -, hvalue⟩ := known p f hf
    exact hvalue
  · obtain ⟨q, hrun, hq, hF, -⟩ := known p f hf
    refine ⟨q, hq, hF, fun v p' v' hv hv' hlaw => ?_⟩
    obtain ⟨q', hrun', -, hF', -⟩ := known p' v' hv'
    obtain ⟨q₀, hrun₀, -, -, hworst⟩ := hm.coherent .min p f hf.nonneg hf.length_eq
    cases hrun.symm.trans hrun₀
    rw [hF']
    exact hworst v p' v' q' hv hv'.nonneg hv'.length_eq hlaw hrun'

/-- **Measures that can be built are coherent.** For every measure that can be built, at any depth,
and in either sense, all outcomes whose probabilities are not negative have a loss: the value when
minimising, and minus the value of the negated objectives when maximising. It is monotone in the
objectives of possible outcomes, subadditive, multiplied and translated with the objectives, by the
mass that the measure gives to the outcomes, and the same for outcomes in another order and for an
outcome that is split into two with the same objective. -/
theorem Built.riskLaws_loss {m : Measure ℚ} (hm : m.Built) (sense : Sense) :
    ∃ F, (∀ p f, Weighed p f → m.loss sense p f = .ok (F p f)) ∧ RiskLaws m.massFactor F := by
  obtain ⟨F, hvalue, hF⟩ := hm.proper.exists_enveloped
  refine ⟨F, fun p f hf => ?_, hF.riskLaws⟩
  rw [loss_eq]
  exact hvalue p f hf

/-- Half of the sum of the worst case and a mixture of expectation and tail keeps the mass. Its loss
when maximising is seen at a mass of three quarters, where the outcome with the greatest loss is
impossible. -/
theorem riskLaws_loss_of_nested :
    ∃ (m : Measure ℚ) (F : List ℚ → List ℚ → ℚ), Built m ∧ m.massFactor = 1 ∧
      (∀ p f, Weighed p f → m.loss .max p f = .ok (F p f)) ∧ RiskLaws 1 F ∧
        F [1 / 4, 0, 1 / 2] [4, 9, 1] = 81 / 32 := by
  let mixed : Measure ℚ := weightedTail (1 / 4) (1 / 2)
  let both : Measure ℚ := mixture [(1, worstCase), (1, mixed)]
  let half : Measure ℚ := mixture [(1 / 2, both)]
  have hmixed : weightedTail? (.real (1 / 4)) (.real (1 / 2)) = .ok mixed := by
    with_unfolding_all rfl
  have hboth : join worstCase mixed = .ok both := by with_unfolding_all rfl
  have hhalf : scale (.real (1 / 2)) both = .ok half := by with_unfolding_all rfl
  have built : half.Built := .scale (.join .worstCase (.weightedTail hmixed) hboth) hhalf
  have factor : half.massFactor = 1 := by norm_num [half, both, mixed, massFactor, termsFactor]
  obtain ⟨F, hF, hlaws⟩ := built.riskLaws_loss .max
  rw [factor] at hlaws
  have order : worstFirst .min [(4 : ℚ), 9, 1] = [1, 0, 2] := by
    norm_num [worstFirst, ascends, List.mergeSort, List.MergeSort.Internal.splitInTwo, List.merge]
  have seen : half.loss .max [1 / 4, 0, 1 / 2] [4, 9, 1] = .ok (81 / 32) := by
    apply Except.eq_ok_of_toOption
    simp only [loss_eq, half, both, mixed, value, adjust, adjustTerms, adjustTail, order]
    decide +kernel
  have value := hF [1 / 4, 0, 1 / 2] [4, 9, 1] ⟨by norm_num, rfl⟩
  exact ⟨half, F, built, factor, hF, hlaws, Except.ok.inj (value.symm.trans seen)⟩

end Measure

end Multistage
