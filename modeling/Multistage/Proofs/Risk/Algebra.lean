import Mathlib.Algebra.BigOperators.Group.List.Basic
import Multistage.Proofs.Risk.Mass
import Multistage.Proofs.Risk.Writing

/-!
# Sums and multiples of measures

The sum of two measures is kept as one list of weighted terms: weighted sums are dissolved into it,
and everything else is a term of weight one, also the mixture of expectation and tail. What counts
of a measure is what it writes, and there none of this is seen: effects form a commutative monoid on
which numbers act, and the effects of sums and multiples of measures are the sums and multiples of
their effects.

## Main definitions

- `Effect`: what may be written for given probabilities and objectives.
- `Measure.effect`: the effect of a measure.
- `Measure.Writes`: a measure has an effect, whatever vectors held before.

## Main statements

- `Measure.effect_mixture`: the effect of a weighted sum.
- `Measure.effect_of_join`, `Measure.effect_of_scale`: the effects of sums and multiples.
- `Measure.writes_sums`: the algebra of the measures that can be built.
-/

namespace Multistage

/-- What is written for given probabilities and objectives: as many entries as there are
probabilities, unless the objectives do not fit them. -/
@[ext]
structure Effect where
  run : Sense → (p f : List ℚ) → Except (Failure ℚ) (List ℚ)
  sized : ∀ sense p f, Measure.Sized p f (run sense p f)

namespace Effect

variable {E F : Effect} {sense : Sense} {p f : List ℚ}

/-! ### Vectors -/

theorem add_zeros {q p : List ℚ} (h : q.length = p.length) :
    List.zipWith (· + ·) q (p.map fun _ => 0) = q := by
  apply List.ext_getElem
  · simp [h]
  · simp

theorem add_vectors_comm (q r : List ℚ) : List.zipWith (· + ·) q r = List.zipWith (· + ·) r q :=
  List.zipWith_comm_of_comm add_comm

theorem add_vectors_assoc (q r s : List ℚ) :
    List.zipWith (· + ·) (List.zipWith (· + ·) q r) s =
      List.zipWith (· + ·) q (List.zipWith (· + ·) r s) := by
  apply List.ext_getElem
  · simp [Nat.min_assoc]
  · simp [add_assoc]

/-! ### Sums and multiples -/

/-- Write zeros. -/
instance : Zero Effect where
  zero :=
    { run := fun _ p _ => .ok (p.map fun _ => 0)
      sized := fun _ _ _ => .ok (List.length_map _) }

/-- Write the sums of the entries that two effects write. -/
instance : Add Effect where
  add E F :=
    { run := fun sense p f => do
        let q ← E.run sense p f
        let r ← F.run sense p f
        return List.zipWith (· + ·) q r
      sized := fun sense p f => (E.sized sense p f).bind fun q hq =>
        (F.sized sense p f).bind fun r hr =>
        .ok (by rw [List.length_zipWith, hq, hr, Nat.min_self]) }

/-- Write the multiples of the entries that an effect writes. -/
instance : SMul ℚ Effect where
  smul x E :=
    { run := fun sense p f => do
        let q ← E.run sense p f
        return q.map (x * ·)
      sized := fun sense p f => (E.sized sense p f).bind fun q hq =>
        .ok (by rw [List.length_map, hq]) }

@[simp] theorem run_zero : (0 : Effect).run sense p f = .ok (p.map fun _ => 0) := rfl

@[simp] theorem run_add : (E + F).run sense p f = (do
    let q ← E.run sense p f
    let r ← F.run sense p f
    return List.zipWith (· + ·) q r) := rfl

@[simp] theorem run_smul {x : ℚ} : (x • E).run sense p f = (do
    let q ← E.run sense p f
    return q.map (x * ·)) := rfl

theorem ext_run (h : ∀ sense p f, E.run sense p f = F.run sense p f) : E = F := by
  ext1
  funext sense p f
  exact h sense p f

protected theorem add_comm (E F : Effect) : E + F = F + E := by
  apply ext_run
  intro sense p f
  rw [run_add, run_add]
  -- both orders fail in the same way
  rcases E.sized sense p f with ⟨hq, -⟩ | ⟨q, hq, -⟩ <;>
    rcases F.sized sense p f with ⟨hr, -⟩ | ⟨r, hr, -⟩ <;> rw [hq, hr]
  · rfl
  · rfl
  · exact congrArg Except.ok (add_vectors_comm q r)

protected theorem add_assoc (E F G : Effect) : E + F + G = E + (F + G) := by
  apply ext_run
  intro sense p f
  simp only [run_add, bind_assoc, pure_bind, add_vectors_assoc]

protected theorem add_zero (E : Effect) : E + 0 = E := by
  apply ext_run
  intro sense p f
  rw [run_add, run_zero]
  rcases E.sized sense p f with ⟨hq, -⟩ | ⟨q, hq, hlength⟩ <;> rw [hq]
  · rfl
  · exact congrArg Except.ok (add_zeros hlength)

instance : AddCommMonoid Effect where
  add_assoc := Effect.add_assoc
  add_comm := Effect.add_comm
  add_zero := Effect.add_zero
  zero_add E := (Effect.add_comm 0 E).trans (Effect.add_zero E)
  nsmul := nsmulRec

protected theorem one_smul (E : Effect) : (1 : ℚ) • E = E := by
  apply ext_run
  intro sense p f
  simp only [run_smul, one_mul, List.map_id', bind_pure]

end Effect

namespace Measure

variable {sense : Sense} {p f : List ℚ}

/-! ### Effects of measures -/

/-- The effect of a measure. -/
def effect (m : Measure ℚ) : Effect where
  run sense p f := m.adjust sense p f
  sized _ _ _ := sized_adjust m

/-- A measure has an effect on a vector, whatever that and new vectors hold. -/
def Writes (m : Measure ℚ) (E : Effect) : Prop :=
  ∀ {sense : Sense} {p f : List ℚ} {memory : Memory ℚ} {out : List ℚ}, memory.Fits p.length →
    out.length = p.length → m.write sense p f memory out = E.run sense p f

/-- One vector shows the effect. -/
theorem Writes.run_eq {m : Measure ℚ} {E : Effect} {memory : Memory ℚ} {out : List ℚ}
    {q : Except (Failure ℚ) (List ℚ)} (h : m.Writes E) (hmemory : memory.Fits p.length)
    (hout : out.length = p.length) (hrun : m.write sense p f memory out = q) :
    E.run sense p f = q :=
  (h hmemory hout).symm.trans hrun

theorem writes_effect (m : Measure ℚ) : m.Writes m.effect :=
    fun hmemory h => m.write_eq_adjust hmemory h

theorem addScaled_eq (weight : ℚ) (q r : List ℚ) :
    addScaled weight q r = List.zipWith (· + ·) q (r.map (weight * ·)) := by
  rw [addScaled, List.zipWith_map_right]

/-- The weighted sum of the effects of the terms. -/
def termsEffect (terms : List (ℚ × Measure ℚ)) : Effect := (terms.map fun t => t.1 • t.2.effect).sum

theorem adjustTerms_eq (terms : List (ℚ × Measure ℚ)) {sum : List ℚ} (h : sum.length = p.length) :
    adjustTerms sense p f terms sum = (do
      let r ← (termsEffect terms).run sense p f
      return List.zipWith (· + ·) sum r) := by
  induction terms generalizing sum with
  | nil => exact (congrArg Except.ok (Effect.add_zeros h)).symm
  | cons t rest ih =>
    obtain ⟨weight, m⟩ := t
    rw [adjustTerms, termsEffect, List.map_cons, List.sum_cons, Effect.run_add, Effect.run_smul]
    rcases m.effect.sized sense p f with ⟨hq, -⟩ | ⟨q, hq, hlength⟩
    · rw [hq, show m.adjust sense p f = _ from hq]
      rfl
    · rw [hq, show m.adjust sense p f = _ from hq]
      refine (ih (length_addScaled h hlength)).trans ?_
      simp only [addScaled_eq, Effect.add_vectors_assoc]
      show _ = (do
        let r ← (termsEffect rest).run sense p f
        return List.zipWith (· + ·) (q.map (weight * ·)) r) >>= _
      rw [bind_assoc]
      rfl

/-- The effect of a weighted sum is the weighted sum of the effects. -/
theorem effect_mixture (terms : List (ℚ × Measure ℚ)) :
    (mixture terms).effect = termsEffect terms := by
  apply Effect.ext_run
  intro sense p f
  show adjustTerms sense p f terms _ = _
  rw [adjustTerms_eq terms (List.length_map _)]
  exact congrArg (Effect.run · sense p f) (zero_add (termsEffect terms))

theorem termsEffect_append (terms terms' : List (ℚ × Measure ℚ)) :
    termsEffect (terms ++ terms') = termsEffect terms + termsEffect terms' := by
  rw [termsEffect, List.map_append, List.sum_append]
  rfl

/-- A measure contributes its own effect to a sum. -/
theorem termsEffect_weighted (m : Measure ℚ) : termsEffect m.weighted = m.effect := by
  cases m with
  | mixture terms => exact (effect_mixture terms).symm
  | _ => simp only [weighted, termsEffect, List.map_cons, List.map_nil, List.sum_cons, List.sum_nil,
      add_zero, Effect.one_smul]

/-- The effect of a sum is the sum of the effects. -/
theorem effect_of_join {m n s : Measure ℚ} (h : join m n = .ok s) :
    s.effect = m.effect + n.effect := by
  rw [(join_eq_ok.1 h).2, effect_mixture, termsEffect_append, termsEffect_weighted,
    termsEffect_weighted]

/-- The effect of a multiple is the multiple of the effect. -/
theorem effect_of_scale {weight : Datum ℚ} {x : ℚ} {m s : Measure ℚ} (hx : weight.toScalar = .ok x)
    (h : scale weight m = .ok s) : s.effect = x • m.effect := by
  obtain ⟨x', hx', -, rfl⟩ := scale_eq_ok.1 h
  cases hx.symm.trans hx'
  rw [effect_mixture, termsEffect, List.map_singleton, List.sum_singleton]

/-- The mixture of expectation and tail has the effects of both. -/
theorem effect_weightedTail (weight level : ℚ) :
    (weightedTail weight level).effect =
      weight • expectation.effect + (1 - weight) • (tail level).effect := by
  have terms : (weightedTail weight level).effect =
      (mixture [(weight, expectation), (1 - weight, tail level)]).effect :=
    Effect.ext_run fun sense p f => adjust_weightedTail sense p f weight level
  rw [terms, effect_mixture]
  simp only [termsEffect, List.map_cons, List.map_nil, List.sum_cons, List.sum_nil, add_zero]

/-! ### What can be built -/

theorem Proper.nonneg_weighted {m : Measure ℚ} (h : m.Proper) : ∀ t ∈ m.weighted, 0 ≤ t.1 := by
  cases h with
  | mixture hweights _ => exact hweights
  | _ => simp [weighted]

/-- What is built has an effect. -/
def Yields (built : Except (Failure ℚ) (Measure ℚ)) (E : Effect) : Prop :=
  ∃ m, built = .ok m ∧ m.Built ∧ m.Writes E

theorem yields_scale {m : Measure ℚ} (hm : m.Built) {weight : Datum ℚ} {x : ℚ}
    (hx : weight.toScalar = .ok x) (hpos : 0 ≤ x) : Yields (scale weight m) (x • m.effect) := by
  have h : scale weight m = .ok (mixture [(x, m)]) := scale_eq_ok.2 ⟨x, hx, hpos, rfl⟩
  refine ⟨_, h, .scale hm h, ?_⟩
  rw [← effect_of_scale hx h]
  exact writes_effect _

theorem exists_join {m n : Measure ℚ} (hm : m.Built) (hn : n.Built) :
    ∃ s, join m n = .ok s ∧ s.Built ∧ s.effect = m.effect + n.effect := by
  have nonneg : ∀ t ∈ m.weighted ++ n.weighted, 0 ≤ t.1 := by
    rw [List.forall_mem_append]
    exact ⟨hm.proper.nonneg_weighted, hn.proper.nonneg_weighted⟩
  have h := join_eq_ok.2 ⟨nonneg, rfl⟩
  exact ⟨_, h, .join hm hn h, effect_of_join h⟩

theorem yields_join {m n : Measure ℚ} (hm : m.Built) (hn : n.Built) :
    Yields (join m n) (m.effect + n.effect) := by
  obtain ⟨s, hs, built, heffect⟩ := exists_join hm hn
  exact ⟨s, hs, built, heffect ▸ writes_effect s⟩

theorem yields_join_join {l m n : Measure ℚ} (hl : l.Built) (hm : m.Built) (hn : n.Built) :
    Yields (do join (← join l m) n) (l.effect + m.effect + n.effect) := by
  obtain ⟨s, hs, built, heffect⟩ := exists_join hl hm
  rw [← heffect, hs]
  exact yields_join built hn

/-- **The algebra of measures.** Whatever vectors held before, measures that can be built write
vectors, for all probabilities and objectives and in either sense, and so do their sums and their
multiples by weights that are not negative: a multiple writes the multiple, and a sum writes the
sum, in any order and however it is nested. A mixture of expectation and tail writes the mixture of
theirs, and that is what it contributes between the terms of a sum. An effect fails only where there
are not as many objectives as probabilities. -/
theorem writes_sums {l m n : Measure ℚ} (hl : l.Built) (hm : m.Built) (hn : n.Built) :
    ∃ L M N : Effect, l.Writes L ∧ m.Writes M ∧ n.Writes N ∧
      (∀ weight x, weight.toScalar = .ok x → 0 ≤ x → Yields (scale weight m) (x • M)) ∧
      Yields (join m n) (M + N) ∧ Yields (join n m) (M + N) ∧
      Yields (do join (← join l m) n) (L + M + N) ∧ Yields (do join l (← join m n)) (L + M + N) ∧
      ∀ weight level e, weightedTail? weight level = .ok e →
        ∃ x a E P T, weight.asNumber = .ok x ∧ level.asNumber = .ok a ∧
          e.Writes E ∧ expectation.Writes P ∧ (tail a).Writes T ∧ E = x • P + (1 - x) • T ∧
          Yields (do join (← join m e) n) (M + E + N) := by
  refine ⟨l.effect, m.effect, n.effect, writes_effect l, writes_effect m, writes_effect n, ?_,
    ?_, ?_, ?_,
    ?_, ?_⟩
  · intro weight x hx hpos
    exact yields_scale hm hx hpos
  · exact yields_join hm hn
  · rw [add_comm]
    exact yields_join hn hm
  · exact yields_join_join hl hm hn
  · obtain ⟨s, hs, built, heffect⟩ := exists_join hm hn
    rw [add_assoc, ← heffect, hs]
    exact yields_join hl built
  · intro weight level e he
    obtain ⟨x, a, hx, ha, -, -, rfl⟩ := weightedTail?_eq_ok he
    exact ⟨x, a, _, _, _, hx, ha, writes_effect _, writes_effect expectation,
      writes_effect (tail a),
      effect_weightedTail x a, yields_join_join hm (.weightedTail he) hn⟩

/-- A mixture of expectation and tail between half of a sum with the same mixture and a tail,
written over nines with sevens in all new vectors. -/
theorem writes_sums_of_nested :
    ∃ (m e n s : Measure ℚ) (M E N : Effect), m.Built ∧ e.Built ∧ n.Built ∧
      (do join (← join m e) n) = .ok s ∧ m.Writes M ∧ e.Writes E ∧ n.Writes N ∧
      M.run .min [1 / 4, 0, 1 / 2] [4, 9, 1] = .ok [19 / 32, 0, 5 / 32] ∧
      E.run .min [1 / 4, 0, 1 / 2] [4, 9, 1] = .ok [7 / 16, 0, 5 / 16] ∧
      N.run .min [1 / 4, 0, 1 / 2] [4, 9, 1] = .ok [1 / 2, 0, 1 / 4] ∧
      s.write .min [1 / 4, 0, 1 / 2] [4, 9, 1] (fun _ => [7, 7, 7]) [9, 9, 9] =
        .ok [49 / 32, 0, 23 / 32] := by
  let mixed : Measure ℚ := weightedTail (1 / 4) (1 / 2)
  let both : Measure ℚ := mixture [(1, worstCase), (1, mixed)]
  let half : Measure ℚ := mixture [(1 / 2, both)]
  have level : tail? (.real (1 / 2)) = .ok (tail (1 / 2 : ℚ)) := by with_unfolding_all rfl
  have hmixed : weightedTail? (.real (1 / 4)) (.real (1 / 2)) = .ok mixed := by
    with_unfolding_all rfl
  have hboth : join worstCase mixed = .ok both := by with_unfolding_all rfl
  have hhalf : scale (.real (1 / 2)) both = .ok half := by with_unfolding_all rfl
  have built : half.Built := .scale (.join .worstCase (.weightedTail hmixed) hboth) hhalf
  obtain ⟨-, M, N, -, hM, hN, -, -, -, -, -, hmixture⟩ :=
    writes_sums .expectation built (.tail level)
  obtain ⟨-, -, E, -, -, -, -, hE, -, -, -, s, hs, -, hsum⟩ := hmixture _ _ _ hmixed
  let memory : Memory ℚ := fun _ => [7, 7, 7]
  have fits : memory.Fits 3 := fun _ => rfl
  have order : worstFirst .min [(4 : ℚ), 9, 1] = [1, 0, 2] := by
    norm_num [worstFirst, ascends, List.mergeSort, List.MergeSort.Internal.splitInTwo, List.merge]
  have wrote_half : half.write .min [1 / 4, 0, 1 / 2] [4, 9, 1] memory [9, 9, 9] =
      .ok [19 / 32, 0, 5 / 32] := by
    apply Except.eq_ok_of_toOption
    simp only [half, both, mixed, write, writeTerms, writeTail, order]
    decide +kernel
  have wrote_mixed : mixed.write .min [1 / 4, 0, 1 / 2] [4, 9, 1] memory [9, 9, 9] =
      .ok [7 / 16, 0, 5 / 16] := by
    apply Except.eq_ok_of_toOption
    simp only [mixed, write, writeTail, order]
    decide +kernel
  have wrote_tail : (tail (1 / 2)).write .min [1 / 4, 0, 1 / 2] [4, 9, 1] memory [9, 9, 9] =
      .ok [1 / 2, 0, 1 / 4] := by
    apply Except.eq_ok_of_toOption
    simp only [write, writeTail, order]
    decide +kernel
  have seenM := hM.run_eq fits rfl wrote_half
  have seenE := hE.run_eq fits rfl wrote_mixed
  have seenN := hN.run_eq fits rfl wrote_tail
  refine ⟨half, mixed, _, s, M, E, N, built, .weightedTail hmixed, .tail level, hs, hM,
    hE, hN, seenM,
    seenE, seenN, ?_⟩
  calc s.write .min [1 / 4, 0, 1 / 2] [4, 9, 1] memory [9, 9, 9]
      = (M + E + N).run .min [1 / 4, 0, 1 / 2] [4, 9, 1] := hsum fits rfl
    _ = .ok [49 / 32, 0, 23 / 32] := by
      rw [Effect.run_add, Effect.run_add, seenM, seenE, seenN]
      exact Except.eq_ok_of_toOption (by decide +kernel)

end Measure

end Multistage
