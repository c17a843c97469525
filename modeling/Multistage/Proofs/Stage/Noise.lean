import Mathlib.Tactic.NormNum
import Mathlib.Tactic.Linarith
import Multistage.Proofs.Except
import Multistage.Proofs.Scalar.Extended
import Multistage.Proofs.Stage.Declaring

/-!
# The noise terms of stages that were built

A stage has noise terms, and their probabilities have passed one check: their sum may not be far
from one. The check is a rejection, so that a sum that is not a number passes it, and it looks at
nothing but the sum, so that negative probabilities pass it if others make up for them.

## Main definitions

- `Stage.Passes`: the probabilities that pass the check.

## Main statements

- `ExactSum.ofData_eq_ok`: the sum of numbers given as data.
- `Stage.parameterize_answers_iff`: noise terms are accepted iff their probabilities pass the check
  and do not hold opposite infinities.
- `Stage.noise_of_build`: a stage that was built has noise terms that pass the check.
-/

namespace Multistage

open Extended (finite)

/-! ### Exact sums -/

namespace ExactSum

/-- What an exact sum knows of the scalars that were added. -/
structure Holds (s : ExactSum (Extended ℚ)) (xs : List (Extended ℚ)) : Prop where
  special : s.special = xs.filter fun x => !Scalar.isFinite x
  exact : ∀ qs : List ℚ, xs = qs.map finite → s.exact = qs.sum

theorem holds_zero : (zero : ExactSum (Extended ℚ)).Holds [] where
  special := rfl
  exact := fun qs hqs => by
    cases List.map_eq_nil_iff.1 hqs.symm
    rfl

/-- A scalar can always be added. -/
theorem Holds.add {s : ExactSum (Extended ℚ)} {xs : List (Extended ℚ)} (h : s.Holds xs)
    (x : Extended ℚ) : ∃ t, s.add x = .ok t ∧ t.Holds (xs ++ [x]) := by
  have last : ∀ {qs : List ℚ}, xs ++ [x] = qs.map finite →
      ∃ (before : List ℚ) (q : ℚ), qs = before ++ [q] ∧ xs = before.map finite ∧ x = finite q := by
    intro qs hqs
    obtain ⟨before, after, rfl, hbefore, hafter⟩ := List.map_eq_append_iff.1 hqs.symm
    obtain ⟨q, rest, rfl, hq, hrest⟩ := List.map_eq_cons_iff.1 hafter
    cases List.map_eq_nil_iff.1 hrest
    exact ⟨before, q, rfl, hbefore.symm, hq.symm⟩
  cases x with
  | finite q =>
    refine ⟨_, rfl, ?_, fun qs hqs => ?_⟩
    · show s.special = _
      rw [List.filter_append, h.special]
      exact (List.append_nil _).symm
    · obtain ⟨before, q', rfl, hbefore, hq⟩ := last hqs
      cases hq
      show s.exact + q = _
      rw [h.exact before hbefore, List.sum_append, List.sum_singleton]
  | posInf | negInf | nan =>
    refine ⟨_, rfl, ?_, fun qs hqs => ?_⟩
    · show s.special ++ _ = _
      rw [List.filter_append, h.special]
      rfl
    · obtain ⟨_, _, -, -, hx⟩ := last hqs
      cases hx

theorem mem_special {xs : List (Extended ℚ)} {v : Extended ℚ} (hv : Scalar.isFinite v = false) :
    v ∈ xs.filter (fun x => !Scalar.isFinite x) ↔ v ∈ xs := by
  rw [List.mem_filter, and_iff_left (by rw [hv]; rfl)]

/-- Nothing is left out of a sum by summing only what is not finite, if anything is. -/
theorem sum_special {xs : List (Extended ℚ)} (h : ∃ x ∈ xs, Scalar.isFinite x = false) :
    Scalar.sum (xs.filter fun x => !Scalar.isFinite x) = Scalar.sum xs := by
  cases hsum : Scalar.sum xs with
  | finite q =>
    obtain ⟨qs, rfl, -⟩ := Extended.sum_eq_finite.1 hsum
    obtain ⟨x, hmem, hx⟩ := h
    obtain ⟨q, -, rfl⟩ := List.mem_map.1 hmem
    cases hx
  | posInf =>
    rw [Extended.sum_eq_posInf] at hsum ⊢
    rwa [mem_special rfl, mem_special rfl, mem_special rfl]
  | negInf =>
    rw [Extended.sum_eq_negInf] at hsum ⊢
    rwa [mem_special rfl, mem_special rfl, mem_special rfl]
  | nan =>
    rw [Extended.sum_eq_nan, Extended.Undefined] at hsum ⊢
    rwa [mem_special rfl, mem_special rfl, mem_special rfl]

/-- An exact sum is the sum, unless it is of opposite infinities. -/
theorem Holds.rounded {s : ExactSum (Extended ℚ)} {xs : List (Extended ℚ)} (h : s.Holds xs) :
    s.rounded = if .posInf ∈ xs ∧ .negInf ∈ xs then .error .malformedNumber
      else .ok (Scalar.sum xs) := by
  have holds : ∀ v : Extended ℚ, Scalar.isFinite v = false →
      ((s.special.any fun x => decide (Scalar.exact x = v)) = true ↔ v ∈ xs) := by
    intro v hv
    rw [← mem_special hv, ← h.special, List.any_eq_true]
    exact ⟨fun ⟨x, hx, hxv⟩ => of_decide_eq_true hxv ▸ hx,
      fun hmem => ⟨v, hmem, decide_eq_true rfl⟩⟩
  unfold ExactSum.rounded
  by_cases hempty : s.special = []
  · have all : ∀ x ∈ xs, Scalar.isFinite x = true := by
      simpa [List.filter_eq_nil_iff] using h.special.symm.trans hempty
    obtain ⟨qs, rfl⟩ := Extended.exists_map_finite all
    have absent : .posInf ∉ qs.map finite := by simp
    rw [if_pos (List.isEmpty_iff.2 hempty), if_neg fun both => absent both.1, h.exact qs rfl]
    exact congrArg Except.ok (Extended.sum_eq_finite.2 ⟨qs, rfl, rfl⟩).symm
  · obtain ⟨x, hx⟩ := List.exists_mem_of_ne_nil _ hempty
    rw [h.special, List.mem_filter] at hx
    rw [if_neg fun h => hempty (List.isEmpty_iff.1 h)]
    simp only [Bool.and_eq_true, holds .posInf rfl, holds .negInf rfl]
    rw [h.special, sum_special ⟨x, hx.1, by simpa using hx.2⟩]

/-- The sum of numbers given as data. -/
theorem ofData_eq_ok {ds : List (Datum (Extended ℚ))} {sum : Extended ℚ} :
    ofData ds = .ok sum ↔ ∃ xs, ds.mapM Datum.asNumber = .ok xs ∧
      ¬(.posInf ∈ xs ∧ .negInf ∈ xs) ∧ sum = Scalar.sum xs := by
  have folded : ∀ (rest : List (Datum (Extended ℚ))) (xs : List (Extended ℚ))
      (s t : ExactSum (Extended ℚ)), s.Holds xs →
      (rest.foldlM (fun s d => do s.add (← d.asNumber)) s = .ok t →
        ∃ ys, rest.mapM Datum.asNumber = .ok ys ∧ t.Holds (xs ++ ys)) ∧
      (∀ ys, rest.mapM Datum.asNumber = .ok ys →
        ∃ t, rest.foldlM (fun s d => do s.add (← d.asNumber)) s = .ok t ∧ t.Holds (xs ++ ys)) := by
    intro rest
    induction rest with
    | nil =>
      intro xs s t hs
      rw [List.mapM_nil]
      constructor
      · rintro ⟨⟩
        exact ⟨[], rfl, by rwa [List.append_nil]⟩
      · rintro ys ⟨⟩
        exact ⟨s, rfl, by rwa [List.append_nil]⟩
    | cons d rest ih =>
      intro xs s t hs
      rw [List.foldlM_cons, List.mapM_cons]
      constructor
      · intro h
        obtain ⟨s', hs', h⟩ := Except.bind_eq_ok.1 h
        obtain ⟨x, hx, hs'⟩ := Except.bind_eq_ok.1 hs'
        obtain ⟨s'', hadd, hholds⟩ := hs.add x
        cases hadd.symm.trans hs'
        obtain ⟨ys, hys, ht⟩ := (ih _ _ t hholds).1 h
        exact ⟨x :: ys, Except.bind_eq_ok.2 ⟨x, hx, Except.bind_eq_ok.2 ⟨ys, hys, rfl⟩⟩,
          by rwa [List.append_assoc] at ht⟩
      · intro ys hys
        obtain ⟨x, hx, hys⟩ := Except.bind_eq_ok.1 hys
        obtain ⟨zs, hzs, hys⟩ := Except.bind_eq_ok.1 hys
        cases hys
        obtain ⟨s', hadd, hholds⟩ := hs.add x
        obtain ⟨t', hfold, ht⟩ := (ih _ _ t hholds).2 zs hzs
        refine ⟨t', Except.bind_eq_ok.2 ⟨s', Except.bind_eq_ok.2 ⟨x, hx, hadd⟩, hfold⟩, ?_⟩
        rwa [List.append_assoc] at ht
  unfold ofData
  rw [Except.bind_eq_ok]
  constructor
  · rintro ⟨t, hfold, hsum⟩
    obtain ⟨ys, hys, ht⟩ := (folded ds [] zero t holds_zero).1 hfold
    rw [List.nil_append] at ht
    rw [ht.rounded] at hsum
    split at hsum
    · cases hsum
    next hboth =>
      cases hsum
      exact ⟨ys, hys, hboth, rfl⟩
  · rintro ⟨xs, hxs, hboth, rfl⟩
    obtain ⟨t, hfold, ht⟩ := (folded ds [] zero zero holds_zero).2 xs hxs
    rw [List.nil_append] at ht
    exact ⟨t, hfold, by rw [ht.rounded, if_neg hboth]⟩

end ExactSum

namespace Stage

/-! ### The check -/

/-- The probabilities that are not refused for their sum: they are numbers that sum to one up to the
tolerance, or one of them is not a number. -/
def Passes (ps : List (Extended ℚ)) : Prop :=
  .nan ∈ ps ∨ ∃ qs : List ℚ, ps = qs.map finite ∧ |qs.sum - 1| ≤ mkRat 1 1000000000

/-- A sum is not refused iff it is close to one or not a number. -/
theorem not_far_iff {a : Extended ℚ} :
    ¬noiseTolerance < Scalar.abs (a - 1) ↔
      a = .nan ∨ ∃ q, a = finite q ∧ |q - 1| ≤ mkRat 1 1000000000 := by
  have tolerance : (noiseTolerance : Extended ℚ) = finite (mkRat 1 1000000000) := rfl
  rw [tolerance, Extended.one_eq]
  cases a with
  | finite q =>
    rw [Extended.finite_sub, Extended.abs_finite, Extended.finite_lt, not_lt]
    simp
  | nan =>
    exact iff_of_true (Extended.not_lt_nan _) (.inl rfl)
  | posInf => exact iff_of_false (fun h => h rfl) (by simp)
  | negInf => exact iff_of_false (fun h => h rfl) (by simp)

theorem passes_iff {ps : List (Extended ℚ)} (h : ¬(.posInf ∈ ps ∧ .negInf ∈ ps)) :
    ¬noiseTolerance < Scalar.abs (Scalar.sum ps - 1) ↔ Passes ps := by
  rw [not_far_iff, Extended.sum_eq_nan, Extended.Undefined, or_iff_left h]
  refine or_congr Iff.rfl ?_
  constructor
  · rintro ⟨q, hq, hnear⟩
    obtain ⟨qs, rfl, rfl⟩ := Extended.sum_eq_finite.1 hq
    exact ⟨qs, rfl, hnear⟩
  · rintro ⟨qs, rfl, hnear⟩
    exact ⟨qs.sum, Extended.sum_eq_finite.2 ⟨qs, rfl, rfl⟩, hnear⟩

theorem Passes.ne_nil {ps : List (Extended ℚ)} (h : Passes ps) : ps ≠ [] := by
  rintro rfl
  rcases h with h | ⟨qs, hqs, hnear⟩
  · cases h
  · cases List.map_eq_nil_iff.1 hqs.symm
    norm_num at hnear

/-! ### Declarations -/

variable {s : Stage (Extended ℚ)} {realizations : List (Datum (Extended ℚ))}
  {probabilities : Option (List (Datum (Extended ℚ)))} {edits : List (Edit (Extended ℚ))}

theorem length_noiseProbabilities {count : ℕ} {ds : List (Datum (Extended ℚ))}
    (h : noiseProbabilities count probabilities = .ok ds) : ds.length = count := by
  unfold noiseProbabilities at h
  split at h
  · split at h
    · cases h
    · cases h
      exact List.length_replicate
  · split at h
    · cases h
    next hlength =>
      cases h
      simpa using hlength

/-- The probabilities of as many noise terms as there are realizations. -/
theorem map_zipWith {ps : List (Extended ℚ)} (h : ps.length = realizations.length) :
    (List.zipWith NoiseTerm.mk realizations ps).map (·.probability) = ps := by
  refine List.ext_getElem (by simp [h]) fun i _ _ => ?_
  rw [List.getElem_map, List.getElem_zipWith]

/-- Noise terms that are declared passed the check; a failure to declare them changes nothing. -/
theorem triple_parameterize :
    Action.Triple (· = s) (parameterize realizations probabilities edits) (fun _ t =>
      ∃ (ds : List (Datum (Extended ℚ))) (ps : List (Extended ℚ)),
        noiseProbabilities realizations.length probabilities = .ok ds ∧
        ds.mapM Datum.asNumber = .ok ps ∧ Passes ps ∧ ¬(.posInf ∈ ps ∧ .negInf ∈ ps) ∧
        ps.length = realizations.length ∧
        t = { s with noise := List.zipWith NoiseTerm.mk realizations ps, edits := edits })
      (· = s) := by
  unfold parameterize
  refine .get_bind ?_
  rintro s rfl
  refine .refuse (b := ()) (fun _ h => h) fun _ => ?_
  refine .ofExcept_bind (fun ds hds => ?_) fun _ h => h
  refine .ofExcept_bind (fun sum hsum => ?_) fun _ h => h
  refine .refuse (b := ()) (fun _ h => h) fun hnear => ?_
  refine .ofExcept_bind (fun ps hps => .modify ?_) fun _ h => h
  rintro _ rfl
  obtain ⟨xs, hxs, hboth, rfl⟩ := ExactSum.ofData_eq_ok.1 hsum
  cases hxs.symm.trans hps
  exact ⟨ds, ps, hds, hps, (passes_iff hboth).1 hnear, hboth,
    (Except.mapM_eq_ok.1 hps).length_eq.symm.trans (length_noiseProbabilities hds), rfl⟩

/-- Noise terms are accepted iff their probabilities pass the check and do not hold opposite
infinities. No sign is looked at, and one probability that is not a number is enough. -/
theorem parameterize_answers_iff (hnew : s.noise = []) {ds : List (Datum (Extended ℚ))}
    {ps : List (Extended ℚ)} (hds : noiseProbabilities realizations.length probabilities = .ok ds)
    (hps : ds.mapM Datum.asNumber = .ok ps) :
    (∃ t, parameterize realizations probabilities edits s = .ok () t) ↔
      Passes ps ∧ ¬(.posInf ∈ ps ∧ .negInf ∈ ps) := by
  constructor
  · rintro ⟨t, ht⟩
    obtain ⟨ds', ps', hds', hps', hpasses, hboth, -⟩ := triple_parameterize.ok rfl ht
    cases hds.symm.trans hds'
    cases hps.symm.trans hps'
    exact ⟨hpasses, hboth⟩
  · rintro ⟨hpasses, hboth⟩
    have hsum : ExactSum.ofData ds = .ok (Scalar.sum ps) :=
      ExactSum.ofData_eq_ok.2 ⟨ps, hps, hboth, rfl⟩
    have answers : Action.Triple (· = s) (parameterize realizations probabilities edits)
        (fun _ _ => True) fun _ => False := by
      unfold parameterize
      refine .get_bind ?_
      rintro s rfl
      refine .ite (fun hold => absurd hold (by rw [hnew]; simp)) fun _ => ?_
      refine .answered_bind hds (.answered_bind hsum ?_)
      refine .ite (fun hfar => absurd hfar ((passes_iff hboth).2 hpasses)) fun _ => ?_
      exact .answered_bind hps (.modify fun _ _ => trivial)
    obtain ⟨_, t, ht, -⟩ := answers.exists_ok rfl
    exact ⟨t, ht⟩

/-- A stage that was built has noise terms, whose probabilities pass the check. -/
theorem noise_of_build {index : Datum (Extended ℚ)} {owner : ℕ} {plan : StagePlan (Extended ℚ)}
    (h : build index owner plan = .ok s) : Passes (s.noise.map (·.probability)) := by
  have declared : Action.Ensures
      (fun s => s.noise = [] ∨ Passes (s.noise.map (·.probability))) (declare plan)
      fun _ => True := by
    refine ensures_declare (fun _ _ => id) (fun _ _ _ => id) (fun _ _ => id) (fun _ _ _ => ?_) plan
    refine .of_forall fun s hs => triple_parameterize.consequence (fun _ => id) ?_ ?_
    · rintro _ _ ⟨ds, ps, -, -, hpasses, -, hlength, rfl⟩
      exact ⟨.inr (by rwa [map_zipWith hlength]), trivial⟩
    · rintro _ rfl
      exact hs
  unfold build at h
  split at h
  next s' hrun =>
    cases h
    rcases (declared.ok (.inl rfl) hrun).1 with hnone | hpasses
    · rw [hnone]
      exact .inr ⟨[1], rfl, by norm_num⟩
    · rw [if_neg]
      · exact hpasses
      · intro hempty
        rw [List.isEmpty_iff.1 hempty] at hpasses
        exact hpasses.ne_nil rfl
  next => cases h

end Stage

end Multistage
