import Mathlib.Algebra.BigOperators.Ring.List
import Mathlib.Data.EReal.Basic
import Mathlib.Data.Finset.Max
import Mathlib.Tactic.FieldSimp
import Mathlib.Tactic.Linarith
import Mathlib.Tactic.Positivity
import Multistage.Proofs.Risk.Coherent

/-!
# Values of risk measures

A measure weighs rational outcomes. Outcomes that are extended real numbers are weighed by the worst
of the rational outcomes that are at most these.

## Main definitions

- `Sense.best`, `Sense.worst`: the optimum of a set of values, and the bound of a set of bounds.
- `Measure.riskOf`: the value of a measure at outcomes with probabilities.
- `SameMeans`: two lists of outcomes have the same law.

## Main statements

- `Measure.Coherent.sum_atMost`: adjusted probabilities weigh bounds of outcomes at most as the
  measure weighs the outcomes.
-/

namespace Multistage

namespace Sense

/-- The best of values that can be attained: the least when minimising. -/
noncomputable def best : Sense → Set EReal → EReal
  | min, s => sInf s
  | max, s => sSup s

/-- The worst of values: the greatest when minimising. -/
noncomputable def worst : Sense → Set EReal → EReal
  | min, s => sSup s
  | max, s => sInf s

variable {sense : Sense} {s : Set EReal} {t : EReal}

theorem atMost_best_iff : sense.AtMost t (sense.best s) ↔ ∀ r ∈ s, sense.AtMost t r := by
  cases sense with
  | min => exact le_sInf_iff
  | max => exact sSup_le_iff

theorem worst_atMost_iff : sense.AtMost (sense.worst s) t ↔ ∀ r ∈ s, sense.AtMost r t := by
  cases sense with
  | min => exact sSup_le_iff
  | max => exact le_sInf_iff

theorem atMost_worst {r : EReal} (h : r ∈ s) : sense.AtMost r (sense.worst s) :=
  worst_atMost_iff.1 (.refl sense _) r h

theorem atMost_coe_iff {a b : ℝ} :
    sense.AtMost (a : EReal) (b : EReal) ↔ (sense.sign : ℚ) * a ≤ (sense.sign : ℚ) * b := by
  rw [← atMost_iff_sign]
  cases sense with
  | min => exact EReal.coe_le_coe_iff
  | max => exact EReal.coe_le_coe_iff

/-- What is at most a value up to every error is at most the value. -/
theorem atMost_of_forall_error {a : ℝ}
    (h : ∀ δ : ℝ, 0 < δ → ∃ b : ℝ, (sense.sign : ℚ) * a - δ ≤ (sense.sign : ℚ) * b ∧
      sense.AtMost (b : EReal) t) : sense.AtMost (a : EReal) t := by
  induction t with
  | bot =>
    cases sense with
    | min =>
      obtain ⟨b, -, hb⟩ := h 1 one_pos
      exact absurd hb (not_le.2 (EReal.bot_lt_coe b))
    | max => exact (bot_le : (⊥ : EReal) ≤ a)
  | top =>
    cases sense with
    | min => exact (le_top : (a : EReal) ≤ ⊤)
    | max =>
      obtain ⟨b, -, hb⟩ := h 1 one_pos
      exact absurd hb (not_le.2 (EReal.coe_lt_top b))
  | coe t =>
    rw [atMost_coe_iff]
    refine le_of_forall_pos_le_add fun δ hδ => ?_
    obtain ⟨b, hab, hb⟩ := h δ hδ
    have := atMost_coe_iff.1 hb
    linarith

/-- A rational number that is at most a value, and at least as good as bounds of the value up to an
error. -/
theorem exists_rat_atMost {t : EReal} {bounds : List ℝ}
    (h : ∀ a ∈ bounds, sense.AtMost (a : EReal) t) {ε : ℝ} (hε : 0 < ε) :
    ∃ r : ℚ, (bounds ≠ [] → sense.AtMost ((r : ℝ) : EReal) t) ∧
      ∀ a ∈ bounds, (sense.sign : ℚ) * a - ε ≤ (sense.sign : ℚ) * (r : ℝ) := by
  by_cases hb : bounds = []
  · exact ⟨0, fun hne => absurd hb hne, fun a ha => by rw [hb] at ha; cases ha⟩
  · obtain ⟨m, hm, hmax⟩ := bounds.toFinset.exists_max_image (fun a => (sense.sign : ℚ) * a)
      (List.toFinset_nonempty_iff _ |>.2 hb)
    have hm := List.mem_toFinset.1 hm
    obtain ⟨r, hr, hr'⟩ :=
      exists_rat_btwn (show (sense.sign : ℚ) * m - ε < (sense.sign : ℚ) * m by linarith)
    -- the sign is its own inverse
    have signed : ((sense.sign : ℚ) : ℝ) * ((sense.sign * r : ℚ) : ℝ) = r := by
      rw [Rat.cast_mul, ← mul_assoc, cast_sign_mul_self, one_mul]
    refine ⟨sense.sign * r, fun _ => AtMost.trans ?_ (h m hm), fun a ha => ?_⟩
    · rw [atMost_coe_iff, signed]
      exact hr'.le
    · rw [signed]
      have := hmax a (List.mem_toFinset.2 ha)
      linarith

end Sense

/-- Every function of the outcomes has the same mean. -/
def SameMeans (outcomes outcomes' : List (ℚ × EReal)) : Prop :=
  ∀ g : EReal → ℚ, (outcomes.map fun o => o.1 * g o.2).sum =
    (outcomes'.map fun o => o.1 * g o.2).sum

namespace Measure

/-- The worst value of rational outcomes that are at most the given ones. -/
noncomputable def riskOf (sense : Sense) (m : Measure ℚ) (outcomes : List (ℚ × EReal)) : EReal :=
  sense.worst {r | ∃ u q, List.Forall₂ (fun (x : ℚ) (o : ℚ × EReal) =>
      sense.AtMost ((x : ℝ) : EReal) o.2) u outcomes ∧
    m.adjust sense (outcomes.map (·.1)) u = .ok q ∧ r = (((Scalar.dot q u : ℚ) : ℝ) : EReal)}

theorem dot_map (outcomes : List (ℚ × EReal)) (g : EReal → ℚ) :
    Scalar.dot (outcomes.map (·.1)) (outcomes.map fun o => g o.2) =
      (outcomes.map fun o => o.1 * g o.2).sum := by
  induction outcomes with
  | nil => rfl
  | cons o rest ih =>
    rw [List.map_cons, List.map_cons, List.map_cons, List.sum_cons, ← ih]
    exact Scalar.sum_cons _ _

theorem sum_sub_le_dot {s ε : ℝ} {value : EReal → ℚ} {outcomes : List (ℚ × EReal)} {bounds : List ℝ}
    (h : List.Forall₂ (fun a o => s * a - ε ≤ s * (value o.2 : ℝ)) bounds outcomes) {q : List ℚ}
    (hq : ∀ x ∈ q, 0 ≤ x) (hlength : q.length = bounds.length) :
    s * (List.zipWith (fun (a : ℚ) (b : ℝ) => (a : ℝ) * b) q bounds).sum - ε * ((q.sum : ℚ) : ℝ) ≤
      s * ((Scalar.dot q (outcomes.map fun o => value o.2) : ℚ) : ℝ) := by
  induction h generalizing q with
  | nil =>
    cases List.length_eq_zero_iff.1 hlength
    simp [Scalar.dot, Scalar.sum]
  | cons hao _ ih =>
    obtain ⟨x, rest, rfl⟩ : ∃ x rest, q = x :: rest := List.exists_cons_of_length_eq_add_one hlength
    have later := ih (fun y hy => hq y (List.mem_cons_of_mem _ hy)) (Nat.succ.inj hlength)
    have now := mul_le_mul_of_nonneg_left hao (Rat.cast_nonneg (K := ℝ).2 (hq x List.mem_cons_self))
    have step : ∀ (y : ℚ) (ys : List ℚ), Scalar.dot (x :: rest) (y :: ys) =
        x * y + Scalar.dot rest ys := fun y ys => Scalar.sum_cons _ _
    rw [List.map_cons, step, List.zipWith_cons_cons, List.sum_cons, List.sum_cons, Rat.cast_add,
      Rat.cast_add, Rat.cast_mul]
    linarith

/-- Outcomes that are bounded can be replaced by rational ones that are at most as good and a little
less than the bounds. -/
theorem exists_approximation {sense : Sense} {outcomes : List (ℚ × EReal)} {bounds : List ℝ}
    (h : List.Forall₂ (fun (a : ℝ) o => sense.AtMost (a : EReal) o.2) bounds outcomes) {ε : ℝ}
    (hε : 0 < ε) :
    ∃ value : EReal → ℚ, (∀ o ∈ outcomes, sense.AtMost ((value o.2 : ℝ) : EReal) o.2) ∧
      List.Forall₂ (fun a o => (sense.sign : ℚ) * a - ε ≤ (sense.sign : ℚ) * (value o.2 : ℝ))
        bounds outcomes := by
  obtain ⟨hsame, hzip⟩ := List.forall₂_iff_zip.1 h
  have near : ∀ v : EReal, ∃ r : ℚ,
      (∀ e ∈ bounds.zip outcomes, e.2.2 = v → sense.AtMost ((r : ℝ) : EReal) v) ∧
        ∀ e ∈ bounds.zip outcomes, e.2.2 = v →
          (sense.sign : ℚ) * e.1 - ε ≤ (sense.sign : ℚ) * (r : ℝ) := by
    intro v
    classical
    -- the bounds of the outcomes with this value
    have at_v : ∀ e ∈ bounds.zip outcomes, e.2.2 = v →
        e.1 ∈ ((bounds.zip outcomes).filter fun e => e.2.2 = v).map (·.1) := fun e he hv =>
      List.mem_map_of_mem (List.mem_filter.2 ⟨he, decide_eq_true hv⟩)
    have bounded : ∀ a : ℝ, a ∈ ((bounds.zip outcomes).filter fun e => e.2.2 = v).map (·.1) →
        sense.AtMost (a : EReal) v := by
      intro a ha
      obtain ⟨e, he, rfl⟩ := List.mem_map.1 ha
      obtain ⟨he, hv⟩ := List.mem_filter.1 he
      rw [← of_decide_eq_true hv]
      exact hzip he
    obtain ⟨r, hr, hr'⟩ := Sense.exists_rat_atMost bounded hε
    exact ⟨r, fun e he hv => hr (List.ne_nil_of_mem (at_v e he hv)), fun e he hv =>
      hr' e.1 (at_v e he hv)⟩
  choose value hvalue hnear using near
  refine ⟨value, fun o ho => ?_,
    List.forall₂_iff_zip.2 ⟨hsame, fun {a o} he => hnear o.2 (a, o) he rfl⟩⟩
  obtain ⟨k, hk⟩ := List.getElem?_of_mem ho
  obtain ⟨hlt, hget⟩ := List.getElem?_eq_some_iff.1 hk
  have hkb : k < bounds.length := by omega
  have mem : (bounds[k], o) ∈ bounds.zip outcomes := by
    rw [← hget, ← List.getElem_zip (h := by rw [List.length_zip]; omega)]
    exact List.getElem_mem _
  exact hvalue o.2 _ mem rfl

theorem nonneg_of_mem_map {outcomes : List (ℚ × EReal)} (h : ∀ o ∈ outcomes, 0 ≤ o.1) :
    ∀ a ∈ outcomes.map (·.1), 0 ≤ a := by
  intro a ha
  obtain ⟨o, ho, rfl⟩ := List.mem_map.1 ha
  exact h o ho

/-- Outcomes with the same means have the same law, whatever numbers stand for the values. -/
theorem sameLaw_of_sameMeans {outcomes own : List (ℚ × EReal)} (h : SameMeans outcomes own)
    (value : EReal → ℚ) :
    SameLaw (outcomes.map (·.1)) (outcomes.map fun o => value o.2) (own.map (·.1))
      (own.map fun o => value o.2) := by
  intro g
  rw [List.map_map, List.map_map]
  exact (dot_map outcomes fun v => g (value v)).trans
    ((h fun v => g (value v)).trans (dot_map own fun v => g (value v)).symm)

/-- Adjusted probabilities weigh bounds of outcomes at most as the measure weighs outcomes of the
same law. -/
theorem Coherent.sum_atMost {m : Measure ℚ} (hm : m.Coherent) {sense : Sense}
    {outcomes own : List (ℚ × EReal)} (houtcomes : ∀ o ∈ outcomes, 0 ≤ o.1)
    (hown : ∀ o ∈ own, 0 ≤ o.1) (hmeans : SameMeans outcomes own)
    (hmem : ∀ o ∈ own, ∃ o' ∈ outcomes, o'.2 = o.2) {f q : List ℚ}
    (hf : f.length = outcomes.length) (hq : m.adjust sense (outcomes.map (·.1)) f = .ok q)
    {bounds : List ℝ}
    (hbounds : List.Forall₂ (fun (a : ℝ) o => sense.AtMost (a : EReal) o.2) bounds outcomes)
    {t : EReal} (ht : sense.AtMost (m.riskOf sense own) t) :
    sense.AtMost
      (((List.zipWith (fun (a : ℚ) (b : ℝ) => (a : ℝ) * b) q bounds).sum : ℝ) : EReal) t := by
  obtain ⟨q₀, hq₀, hlength, hnonneg, hworst⟩ := hm sense (outcomes.map (·.1)) f
    (nonneg_of_mem_map houtcomes) (by rw [List.length_map, hf])
  cases hq.symm.trans hq₀
  rw [List.length_map] at hlength
  have mass : 0 ≤ ((q.sum : ℚ) : ℝ) := Rat.cast_nonneg.2 (List.sum_nonneg hnonneg)
  refine Sense.atMost_of_forall_error fun δ hδ => ?_
  have hε : 0 < δ / (((q.sum : ℚ) : ℝ) + 1) := by positivity
  obtain ⟨value, below, close⟩ := exists_approximation hbounds hε
  -- the adjusted probabilities weigh the approximation at most as those of the own outcomes do
  obtain ⟨q', hq', -⟩ := hm sense (own.map (·.1)) (own.map fun o => value o.2)
    (nonneg_of_mem_map hown) (by rw [List.length_map, List.length_map])
  have ordered :=
    hworst _ _ _ q' (by rw [List.length_map, List.length_map]) (nonneg_of_mem_map hown)
    (by rw [List.length_map, List.length_map]) (sameLaw_of_sameMeans hmeans value) hq'
  have own_below :
      sense.AtMost (((Scalar.dot q' (own.map fun o => value o.2) : ℚ) : ℝ) : EReal) t := by
    refine Sense.worst_atMost_iff.1 ht _ ⟨own.map fun o => value o.2, q', ?_, hq', rfl⟩
    rw [List.forall₂_map_left_iff, List.forall₂_same]
    intro o ho
    obtain ⟨o', ho', heq⟩ := hmem o ho
    rw [← heq]
    exact below o' ho'
  refine ⟨((Scalar.dot q (outcomes.map fun o => value o.2) : ℚ) : ℝ), ?_, ?_⟩
  · have sums := sum_sub_le_dot close hnonneg (hlength.trans hbounds.length_eq.symm)
    have : δ / (((q.sum : ℚ) : ℝ) + 1) * ((q.sum : ℚ) : ℝ) ≤ δ := by
      rw [div_mul_eq_mul_div, div_le_iff₀ (by positivity)]
      nlinarith
    linarith
  · refine Sense.AtMost.trans ?_ own_below
    rw [Sense.atMost_coe_iff]
    exact_mod_cast Sense.atMost_iff_sign_mul_le.1 ordered

/-- Weights that are not negative keep the order. -/
theorem sum_atMost_dot {sense : Sense} {bounds : List ℝ} {v : List ℚ}
    (h : List.Forall₂ (fun (a : ℝ) (b : ℚ) => sense.AtMost a (b : ℝ)) bounds v) {q : List ℚ}
    (hq : ∀ a ∈ q, 0 ≤ a) :
    sense.AtMost (List.zipWith (fun (a : ℚ) (b : ℝ) => (a : ℝ) * b) q bounds).sum
      ((Scalar.dot q v : ℚ) : ℝ) := by
  induction h generalizing q with
  | nil =>
    cases q <;> simp [Scalar.dot, Scalar.sum, Sense.AtMost.refl]
  | cons hab _ ih =>
    cases q with
    | nil => simp [Scalar.dot, Scalar.sum, Sense.AtMost.refl]
    | cons x rest =>
      have later := Sense.atMost_iff_sign.1 (ih fun y hy => hq y (List.mem_cons_of_mem _ hy))
      have now := mul_le_mul_of_nonneg_left (Sense.atMost_iff_sign.1 hab)
        (Rat.cast_nonneg (K := ℝ).2 (hq x List.mem_cons_self))
      have step : ∀ (y : ℚ) (ys : List ℚ), Scalar.dot (x :: rest) (y :: ys) =
          x * y + Scalar.dot rest ys := fun y ys => Scalar.sum_cons _ _
      rw [Sense.atMost_iff_sign, step, List.zipWith_cons_cons, List.sum_cons, Rat.cast_add,
        Rat.cast_mul]
      linarith

/-- Adjusted probabilities weigh bounds of values at most as those that are adjusted to these do. -/
theorem Coherent.sum_atMost_dot {m : Measure ℚ} (hm : m.Coherent) {sense : Sense}
    {p f q v q' : List ℚ}
    (hp : ∀ a ∈ p, 0 ≤ a) (hf : f.length = p.length) (hq : m.adjust sense p f = .ok q)
    (hv : v.length = p.length) {bounds : List ℝ}
    (hbounds : List.Forall₂ (fun (a : ℝ) (b : ℚ) => sense.AtMost a (b : ℝ)) bounds v)
    (hq' : m.adjust sense p v = .ok q') :
    sense.AtMost (List.zipWith (fun (a : ℚ) (b : ℝ) => (a : ℝ) * b) q bounds).sum
      ((Scalar.dot q' v : ℚ) : ℝ) := by
  obtain ⟨q₀, hq₀, -, hnonneg, hworst⟩ := hm sense p f hp hf
  cases hq.symm.trans hq₀
  have worst := Sense.atMost_iff_sign_mul_le.1 (hworst v p v q' hv hp hv (fun _ => rfl) hq')
  refine (Measure.sum_atMost_dot hbounds hnonneg).trans (Sense.atMost_iff_sign.2 ?_)
  exact_mod_cast worst

/-- Outcomes that are no better than zero are not weighed as better than zero. -/
theorem Coherent.zero_atMost_riskOf {m : Measure ℚ} (hm : m.Coherent) {sense : Sense}
    {outcomes : List (ℚ × EReal)} (houtcomes : ∀ o ∈ outcomes, 0 ≤ o.1)
    (h : ∀ o ∈ outcomes, sense.AtMost 0 o.2) : sense.AtMost 0 (m.riskOf sense outcomes) := by
  obtain ⟨q, hq, hlength, -⟩ := hm sense (outcomes.map (·.1)) (outcomes.map fun _ => 0)
    (nonneg_of_mem_map houtcomes) (by rw [List.length_map, List.length_map])
  refine Sense.atMost_worst ⟨outcomes.map fun _ => 0, q, ?_, hq, ?_⟩
  · rw [List.forall₂_map_left_iff, List.forall₂_same]
    intro o ho
    rw [Rat.cast_zero]
    exact h o ho
  · have zeros : (outcomes.map fun _ => (0 : ℚ)) = q.map fun _ => 0 := by
      rw [List.map_const', List.map_const', hlength, List.length_map]
    rw [zeros, Scalar.dot_comm, dot_zeros rfl]
    simp

end Measure

end Multistage
