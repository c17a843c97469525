import Multistage.Proofs.Node.Succession
import Multistage.Proofs.Risk.Laws
import Multistage.Proofs.Settles
import Multistage.Session

/-!
# Cuts of outcomes in another order

A measure that can be built adjusts the probabilities of outcomes by their place in the list, where
outcomes are equally bad. The value does not depend on that: it has the law of the outcomes only. So
the cut that a refinement makes has the same height at its state in whichever order the children
were solved, although its slope may be another one. The expectation keeps the probabilities, and the
cut is the same.

## Main definitions

- `Cut.plane`: the intercept and the coefficients of a cut.
- `Cut.AgreesAt`: two cuts of the same height.

## Main statements

- `Measure.Coherent.exists_adjust_of_perm`: the value of outcomes in another order.
- `Node.rel_newCut`: the new cuts.
-/

namespace Multistage

/-! ### Cuts -/

/-- The intercept and the coefficients of a cut. -/
def Cut.plane (c : Cut ℚ) : ℚ × State ℚ := (c.intercept, c.coefficients)

theorem Cut.plane_congr (c d : Cut ℚ) (hintercept : c.intercept = d.intercept)
    (hcoefficients : c.coefficients = d.coefficients) : c.plane = d.plane := by
  rw [plane, plane, hintercept, hcoefficients]

/-- Two cuts have the same height at a state, and are the same if the measure is the expectation. -/
structure Cut.AgreesAt (measure : Measure ℚ) (x : State ℚ) (c' c : Cut ℚ) : Prop where
  height : c'.value x.profile = c.value x.profile
  plane : measure = .expectation → c'.plane = c.plane

/-- Whether cuts agree depends on their intercepts and their coefficients. -/
theorem Cut.AgreesAt.of_plane_eq {measure : Measure ℚ} {x : State ℚ} {c c' d d' : Cut ℚ}
    (h : c'.AgreesAt measure x c)
    (hd : d.plane = c.plane) (hd' : d'.plane = c'.plane) : d'.AgreesAt measure x d := by
  have value_eq : ∀ {a b : Cut ℚ}, a.plane = b.plane → a.value = b.value := fun {a b} hab => by
    funext y
    rw [Cut.value, Cut.value, show a.intercept = b.intercept from congrArg Prod.fst hab,
      show a.coefficients = b.coefficients from congrArg Prod.snd hab]
  refine ⟨?_, fun hmeasure => ?_⟩
  · rw [value_eq hd, value_eq hd', h.height]
  · rw [hd, hd', h.plane hmeasure]

/-! ### Values -/

theorem dot_map_map_of_perm {κ : Type} {os os' : List κ} (h : os'.Perm os) (w v : κ → ℚ) :
    Scalar.dot (os'.map w) (os'.map v) = Scalar.dot (os.map w) (os.map v) := by
  have sums : ∀ us : List κ, Scalar.dot (us.map w) (us.map v) =
      (us.map fun o => w o * v o).sum := fun us => by
    rw [Scalar.dot, Scalar.sum_eq_listSum, List.zipWith_map, List.zipWith_self]
  rw [sums, sums, (h.map _).sum_eq]

/-- Outcomes in another order may be weighed otherwise, but they have the same value. -/
theorem Measure.Coherent.exists_adjust_of_perm {m : Measure ℚ} (hm : m.Coherent)
    (sense : Sense) {κ : Type}
    {p f : κ → ℚ} {os os' : List κ} (h : os'.Perm os) (hp : ∀ o ∈ os, 0 ≤ p o) :
    ∃ q q', m.adjust sense (os.map p) (os.map f) = .ok q ∧ q.length = os.length ∧
      m.adjust sense (os'.map p) (os'.map f) = .ok q' ∧ q'.length = os'.length ∧
        Scalar.dot q' (os'.map f) = Scalar.dot q (os.map f) := by
  have nonneg : ∀ a ∈ os.map p, 0 ≤ a := by simpa using hp
  have nonneg' : ∀ a ∈ os'.map p, 0 ≤ a := by simpa [h.mem_iff] using hp
  have lengths : ∀ us : List κ, (us.map f).length = (us.map p).length := fun us => by simp
  have law : SameLaw (os.map p) (os.map f) (os'.map p) (os'.map f) := .of_perm (by
    rw [List.zip_map', List.zip_map']
    exact h.symm.map _)
  obtain ⟨q, hq, hlength, -, hworst⟩ := hm sense _ _ nonneg (lengths os)
  obtain ⟨q', hq', hlength', -, hworst'⟩ := hm sense _ _ nonneg' (lengths os')
  refine ⟨q, q', hq, by simpa using hlength, hq', by simpa using hlength', ?_⟩
  -- each value is the worst that the law allows
  exact (hworst' _ _ _ q (lengths os') nonneg (lengths os) law.symm hq).antisymm
    (hworst _ _ _ q' (lengths os) nonneg' (lengths os') law hq')

theorem Measure.Coherent.value_of_perm {m : Measure ℚ} (hm : m.Coherent) (sense : Sense) {κ : Type}
    {p f : κ → ℚ} {os os' : List κ} (h : os'.Perm os) (hp : ∀ o ∈ os, 0 ≤ p o) :
    m.value sense (os'.map p) (os'.map f) = m.value sense (os.map p) (os.map f) := by
  obtain ⟨q, q', hq, -, hq', -, hvalue⟩ := hm.exists_adjust_of_perm sense (f := f) h hp
  rw [value, value, hq, hq']
  exact congrArg Except.ok hvalue

namespace Node

variable {sense : Sense} {measure : Measure ℚ} {x : State ℚ} {duals : List (State ℚ)}
  {p f q : List ℚ} {c : Cut ℚ}
  {height : ℚ} {results results' : List (ChildSolution ℚ)}

/-! ### New cuts -/

/-- Duals can be read iff all of them have all names. -/
theorem readDuals_eq_ok_iff {names : List Name} {rows : List (List ℚ)} :
    readDuals names duals = .ok rows ↔ (∀ d ∈ duals, ∀ name ∈ names, ∃ v, d.get? name = some v) ∧
      rows = duals.map fun d => names.map fun name => d.getD name 0 := by
  rw [readDuals_eq]
  constructor
  · intro h
    have row : ∀ (d : State ℚ) (row : List ℚ),
        (names.mapM fun name => (d.get? name).elim (.error .missingKey) .ok :
        Except (Failure ℚ) (List ℚ)) = .ok row →
        row = names.map fun name => d.getD name 0 := fun d row hrow => by
      rw [← List.map_id row]
      refine Except.map_eq_of_mapM hrow fun name _ v hv => ?_
      rw [Dict.getD, Except.elim_eq_ok.1 hv]
      rfl
    refine ⟨fun d hd name hname => ?_, ?_⟩
    · obtain ⟨_, -, hrow⟩ := Except.exists_of_mem_items h hd
      obtain ⟨v, -, hv⟩ := Except.exists_of_mem_items hrow hname
      exact ⟨v, Except.elim_eq_ok.1 hv⟩
    · rw [← List.map_id rows]
      exact Except.map_eq_of_mapM h fun d _ r hr => row d r hr
  · rintro ⟨hall, rfl⟩
    rw [Except.mapM_eq_ok, List.forall₂_map_right_iff, List.forall₂_same]
    intro d hd
    rw [Except.mapM_eq_ok, List.forall₂_map_right_iff, List.forall₂_same]
    intro name hname
    obtain ⟨v, hv⟩ := hall d hd name hname
    rw [Dict.getD, hv]
    rfl

/-- Once the probabilities are adjusted, a new cut is made iff all duals can be read. -/
theorem exists_newCut_iff (hq : measure.adjust sense p f = .ok q) (hf : q.length = f.length)
    (hduals : q.length = duals.length) :
    (∃ a, newCut sense measure x duals p f = .ok a) ↔
    ∀ d ∈ duals, ∀ name ∈ x.keys, ∃ v, d.get? name = some v := by
  constructor
  · rintro ⟨a, ha⟩
    obtain ⟨_, rows, -, hrows, -⟩ := newCut_eq_ok ha
    exact (readDuals_eq_ok_iff.1 hrows).1
  · intro hall
    unfold newCut
    rw [hq, readDuals_eq_ok_iff.2 ⟨hall, rfl⟩]
    refine ⟨_, if_neg ?_⟩
    simp [← hf, ← hduals]

/-- At the state of the refinement the new cut has the height that is recorded. -/
theorem value_newCut_self (hx : x.Distinct)
    (h : newCut sense measure x duals p f = .ok (c, height)) :
    c.value x.profile = height := by
  obtain ⟨q, -, hlength, hlength', rfl, hvalue⟩ := value_newCut hx h
  have moved : (List.zipWith (fun (a : ℚ) (b : ℝ) => (a : ℝ) * b) q
      (duals.map fun d => x.moved d x.profile)).sum = 0 := by
    refine List.sum_eq_zero fun t ht => ?_
    obtain ⟨k, hk, rfl⟩ := List.getElem_of_mem ht
    rw [List.getElem_zipWith, List.getElem_map, State.moved_self hx, mul_zero]
  rw [hvalue, cast_dot, ← sum_zipWith_add (by simpa using hlength) (by simpa using hlength'),
    moved, add_zero]

/-- New cuts of outcomes in another order agree, if they have the same height. -/
theorem agreesAt_newCut (hx : x.Distinct) (h : results'.Perm results) {c' : Cut ℚ} {height' : ℚ}
    (hcut : newCut sense measure x (results.map (·.solution.duals)) (results.map (·.probability))
      (results.map (·.solution.objective)) = .ok (c, height))
    (hcut' : newCut sense measure x (results'.map (·.solution.duals)) (results'.map (·.probability))
      (results'.map (·.solution.objective)) = .ok (c', height'))
    (hheight : height' = height) : Cut.AgreesAt measure x c' c := by
  refine ⟨by rw [value_newCut_self hx hcut, value_newCut_self hx hcut', hheight], ?_⟩
  rintro rfl
  obtain ⟨_, rows, hq, hrows, hmade⟩ := newCut_eq_ok hcut
  obtain ⟨_, rows', hq', hrows', hmade'⟩ := newCut_eq_ok hcut'
  -- the expectation leaves the probabilities as they are
  cases hq
  cases hq'
  have slopes : weightedSum x.size (results'.map (·.probability)) rows' =
      weightedSum x.size (results.map (·.probability)) rows := by
    rw [(readDuals_eq_ok_iff.1 hrows).2, (readDuals_eq_ok_iff.1 hrows').2]
    refine List.map_congr_left fun k _ => ?_
    simp only [List.map_map]
    exact dot_map_map_of_perm h _ _
  rw [(averageCut_eq_ok hmade).2.2.2, (averageCut_eq_ok hmade').2.2.2, slopes, hheight]

/-- The outcomes in another order give a new cut that agrees with the old one, or none as well. -/
theorem rel_newCut (sense : Sense) (hmeasure : measure.Coherent) (hx : x.Distinct)
    (h : results'.Perm results) (hp : ∀ r ∈ results, 0 ≤ r.probability) :
    Option.Rel (fun a' a => Cut.AgreesAt measure x a'.1 a.1)
      (newCut sense measure x (results'.map (·.solution.duals)) (results'.map (·.probability))
        (results'.map (·.solution.objective))).toOption
      (newCut sense measure x (results.map (·.solution.duals)) (results.map (·.probability))
        (results.map (·.solution.objective))).toOption := by
  obtain ⟨q, q', hq, hlength, hq', hlength', hvalue⟩ := hmeasure.exists_adjust_of_perm sense
    (f := fun r => r.solution.objective) h hp
  refine rel_toOption ?_ ?_
  · rw [exists_newCut_iff hq (by simpa using hlength) (by simpa using hlength),
      exists_newCut_iff hq' (by simpa using hlength') (by simpa using hlength')]
    simp only [List.forall_mem_map, h.mem_iff]
  · rintro ⟨c', height'⟩ ⟨c, height⟩ hcut' hcut
    refine agreesAt_newCut hx h hcut hcut' ?_
    obtain ⟨_, _, hq₁, -, hmade⟩ := newCut_eq_ok hcut
    obtain ⟨_, _, hq₁', -, hmade'⟩ := newCut_eq_ok hcut'
    cases hq.symm.trans hq₁
    cases hq'.symm.trans hq₁'
    rw [(averageCut_eq_ok hmade).2.2.1, (averageCut_eq_ok hmade').2.2.1, hvalue]

end Node

end Multistage
