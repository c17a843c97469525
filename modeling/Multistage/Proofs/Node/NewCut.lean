import Mathlib.Algebra.BigOperators.Ring.List
import Multistage.Proofs.Node.AverageCut
import Multistage.Proofs.Node.CutConstraint

/-!
# The cut that a refinement records

A refinement makes one cut of the solutions of the children. As a function of the state the cut is
the weighted mean of the optimal values, each moved from the state of the refinement along its
duals.

## Main definitions

- `Node.newCut`: the cut of a refinement with its height.
- `State.moved`: the change of a value along duals.

## Main statements

- `Node.refine_eq`: a refinement makes the cut and adds it.
- `Node.value_newCut`: the cut as a function of the state.
-/

namespace Multistage

/-- The change of a value from a state to another along duals. -/
noncomputable def State.moved (x duals : State ℚ) (y : Name → ℝ) : ℝ :=
  (x.entries.map fun e => ((duals.getD e.1 0 : ℚ) : ℝ) * (y e.1 - e.2)).sum

namespace Node

/-- The cut that a refinement records, with its height at the state. -/
def newCut (sense : Sense) (measure : Measure ℚ) (x : State ℚ) (duals : List (State ℚ))
    (probabilities objectives : List ℚ) : Except (Failure ℚ) (Cut ℚ × ℚ) := do
  let q ← measure.adjust sense probabilities objectives
  let rows ← readDuals x.keys duals
  averageCut q x rows objectives

variable {sense : Sense} {measure : Measure ℚ} {x : State ℚ} {duals : List (State ℚ)}
  {probabilities objectives : List ℚ} {c : Cut ℚ} {height : ℚ}

theorem refine_eq (sense : Sense) (measure : Measure ℚ) (x : State ℚ) (duals : List (State ℚ))
    (probabilities objectives : List ℚ) :
    refine sense measure x duals probabilities objectives = (do
      let cut ← Action.ofExcept (newCut sense measure x duals probabilities objectives)
      addCut sense x x cut.1 cut.2) := by
  unfold refine newCut
  cases measure.adjust sense probabilities objectives with
  | error e => rfl
  | ok q =>
    cases readDuals x.keys duals with
    | error e => rfl
    | ok rows =>
      rw [readState_eq]
      cases averageCut q x rows objectives <;> rfl

/-- What is kept by adding the new cut is kept by a refinement. -/
theorem ensures_refine {I : Node ℚ → Prop} {measure : Measure ℚ} {x : State ℚ}
    {duals : List (State ℚ)} {probabilities objectives : List ℚ}
    (h : ∀ c height, newCut sense measure x duals probabilities objectives = .ok (c, height) →
      Action.Ensures I (addCut sense x x c height) fun _ => True) :
    Action.Ensures I (refine sense measure x duals probabilities objectives) fun _ => True := by
  rw [refine_eq]
  exact .bind (.ofExcept fun _ hcut => hcut) fun cut hcut => h cut.1 cut.2 hcut

theorem newCut_eq_ok (h : newCut sense measure x duals probabilities objectives = .ok (c, height)) :
    ∃ q rows, measure.adjust sense probabilities objectives = .ok q ∧
      readDuals x.keys duals = .ok rows ∧ averageCut q x rows objectives = .ok (c, height) := by
  obtain ⟨q, hq, h⟩ := Except.bind_eq_ok.1 h
  obtain ⟨rows, hrows, h⟩ := Except.bind_eq_ok.1 h
  exact ⟨q, rows, hq, hrows, h⟩

/-- The new cut is not installed, and it is nowhere the best. -/
theorem fresh_newCut (h : newCut sense measure x duals probabilities objectives = .ok (c, height)) :
    c.constraint? = none ∧ c.count = 0 ∧ c.removed = false := by
  obtain ⟨q, rows, -, -, h⟩ := newCut_eq_ok h
  rw [(averageCut_eq_ok h).2.2.2]
  exact ⟨rfl, rfl, rfl⟩

theorem coefficients_newCut (hx : x.Distinct)
    (h : newCut sense measure x duals probabilities objectives = .ok (c, height)) :
    ∃ q rows, measure.adjust sense probabilities objectives = .ok q ∧
      readDuals x.keys duals = .ok rows ∧ q.length = rows.length ∧ q.length = objectives.length ∧
      height = Scalar.dot q objectives ∧
      c.intercept = height - Scalar.dot (weightedSum x.size q rows) x.values ∧
      c.coefficients = ⟨x.keys.zip (weightedSum x.size q rows)⟩ := by
  obtain ⟨q, rows, hq, hrows, h⟩ := newCut_eq_ok h
  obtain ⟨hlength, hlength', hheight, rfl⟩ := averageCut_eq_ok h
  refine ⟨q, rows, hq, hrows, hlength, hlength', hheight, rfl, Dict.ofList_of_distinct ?_⟩
  refine hx.of_keys_eq ?_
  exact keys_zip x (length_weightedSum x.size q rows)

theorem keys_newCut (hx : x.Distinct)
    (h : newCut sense measure x duals probabilities objectives = .ok (c, height)) :
    c.coefficients.keys = x.keys := by
  obtain ⟨q, rows, -, -, -, -, -, -, hcoefficients⟩ := coefficients_newCut hx h
  rw [hcoefficients]
  exact keys_zip x (length_weightedSum x.size q rows)

/-- The new cut has a coefficient for every state of a node whose states are named. -/
theorem covers_newCut {n : Node ℚ} (hx : x.Distinct) (hnames : n.stage.states.keys ⊆ x.keys)
    (h : newCut sense measure x duals probabilities objectives = .ok (c, height)) : n.Covers c := by
  have keys := keys_newCut hx h
  refine ⟨hx.of_keys_eq keys, fun name hname => Dict.exists_get?_of_mem_keys ?_⟩
  rw [keys]
  exact hnames hname

/-! ### The new cut as a function -/

/-- Weights of columns are columns of weights. -/
theorem sum_weightedSum (size : ℕ) (q : List ℚ) (rows : List (List ℚ)) (g : ℕ → ℝ) :
    ((List.range size).map fun i =>
        ((Scalar.dot q (rows.map fun r => r[i]?.getD 0) : ℚ) : ℝ) * g i).sum =
      (List.zipWith (fun (a : ℚ) (b : ℝ) => (a : ℝ) * b) q (rows.map fun r =>
        ((List.range size).map fun i => ((r[i]?.getD 0 : ℚ) : ℝ) * g i).sum)).sum := by
  induction q generalizing rows with
  | nil => simp [Scalar.dot, Scalar.sum]
  | cons a rest ih =>
    cases rows with
    | nil => simp [Scalar.dot, Scalar.sum]
    | cons r others =>
      have step : ∀ i : ℕ, Scalar.dot (a :: rest) ((r :: others).map fun r => r[i]?.getD 0) =
          a * r[i]?.getD 0 + Scalar.dot rest (others.map fun r => r[i]?.getD 0) := fun i =>
        Scalar.sum_cons _ _
      rw [List.map_cons, List.zipWith_cons_cons, List.sum_cons, ← ih others,
        ← List.sum_map_mul_left, ← List.sum_map_add]
      refine congrArg List.sum (List.map_congr_left fun i _ => ?_)
      rw [step]
      push_cast
      ring

/-- A slope at a profile, less the slope at the state. -/
theorem sum_slope_sub (entries : List (Name × ℚ)) (w : ℕ → ℚ) (y : Name → ℝ) :
    (((entries.map (·.1)).zip ((List.range entries.length).map w)).map fun e =>
        (e.2 : ℝ) * y e.1).sum -
      ((Scalar.dot ((List.range entries.length).map w) (entries.map (·.2)) : ℚ) : ℝ) =
      ((List.range entries.length).map fun i =>
        (w i : ℝ) * ((entries[i]?).map fun e => y e.1 - e.2).getD 0).sum := by
  induction entries generalizing w with
  | nil => simp [Scalar.dot, Scalar.sum]
  | cons e rest ih =>
    have step : Scalar.dot ((List.range (e :: rest).length).map w) ((e :: rest).map (·.2)) =
        w 0 * e.2 + Scalar.dot ((List.range rest.length).map fun i => w (i + 1))
          (rest.map (·.2)) := by
      rw [List.length_cons, List.range_succ_eq_map, List.map_cons, List.map_map]
      exact Scalar.sum_cons _ _
    rw [step, List.length_cons, List.range_succ_eq_map, List.map_cons, List.map_cons, List.map_cons,
      List.map_map, List.map_map, List.zip_cons_cons, List.map_cons, List.sum_cons, List.sum_cons]
    have later := ih fun i => w (i + 1)
    simp only [Function.comp_def, List.getElem?_cons_succ, List.getElem?_cons_zero, Option.map_some,
      Option.getD_some, Nat.succ_eq_add_one] at later ⊢
    push_cast
    linarith

theorem sum_row {d : State ℚ} {entries : List (Name × ℚ)} {row : List ℚ} (y : Name → ℝ)
    (h : List.Forall₂ (fun name v => d.get? name = some v) (entries.map (·.1)) row) :
    ((List.range entries.length).map fun i =>
        ((row[i]?.getD 0 : ℚ) : ℝ) * ((entries[i]?).map fun e => y e.1 - e.2).getD 0).sum =
      (entries.map fun e => ((d.getD e.1 0 : ℚ) : ℝ) * (y e.1 - e.2)).sum := by
  induction entries generalizing row with
  | nil => rfl
  | cons e rest ih =>
    cases h with
    | cons hv hrest =>
      rw [List.length_cons, List.range_succ_eq_map, List.map_cons, List.map_map, List.sum_cons,
        List.map_cons, List.sum_cons, ← ih hrest, Dict.getD, hv]
      rfl

theorem sum_zipWith_add {q : List ℚ} {f b : List ℝ} (hf : q.length = f.length)
    (hb : q.length = b.length) :
    (List.zipWith (fun (a : ℚ) (b : ℝ) => (a : ℝ) * b) q f).sum +
        (List.zipWith (fun (a : ℚ) (b : ℝ) => (a : ℝ) * b) q b).sum =
      (List.zipWith (fun (a : ℚ) (b : ℝ) => (a : ℝ) * b) q (List.zipWith (· + ·) f b)).sum := by
  induction q generalizing f b with
  | nil => simp
  | cons a rest ih =>
    obtain ⟨u, f, rfl⟩ := List.exists_cons_of_length_eq_add_one hf.symm
    obtain ⟨v, b, rfl⟩ := List.exists_cons_of_length_eq_add_one hb.symm
    have later := ih (Nat.succ.inj hf) (Nat.succ.inj hb)
    simp only [List.zipWith_cons_cons, List.sum_cons]
    linarith

/-- A product of rational vectors as a sum of real numbers. -/
theorem cast_dot (q f : List ℚ) :
    ((Scalar.dot q f : ℚ) : ℝ) =
      (List.zipWith (fun (a : ℚ) (b : ℝ) => (a : ℝ) * b) q (f.map fun (v : ℚ) => (v : ℝ))).sum := by
  induction q generalizing f with
  | nil => simp [Scalar.dot, Scalar.sum]
  | cons a rest ih =>
    cases f with
    | nil => simp [Scalar.dot, Scalar.sum]
    | cons v others =>
      have step : Scalar.dot (a :: rest) (v :: others) = a * v + Scalar.dot rest others :=
        Scalar.sum_cons _ _
      rw [step, List.map_cons, List.zipWith_cons_cons, List.sum_cons, ← ih]
      push_cast
      rfl

/-- The new cut weighs the objectives, each moved along its duals. -/
theorem value_newCut (hx : x.Distinct)
    (h : newCut sense measure x duals probabilities objectives = .ok (c, height)) :
    ∃ q, measure.adjust sense probabilities objectives = .ok q ∧
      q.length = objectives.length ∧ q.length = duals.length ∧ height = Scalar.dot q objectives ∧
      ∀ y, c.value y = (List.zipWith (fun (a : ℚ) (b : ℝ) => (a : ℝ) * b) q
        (List.zipWith (· + ·) (objectives.map fun (v : ℚ) => (v : ℝ))
          (duals.map fun d => x.moved d y))).sum := by
  obtain ⟨q, rows, hq, hrows, hlength, hlength', hheight, hintercept, hcoefficients⟩ :=
    coefficients_newCut hx h
  have hread := readDuals_eq_ok hrows
  have lengths : q.length = duals.length := hlength.trans hread.length_eq.symm
  refine ⟨q, hq, hlength', lengths, hheight, fun y => ?_⟩
  have moved : (rows.map fun r => ((List.range x.size).map fun i =>
      ((r[i]?.getD 0 : ℚ) : ℝ) * ((x.entries[i]?).map fun e => y e.1 - e.2).getD 0).sum) =
        duals.map fun d => x.moved d y := by
    refine List.forall₂_eq_eq_eq ▸ ?_
    rw [List.forall₂_map_left_iff, List.forall₂_map_right_iff]
    exact hread.flip.imp fun r d hr => sum_row y hr
  have slope := sum_slope_sub x.entries
    (fun i => Scalar.dot q (rows.map fun r => r[i]?.getD 0)) y
  rw [sum_weightedSum] at slope
  rw [← sum_zipWith_add (by simpa using hlength') (by simpa using lengths), ← cast_dot, ← hheight,
    ← moved, Cut.value, hintercept, hcoefficients, Rat.cast_sub]
  refine Eq.trans ?_ (congrArg (fun v => (height : ℝ) + v) slope)
  show _ - ((Scalar.dot (weightedSum x.size q rows) x.values : ℚ) : ℝ) +
    ((x.keys.zip (weightedSum x.size q rows)).map fun e => (e.2 : ℝ) * y e.1).sum = _ + (_ - _)
  exact (add_sub_right_comm _ _ _).symm.trans (add_sub_assoc _ _ _)

end Node

end Multistage
