import Multistage.Node
import Multistage.Proofs.Dict
import Multistage.Proofs.Except
import Mathlib.Data.Rat.Defs

/-!
# The cut that refines a node

What is read off solutions goes through matrices and vectors, which in exact arithmetic changes
nothing. The new cut is then the weighted mean of the solutions, as an affine function.

## Main statements

- `Node.readState_eq`, `Node.readDuals_eq`: reading keeps the numbers as they are.
- `Node.averageCut_eq_ok`: the new cut and its height.
-/

namespace Multistage

namespace Tensor

theorem entriesOf_row (xs : List ℚ) :
    entriesOf [xs.length] (.list (xs.map Datum.real)) = .ok xs := by
  have numbers : (xs.map Datum.real).mapM (entriesOf []) = .ok (xs.map ([·])) := by
    rw [Except.mapM_eq_ok, List.forall₂_map_left_iff, List.forall₂_map_right_iff]
    exact List.forall₂_same.2 fun y _ => rfl
  rw [entriesOf]
  simp only [Datum.elements, bind, Except.bind, List.length_map, bne_self_eq_false,
    Bool.false_eq_true, if_false, numbers, Except.map]
  rw [← List.flatMap_def, List.flatMap_singleton']

theorem vector_eq (xs : List ℚ) : vector (.list (xs.map Datum.real)) = .ok xs := by
  cases xs with
  | nil => rfl
  | cons x rest =>
    have shape : shapeOf (.list ((x :: rest).map Datum.real)) = .ok [(x :: rest).length] := by
      rw [List.map_cons, shapeOf, shapeOf]
      · simp [Except.map]
      all_goals simp
    have entries := entriesOf_row (x :: rest)
    unfold vector ofDatum
    simp only [shape, bind, Except.bind, pure, Except.pure, entries]
    simp [levelLimit]

/-- Rows of a common length can be read back from their entries. -/
theorem take_drop_flatten {size : ℕ} {rows : List (List ℚ)} (h : ∀ row ∈ rows, row.length = size) :
    ((List.range rows.length).map fun i => (rows.flatten.drop (i * size)).take size) = rows := by
  induction rows with
  | nil => rfl
  | cons row rest ih =>
    have hrow := h row List.mem_cons_self
    rw [List.length_cons, List.range_succ_eq_map, List.map_cons, List.map_map, List.flatten_cons]
    congr 1
    · rw [Nat.zero_mul, List.drop_zero, ← hrow, List.take_left]
    · refine Eq.trans (List.map_congr_left fun i _ => ?_)
        (ih fun r hr => h r (List.mem_cons_of_mem _ hr))
      show List.take size (List.drop ((i + 1) * size) (row ++ rest.flatten)) = _
      rw [Nat.succ_mul, Nat.add_comm, ← List.drop_drop, ← hrow, List.drop_left]

/-- Rows of a common length are a matrix, and can be read back from it. -/
theorem inRows_eq {size : ℕ} {rows : List (List ℚ)} (h : ∀ row ∈ rows, row.length = size) :
    (ofDatum (.list (rows.map fun row => .list (row.map Datum.real))) >>=
      fun t => t.inRows rows.length size) = .ok rows := by
  have back := take_drop_flatten h
  have count : rows.flatten.length = rows.length * size := by
    rw [List.length_flatten, List.eq_replicate_of_mem (a := size) (l := rows.map List.length)]
    · simp
    · intro n hn
      obtain ⟨row, hrow, rfl⟩ := List.mem_map.1 hn
      exact h row hrow
  cases rows with
  | nil =>
    show Tensor.inRows ⟨[0], []⟩ 0 size = .ok []
    simp [inRows]
  | cons row rest =>
    have hrow := h row List.mem_cons_self
    have shape : shapeOf (.list ((row :: rest).map fun row => .list (row.map Datum.real))) =
        .ok [(row :: rest).length, size] := by
      rw [List.map_cons, shapeOf, ← hrow]
      cases row with
      | nil =>
        rw [List.map_nil, shapeOf]
        simp [Except.map]
      | cons x xs =>
        rw [List.map_cons, shapeOf, shapeOf]
        · simp [Except.map]
        all_goals simp
    have entries : entriesOf [(row :: rest).length, size]
        (.list ((row :: rest).map fun row => .list (row.map Datum.real))) =
          .ok (row :: rest).flatten := by
      have all : ((row :: rest).map fun row => Datum.list (row.map Datum.real)).mapM
          (entriesOf [size]) = .ok (row :: rest) := by
        rw [Except.mapM_eq_ok, List.forall₂_map_left_iff]
        refine List.forall₂_same.2 fun r hr => ?_
        rw [← h r hr]
        exact entriesOf_row r
      rw [entriesOf]
      simp only [Datum.elements, bind, Except.bind, List.length_map, bne_self_eq_false,
        Bool.false_eq_true, if_false, all, Except.map]
    have tensor : ofDatum (.list ((row :: rest).map fun row => .list (row.map Datum.real))) =
        .ok ⟨[(row :: rest).length, size], (row :: rest).flatten⟩ := by
      unfold ofDatum
      simp only [shape, bind, Except.bind, pure, Except.pure, entries]
      by_cases hsize : size = 0
      · have none : (row :: rest).flatten = [] := by
          rw [← List.length_eq_zero_iff, count, hsize, Nat.mul_zero]
        rw [none]
        simp [levelLimit, hsize]
      · simp [levelLimit, Ne.symm hsize]
    rw [tensor]
    show Tensor.inRows _ _ _ = _
    unfold inRows
    rw [count, back]
    simp

end Tensor

namespace Node

/-- Reading a state keeps its entries. -/
theorem readState_eq (x : State ℚ) : readState x = .ok x := by
  unfold readState
  have values : Tensor.vector (.list (x.values.map Quantity.toDatum)) = .ok x.values :=
    Tensor.vector_eq x.values
  rw [values]
  refine congrArg (fun entries : List (Name × ℚ) => Except.ok (⟨entries⟩ : State ℚ)) ?_
  show (x.entries.map (·.1)).zip (x.entries.map (·.2)) = x.entries
  rw [List.zip_map', List.map_id']

/-- Reading duals keeps them as they are. -/
theorem readDuals_eq (names : List Name) (duals : List (State ℚ)) :
    readDuals names duals =
      duals.mapM fun d => names.mapM fun name => (d.get? name).elim (.error .missingKey) .ok := by
  unfold readDuals
  cases hfound : duals.mapM fun d => names.mapM fun name =>
      (d.get? name).elim (.error .missingKey) (.ok : ℚ → Except (Failure ℚ) ℚ) with
  | error e => rfl
  | ok found =>
    have looked := Except.mapM_eq_ok.1 hfound
    have lengths : ∀ row ∈ found, row.length = names.length := by
      intro row hrow
      obtain ⟨d, -, hd⟩ := Except.exists_of_mem_mapM hfound hrow
      exact (Except.mapM_eq_ok.1 hd).length_eq.symm
    have read := Tensor.inRows_eq lengths
    rw [← looked.length_eq] at read
    exact read

theorem readDuals_eq_ok {names : List Name} {duals : List (State ℚ)} {rows : List (List ℚ)}
    (h : readDuals names duals = .ok rows) :
    List.Forall₂ (fun d row => List.Forall₂ (fun name v => d.get? name = some v) names row)
      duals rows := by
  rw [readDuals_eq] at h
  refine (Except.mapM_eq_ok.1 h).imp fun d row hrow => ?_
  exact (Except.mapM_eq_ok.1 hrow).imp fun name v hv => Except.elim_eq_ok.1 hv

theorem length_weightedSum (size : ℕ) (q : List ℚ) (rows : List (List ℚ)) :
    (weightedSum size q rows).length = size := by
  rw [weightedSum, List.length_map, List.length_range]

theorem keys_zip (x : State ℚ) {values : List ℚ} (h : values.length = x.size) :
    (x.keys.zip values).map (·.1) = x.keys :=
  List.map_fst_zip (by rw [h, Dict.keys, List.length_map]; exact Nat.le_refl _)

/-- The new cut has the weighted mean of the duals for slope, and the weighted mean of the
objectives for height. -/
theorem averageCut_eq_ok {q : List ℚ} {x : State ℚ} {rows : List (List ℚ)} {objectives : List ℚ}
    {c : Cut ℚ} {height : ℚ} (h : averageCut q x rows objectives = .ok (c, height)) :
    q.length = rows.length ∧ q.length = objectives.length ∧ height = Scalar.dot q objectives ∧
      c = ⟨height - Scalar.dot (weightedSum x.size q rows) x.values,
        Dict.ofList (x.keys.zip (weightedSum x.size q rows)), none, 0, false⟩ := by
  unfold averageCut at h
  split at h
  · cases h
  next hsize =>
    simp only [Bool.or_eq_true, bne_iff_ne, ne_eq, not_or, not_not] at hsize
    simp only [Scalar.dotInLanes_eq_dot] at h
    cases h
    exact ⟨hsize.1, hsize.2, rfl, rfl⟩

end Node

end Multistage
