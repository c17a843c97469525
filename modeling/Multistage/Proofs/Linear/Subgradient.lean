import Multistage.Proofs.Linear.Certified
import Multistage.Proofs.Linear.Isolated
import Multistage.Proofs.Linear.Optimum
import Multistage.Proofs.Risk.Value

/-!
# The duals of fixed variables as a subgradient

The optimal value of a subproblem is a function of the values that variables are fixed to, infinite
where there is no optimum. A solve whose marginals are an optimal dual of the linear program tells a
subgradient of this function: the duals of the fixed variables.

## Main definitions

- `Solver.SoundOn`: the solver reports an optimal point and an optimal dual of one linear program.
- `Subproblem.bestValue`: the optimal value of a subproblem.
- `Subproblem.fixedAt`: the subproblem with other values for the fixed variables.

## Main statements

- `Subproblem.optimize_subgradient`: the duals are those of the fixed variables, and the optimal
  value moves at most as they say.
-/

namespace Multistage

open Finset

/-- If the solver reports a point for a linear program it is feasible and has the cost that is
reported, and the marginals that are reported are an optimal dual. -/
def Solver.SoundOn (solver : Solver ℚ) (p : Program ℚ) : Prop :=
  ∀ point value marginals, solver p = .optimal point value marginals →
    p.Admits point ∧ value = Scalar.dot p.cost point ∧
      ∃ rows lower upper, p.Multipliers value marginals rows lower upper

namespace Subproblem

/-- What the objective is worth at the points of the linear program. -/
def attained (p : Subproblem ℚ) : Set EReal :=
  {t | ∃ program z,
    p.program = .ok program ∧ program.Feasible z ∧ t = ((p.objective.value z : ℝ) : EReal)}

/-- The optimal value of a subproblem, infinite if it is unbounded or has no point. -/
noncomputable def bestValue (p : Subproblem ℚ) : EReal := p.sense.best p.attained

/-- The subproblem with other values for the fixed variables. -/
def fixedAt (p : Subproblem ℚ) (values : Dict ℕ ℚ) : Subproblem ℚ := { p with fixed := values }

variable {p p' : Subproblem ℚ} {program : Program ℚ} {rows : List (Relation × Row ℚ)}
  {bounds : List (Option ℚ × Option ℚ)} {values : Dict ℕ ℚ}

/-- Every variable of the objective has a cost. -/
theorem mem_keys_costEntries {v : Variable} (h : v ∈ p.objective.terms.keys) :
    v.index ∈ p.costEntries.keys := by
  have inserted : ∀ {d : Dict ℕ ℚ} {i j : ℕ} {x : ℚ}, (i = j ∨ i ∈ d.keys) →
      i ∈ (d.insert j x).keys := by
    intro d i j x hi
    rw [Dict.keys_insert]
    split
    next hj =>
      rcases hi with rfl | hi
      · obtain ⟨e, he, hei⟩ := List.any_eq_true.1 hj
        exact List.mem_map.2 ⟨e, he, eq_of_beq hei⟩
      · exact hi
    next => exact List.mem_append.2 (hi.symm.imp id fun hi => List.mem_singleton.2 hi)
  have folded : ∀ (es : List (Variable × ℚ)) (cost : Dict ℕ ℚ),
      (v.index ∈ cost.keys ∨ v ∈ es.map (·.1)) →
      v.index ∈ (es.foldl (fun cost e =>
        cost.insert e.1.index (cost.getD e.1.index 0 + p.sense.sign * e.2)) cost).keys := by
    intro es
    induction es with
    | nil => exact fun cost h => h.resolve_right List.not_mem_nil
    | cons e rest ih =>
      rintro cost (h | h)
      · exact ih _ (.inl (inserted (.inr h)))
      · rcases List.mem_cons.1 h with rfl | h
        · exact ih _ (.inl (inserted (.inl rfl)))
        · exact ih _ (.inr h)
  exact folded p.objective.terms.entries Dict.empty (.inr h)

/-- The objective of a linear program is over its variables. -/
theorem Lists.objective_lt (h : p.Lists program rows bounds) :
    ∀ v ∈ p.objective.terms.keys, v.index < p.names.length := by
  intro v hv
  have cost := h.cost_eq
  unfold dense at cost
  split at cost
  · cases cost
  next hany =>
    simpa using fun hle =>
      hany (List.any_eq_true.2 ⟨_, mem_keys_costEntries hv, decide_eq_true hle⟩)

/-! ### Other values for the fixed variables -/

theorem contains_eq_of_perm {d d' : Dict ℕ ℚ} (h : d'.keys.Perm d.keys) (i : ℕ) :
    d'.contains i = d.contains i := by
  have among : ∀ d : Dict ℕ ℚ, d.contains i = d.keys.any (· == i) := by
    intro d
    rw [Dict.keys, List.any_map]
    rfl
  rw [among, among, Bool.eq_iff_iff, List.any_eq_true, List.any_eq_true]
  exact exists_congr fun j => and_congr_left fun _ => h.mem_iff

/-- The bounds that a solve keeps depend on which variables are fixed, not on their values. -/
theorem spreadBounds_fixedAt (h : values.keys.Perm p.fixed.keys) :
    (p.fixedAt values).spreadBounds = p.spreadBounds := by
  have kept : (p.fixedAt values).keptBounds = p.keptBounds := by
    unfold keptBounds fixedAt
    simp only [contains_eq_of_perm h]
  unfold spreadBounds
  rw [kept]
  rfl

/-- The linear program with other values for the fixed variables: only the rows of these differ. -/
theorem Lists.fixedAt (h : p.Lists program rows bounds) (hperm : values.keys.Perm p.fixed.keys) :
    (p.fixedAt values).Lists
      { program with
        equal := (rows.filter (·.1 == .equal)).map (·.2) ++ (p.fixedAt values).fixingRows }
      rows bounds where
  cost_eq := h.cost_eq
  rows_eq := h.rows_eq
  atMost_eq := h.atMost_eq
  equal_eq := rfl
  bounds_eq := (spreadBounds_fixedAt hperm).trans h.bounds_eq
  lower_eq := h.lower_eq
  upper_eq := h.upper_eq

/-- The lists make up the linear program, unless there are no variables. -/
theorem program_eq (h : p.Lists program rows bounds) (hne : p.names.length ≠ 0) :
    p.program = .ok program := by
  -- all rational numbers are finite
  have finite : ∀ x : ℚ, Scalar.isFinite x = true := fun _ => rfl
  refine Except.bind_eq_ok.2 ⟨_, h.cost_eq, Except.bind_eq_ok.2 ⟨rows, h.rows_eq, ?_⟩⟩
  rw [if_neg (by simp [finite, hne])]
  refine Except.bind_eq_ok.2 ⟨bounds, h.bounds_eq, ?_⟩
  rw [← h.atMost_eq, ← h.equal_eq, ← h.lower_eq, ← h.upper_eq]
  rfl

theorem length_names_ne_zero (h : p.program = .ok program) : p.names.length ≠ 0 := by
  obtain ⟨cost, -, h⟩ := Except.bind_eq_ok.1 h
  obtain ⟨rows, -, h⟩ := Except.bind_eq_ok.1 h
  intro hzero
  rw [if_pos (by simp [hzero])] at h
  cases h

/-- The rows of the fixed variables are worth the other values at the points with these. -/
theorem Lists.value_fixingRow_fixedAt {program' : Program ℚ}
    (h : (p.fixedAt values).Lists program' rows bounds)
    (hperm : values.keys.Perm p.fixed.keys) {z : ℕ → ℝ} (hz : program'.Feasible z) :
    ∀ e ∈ p.fixed.entries, Row.value p.names.length
      ⟨(List.range p.names.length).map fun j => if j == e.1 then 1 else 0, e.2⟩ z =
        ((values.getD e.1 0 : ℚ) : ℝ) := by
  intro e he
  obtain ⟨x, hx⟩ := Dict.exists_get?_of_mem_keys (hperm.mem_iff.2 (List.mem_map_of_mem he))
  obtain ⟨f, hf, hkey, rfl⟩ := Dict.exists_mem_of_get? hx
  have row := ((h.forall_equal_iff_rows z).1 hz.equal_eq).2 _ (List.mem_map.2 ⟨f, hf, rfl⟩)
  rw [Dict.getD, hx, ← eq_of_beq hkey]
  exact row

theorem Lists.keys_fixedDuals (h : p.Lists program rows bounds) {value : ℚ} {marginals : List ℚ}
    (hlength : marginals.length = program.equal.length) (point : List ℚ) :
    (p.withOutcome (.optimal point value marginals)).fixedDuals.keys = p.fixed.keys := by
  show (List.map _ (List.map _ _)) = _
  rw [List.map_map]
  refine List.map_fst_zip ?_
  rw [List.length_drop, hlength, h.length_equal, Nat.add_sub_cancel_left, Dict.keys,
    List.length_map]

/-- A variable has a dual if it was fixed. -/
theorem fixedDual_eq_ok_iff (hkeys : p'.fixedDuals.keys = p.fixed.keys)
    (howner : p'.owner = p.owner) {v : Variable} {x : ℚ} : p'.fixedDual v = .ok x ↔
    p.isFixed v = .ok true ∧ x = p'.fixedDuals.getD v.index 0 := by
  have contains : p.fixed.contains v.index = (p'.fixedDuals.get? v.index).isSome := by
    have same : p'.fixedDuals.keys.Perm p.fixed.keys := by rw [hkeys]
    rw [← Dict.contains_eq_isSome_get?, contains_eq_of_perm same]
  unfold fixedDual isFixed position
  rw [howner]
  split
  · rw [Except.map, contains, Dict.getD]
    show (Except.bind (.ok v.index) fun i => _) = _ ↔ _
    rw [Except.bind]
    cases p'.fixedDuals.get? v.index with
    | none => simp
    | some dual => simp [pure, Except.pure, eq_comm]
  · constructor
    · intro h
      cases h
    · rintro ⟨h, -⟩
      cases h

/-- A value with multipliers, moved along the duals of the fixed variables, bounds the optimal value
with other values for these. -/
theorem Lists.moved_atMost_bestValue (h : p.Lists program rows bounds) (hne : p.names.length ≠ 0)
    {value : ℚ} {marginals : List ℚ} {rowMultipliers lower upper : ℕ → ℚ}
    (hmult : program.Multipliers value marginals rowMultipliers lower upper) (hd : p.fixed.Distinct)
    (point : List ℚ) (hperm : values.keys.Perm p.fixed.keys) :
    p.sense.AtMost ((((p.sense.sign * value + p.objective.constant : ℚ) : ℝ) +
      (p.fixed.entries.map fun e =>
        (((p.withOutcome (.optimal point value marginals)).fixedDuals.getD e.1 0 : ℚ) : ℝ) *
          ((values.getD e.1 0 : ℚ) - e.2)).sum : ℝ) : EReal) (p.fixedAt values).bestValue := by
  refine Sense.atMost_best_iff.2 ?_
  rintro _ ⟨program', z, hprogram', hz, rfl⟩
  have lists' := h.fixedAt hperm
  obtain rfl := Except.ok.inj ((program_eq lists' hne).symm.trans hprogram')
  -- the other program has the same inequalities and the same bounds
  have allows : program.Allows z := ⟨hz.atMost_le, hz.lower_le, hz.le_upper⟩
  have moved :=
    h.moved_atMost hmult hd h.objective_lt allows ((lists'.forall_equal_iff_rows z).1 hz.equal_eq).1
    (g := fun i => ((values.getD i 0 : ℚ) : ℝ)) (lists'.value_fixingRow_fixedAt hperm hz) point
  exact Sense.atMost_coe_iff.2 (Sense.atMost_iff_sign.1 moved)

/-- If a solve finds an optimum and the marginals are an optimal dual of the linear program, the
optimum is the optimal value, exactly the variables that are fixed have duals, and with other values
for the fixed variables there is a linear program whose optimal value is no better than the optimum
moved along the duals. -/
theorem optimize_subgradient {solver : Solver ℚ} (hd : p.fixed.Distinct)
    (hsolver : ∀ program, p.program = .ok program → solver.SoundOn program)
    (h : optimize solver p = .ok () p') (hprimal : p'.primal = .feasiblePoint) :
    ∃ (optimum : ℚ) (dual : ℕ → ℚ), p'.optimum? = some optimum ∧
      p.bestValue = ((optimum : ℝ) : EReal) ∧
      (∀ v x, p'.fixedDual v = .ok x ↔ p.isFixed v = .ok true ∧ x = dual v.index) ∧
      ∀ values : Dict ℕ ℚ, values.keys.Perm p.fixed.keys →
        (∃ program, (p.fixedAt values).program = .ok program) ∧
          p.sense.AtMost (((optimum : ℝ) + (p.fixed.entries.map fun e =>
            (dual e.1 : ℝ) * ((values.getD e.1 0 : ℚ) - e.2)).sum : ℝ) : EReal)
            (p.fixedAt values).bestValue := by
  obtain ⟨program, hprogram, hset⟩ := optimize_eq_ok h
  cases hout : solver program with
  | optimal point value marginals =>
    rw [hout] at hset
    obtain ⟨hpoint, hvalue, _, _, _, hmult⟩ := hsolver program hprogram point value marginals hout
    obtain ⟨rows, bounds, lists⟩ := lists_of_program hprogram
    have hne := length_names_ne_zero hprogram
    refine ⟨p.sense.sign * value + p.objective.constant, fun i => p'.fixedDuals.getD i 0,
      hset ▸ rfl, ?_,
      fun v x => ?_, fun values hperm => ⟨⟨_, program_eq (lists.fixedAt hperm) hne⟩, ?_⟩⟩
    · refine (Sense.atMost_best_iff.1 (.refl p.sense _) _ ?_).antisymm ?_
      · exact ⟨program, entryOf point, hprogram, lists.feasible_entryOf hpoint,
          congrArg _ (hvalue ▸ lists.value_objective lists.objective_lt hpoint)⟩
      · have own := lists.moved_atMost_bestValue hne hmult hd point (.refl p.fixed.keys)
        have none : p.fixed.entries.map (fun e =>
            (((p.withOutcome (.optimal point value marginals)).fixedDuals.getD e.1 0 : ℚ) : ℝ) *
              ((p.fixed.getD e.1 0 : ℚ) - e.2)) = p.fixed.entries.map fun _ => (0 : ℝ) := by
          refine List.map_congr_left fun e he => ?_
          have found : p.fixed.getD e.1 0 = e.2 := by
            rw [Dict.getD, (Dict.get?_eq_some_iff hd).2 ⟨e, he, beq_self_eq_true _, rfl⟩]
            rfl
          rw [found, sub_self, mul_zero]
        rw [none, List.map_const', List.sum_replicate, nsmul_zero, add_zero] at own
        exact own
    · have keys : p'.fixedDuals.keys = p.fixed.keys :=
        hset ▸ lists.keys_fixedDuals hmult.length_eq point
      exact fixedDual_eq_ok_iff keys (hset ▸ rfl)
    · rw [hset]
      exact lists.moved_atMost_bestValue hne hmult hd point hperm
  | infeasible => rw [hset, hout] at hprimal; cases hprimal
  | unbounded => rw [hset, hout] at hprimal; cases hprimal
  | undecided => rw [hset, hout] at hprimal; cases hprimal

/-- The greatest value of `-3 x` for `x - 2 y ≥ 1` with `y` fixed to three, which ignores that `y`
is at most two. -/
theorem optimize_subgradient_of_two_variables :
    let y : Variable := ⟨0, 1, .position⟩
    let p : Subproblem ℚ :=
      { Subproblem.empty .null 0 with
        names := [.null, .null]
        lower := [.finite 0, .negInf]
        upper := [.posInf, .finite 2]
        fixed := ⟨[(1, 3)]⟩
        constraints := [⟨⟨[(0, 1), (1, -2)]⟩, .atLeast, 1, .null, true⟩]
        sense := .max
        objective := ⟨⟨[(⟨0, 0, .position⟩, -3)]⟩, 0⟩ }
    ∃ p', optimize (Solver.certified fun _ => ⟨[7, 3], [-3], [6]⟩) p = .ok () p' ∧
      p'.optimum? = some (-21) ∧
      p'.fixedDual y = .ok (-6) ∧
      ∀ v : ℚ, (p.fixedAt ⟨[(1, v)]⟩).bestValue ≤ ((-21 + -6 * (v - 3) : ℝ) : EReal) := by
  intro y p
  let solver : Solver ℚ := .certified fun _ => ⟨[7, 3], [-3], [6]⟩
  obtain ⟨p', hrun, hoptimum, hprimal, howner, hget⟩ : ∃ p', optimize solver p = .ok () p' ∧
      p'.optimum? = some (-21) ∧ p'.primal = .feasiblePoint ∧ p'.owner = 0 ∧
        p'.fixedDuals.get? 1 = some (-6) :=
    ⟨(optimize solver).final p,
      rfl, by decide +kernel, by decide +kernel, by decide +kernel, by decide +kernel⟩
  have hdual : p'.fixedDual y = .ok (-6) := by
    simp [fixedDual, position, howner, y, hget, bind, Except.bind, pure, Except.pure]
  obtain ⟨optimum, dual, hfound, -, hduals, bound⟩ := optimize_subgradient (p := p)
    (List.pairwise_singleton _ _)
    (fun program _ => Solver.sound_certified (fun _ => ⟨[7, 3], [-3], [6]⟩) program) hrun hprimal
  obtain rfl : optimum = -21 := Option.some.inj (hfound.symm.trans hoptimum)
  have slope : dual 1 = -6 := ((hduals y (-6)).1 hdual).2.symm
  refine ⟨p', hrun, hoptimum, hdual, fun v => ?_⟩
  have moved := (bound ⟨[(1, v)]⟩ (.refl _)).2
  have terms : (p.fixed.entries.map fun e => (dual e.1 : ℝ) *
      (((⟨[(1, v)]⟩ : Dict ℕ ℚ).getD e.1 0 : ℚ) - e.2)).sum = -6 * (v - 3) := by
    simp [p, slope, Dict.getD, Dict.get?_cons]
  rw [terms] at moved
  exact_mod_cast moved

end Subproblem

/-! ### Subproblems in a workspace -/

namespace Workspace

variable {α : Type} [Scalar α] {w : Workspace α}

theorem distinct_after (h : ∀ (i : ℕ) p, w.subproblems[i]? = some p → p.fixed.Distinct)
    (step : ℤ × Operation α) :
    ∀ (i : ℕ) p, (w.after step).subproblems[i]? = some p → p.fixed.Distinct := by
  obtain ⟨place, op⟩ := step
  have leads := leads_after (w := w) (place, op)
  generalize w.after (place, op) = w' at leads
  have put : ∀ {i p} {q : Subproblem α}, w.Holds place i p → (p.fixed.Distinct → q.fixed.Distinct) →
      ∀ j (p : Subproblem α), (w.put i q).subproblems[j]? = some p → p.fixed.Distinct :=
    fun hold hq =>
      forall_put (P := fun _ (p : Subproblem α) => p.fixed.Distinct) h (hq (h _ _ hold.2))
  have edited : ∀ {c edit} (j : ℕ) (p : Subproblem α), (w.editing c edit).subproblems[j]? = some p →
      p.fixed.Distinct :=
    fun {c _} => forall_editing (P := fun _ (p : Subproblem α) => p.fixed.Distinct) h (h c.owner)
  cases leads with
  | unchanged => exact h
  | fixed hold => exact put hold Dict.Distinct.insert
  | unfixed hold => exact put hold Dict.Distinct.erase
  | added hold => exact put hold id
  | lowerSet hold => exact put hold id
  | upperSet hold => exact put hold id
  | related hold => exact put hold id
  | senseSet hold => exact put hold id
  | objectiveSet hold => exact put hold id
  | @solved _ o _ _ hold => cases o <;> exact put hold id
  | coefficientSet => exact edited
  | rhsSet => exact edited
  | deleted => exact edited

/-- Whatever operations lead to a subproblem, each of its fixed variables has one value. -/
theorem distinct_afterAll (labels : List (Datum α)) (steps : List (ℤ × Operation α)) :
    ∀ (i : ℕ) p, ((ofLabels labels).afterAll steps).subproblems[i]? = some p →
      p.fixed.Distinct := by
  have kept : ∀ {w : Workspace α}, (∀ (i : ℕ) p, w.subproblems[i]? = some p → p.fixed.Distinct) →
      ∀ (i : ℕ) p, (w.afterAll steps).subproblems[i]? = some p → p.fixed.Distinct := by
    induction steps with
    | nil => exact id
    | cons step rest ih => exact fun h => ih (distinct_after h step)
  refine kept fun i p hp => ?_
  obtain ⟨label, rfl⟩ := getElem?_ofLabels hp
  exact List.Pairwise.nil

end Workspace

end Multistage
