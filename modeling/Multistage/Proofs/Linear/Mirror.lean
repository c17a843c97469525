import Mathlib.Tactic.Ring
import Multistage.Linear.Subproblem
import Multistage.Proofs.Dict
import Multistage.Proofs.Except
import Multistage.Proofs.Linear.Assembly
import Multistage.Proofs.Linear.Sensitivity
import Multistage.Proofs.Risk.Mirror

/-!
# Subproblems of the other sense

A variable of a subproblem can be exchanged for its negative. If the sense is turned round as well,
and everything else in the objective is negated, the linear program is the same up to the sign of
the variable. So is what a solve finds, with the optimal value and the duals negated.

## Main definitions

- `Program.reflect`, `Outcome.reflect`: a variable of a program exchanged for its negative.
- `Solver.Reflects`: solvers whose answers correspond under this exchange.
- `Constraint.mirror`, `Affine.mirror`, `Subproblem.mirror`: the subproblem of the other sense.

## Main statements

- `Subproblem.program_mirror`: the linear program of the mirrored subproblem.
- `Subproblem.withOutcome_mirror`: what a solve leaves.
-/

namespace Multistage

/-! ### Programs -/

/-- The row with a variable exchanged for its negative. -/
def Row.reflect (j : ℕ) (r : Row ℚ) : Row ℚ := ⟨r.coefficients.modify j (-·), r.rhs⟩

/-- The program with a variable exchanged for its negative. -/
def Program.reflect (j : ℕ) (p : Program ℚ) : Program ℚ where
  cost := p.cost.modify j (-·)
  atMost := p.atMost.map (Row.reflect j)
  equal := p.equal.map (Row.reflect j)
  lower := p.lower.set j ((p.upper.getD j none).map (-·))
  upper := p.upper.set j ((p.lower.getD j none).map (-·))

/-- What a solver reports with a variable exchanged for its negative. -/
def Outcome.reflect (j : ℕ) : Outcome ℚ → Outcome ℚ
  | optimal point value marginals => optimal (point.modify j (-·)) value marginals
  | infeasible => infeasible
  | unbounded => unbounded
  | undecided => undecided

/-- The second solver answers a program with a variable exchanged for its negative as the first
answers the program; both may be the same. -/
def Solver.Reflects (solver solver' : Solver ℚ) (j : ℕ) : Prop :=
  ∀ p : Program ℚ, j < p.lower.length → j < p.upper.length →
    solver' (p.reflect j) = (solver p).reflect j

/-! ### Subproblems -/

/-- The relation between exchanged sides. -/
def Relation.flip : Relation → Relation
  | atMost => atLeast
  | atLeast => atMost
  | equal => equal

/-- The constraint with a variable exchanged for its negative and then multiplied by minus one, so
that the variable keeps its coefficient; constraints without the variable stay as they are. -/
def Constraint.mirror (j : ℕ) (c : Constraint ℚ) : Constraint ℚ :=
  if c.coefficients.contains j then
    { c with
      coefficients := c.coefficients.mapValues fun i a => if i = j then a else -a
      relation := c.relation.flip
      rhs := -c.rhs }
  else c

/-- The negative of an expression with a variable exchanged for its negative. -/
def Affine.mirror (j : ℕ) (e : Affine ℚ) : Affine ℚ :=
  ⟨e.terms.mapValues fun v a => if v.index = j then a else -a, -e.constant⟩

namespace Subproblem

/-- The objective is over a variable. -/
def mentions (p : Subproblem ℚ) (j : ℕ) : Bool := p.objective.terms.keys.any (·.index == j)

/-- The subproblem of the other sense: a variable is exchanged for its negative, and the objective
is negated, unless it is not yet over that variable. -/
def mirror (j : ℕ) (p : Subproblem ℚ) : Subproblem ℚ :=
  { p with
    lower := p.lower.set j (p.upper.getD j .posInf).neg
    upper := p.upper.set j (p.lower.getD j .negInf).neg
    constraints := p.constraints.map (Constraint.mirror j)
    sense := if p.mentions j then p.sense.flip else p.sense
    objective := if p.mentions j then p.objective.mirror j else p.objective
    point? := p.point?.map (·.modify j (-·))
    optimum? := p.optimum?.map (-·)
    fixedDuals := p.fixedDuals.mapValues fun _ d => -d }

/-- There are bounds for all variables, and one variable is not fixed and in no equation. -/
structure Spares (j : ℕ) (p : Subproblem ℚ) : Prop where
  lower_length : p.lower.length = p.names.length
  upper_length : p.upper.length = p.names.length
  lt : j < p.names.length
  fixed : p.fixed.contains j = false
  relation : ∀ c ∈ p.constraints, c.coefficients.contains j = true → c.relation ≠ .equal

variable {j size : ℕ} {p : Subproblem ℚ}

/-! ### Rows -/

theorem getD_mapValues {f : ℕ → ℚ → ℚ} (hf : ∀ i, f i 0 = 0) (d : Dict ℕ ℚ) (i : ℕ) :
    (d.mapValues f).getD i 0 = f i (d.getD i 0) := by
  rw [Dict.getD, Dict.get?_mapValues_of_lawful, Dict.getD]
  cases d.get? i with
  | none => exact (hf i).symm
  | some a => rfl

/-- A row of changed coefficients is the row with its entries changed at their positions. -/
theorem dense_mapValues {f : ℕ → ℚ → ℚ} (hf : ∀ i, f i 0 = 0) (size : ℕ) (d : Dict ℕ ℚ) :
    dense size (d.mapValues f) = (dense size d).map (List.mapIdx f) := by
  unfold dense
  rw [Dict.keys_mapValues]
  split
  · rfl
  · refine congrArg Except.ok (List.ext_getElem? fun i => ?_)
    rw [List.getElem?_mapIdx, List.getElem?_map, List.getElem?_map, Option.map_map]
    by_cases hi : i < size
    · simp only [List.getElem?_range hi, Option.map_some, Function.comp, getD_mapValues hf]
    · simp [hi]

/-- All entries but one negated, in two ways, and one entry negated twice. -/
theorem mapIdx_eq_modify (j : ℕ) (row : List ℚ) :
    row.mapIdx (fun i a => if i = j then a else -a) = (row.map (-·)).modify j (-·) ∧
      (row.map (-·)).modify j (-·) = (row.modify j (-·)).map (-·) ∧
      ((row.modify j (-·)).map (-·)).map (-·) = row.modify j (-·) := by
  refine ⟨List.ext_getElem? fun i => ?_, List.ext_getElem? fun i => ?_, by simp⟩
  all_goals
    simp only [List.getElem?_mapIdx, List.getElem?_modify, List.getElem?_map]
    by_cases hi : j = i
    · simp [hi]
    · simp [hi, Ne.symm hi]

/-- Only one entry of a row is negated. -/
theorem mapIdx_turn (j : ℕ) (row : List ℚ) :
    row.mapIdx (fun i a => if i = j then -a else a) = row.modify j (-·) := by
  refine List.ext_getElem? fun i => ?_
  rw [List.getElem?_mapIdx, List.getElem?_modify]
  by_cases hi : j = i
  · simp [hi]
  · simp [hi, Ne.symm hi]

/-- A row without a coefficient at a position does not change when that is negated. -/
theorem modify_dense {d : Dict ℕ ℚ} {row : List ℚ} (hd : d.contains j = false)
    (h : dense size d = .ok row) : row.modify j (-·) = row := by
  have hnone : d.get? j = none := by
    rwa [Dict.contains_eq_isSome_get?, Option.isSome_eq_false_iff, Option.isNone_iff_eq_none] at hd
  rw [dense_eq_ok h]
  refine List.ext_getElem? fun i => ?_
  rw [List.getElem?_modify, List.getElem?_map]
  by_cases hi : j = i
  · subst hi
    by_cases hsize : j < size
    · simp [List.getElem?_range hsize, Dict.getD, hnone]
    · simp [hsize]
  · simp [hi]

/-- The row of a mirrored constraint is the reflected row. -/
theorem rowOf_mirror {c : Constraint ℚ}
    (hc : c.coefficients.contains j = true → c.relation ≠ .equal)
    (size : ℕ) : rowOf size (c.mirror j) = (rowOf size c).map (Row.reflect j) := by
  by_cases hj : c.coefficients.contains j = true
  · have mirrored : dense size (c.mirror j).coefficients =
        (dense size c.coefficients).map fun row => (row.map (-·)).modify j (-·) := by
      rw [Constraint.mirror, if_pos hj, dense_mapValues fun i => by simp]
      exact congrArg (Except.map · _) (funext fun row => (mapIdx_eq_modify j row).1)
    refine Except.bind_image mirrored fun row _ => congrArg Except.ok ?_
    obtain ⟨-, hneg, hneg'⟩ := mapIdx_eq_modify j row
    have hrelation := hc hj
    simp only [Constraint.mirror, hj, if_true]
    cases h : c.relation with
    | equal => exact absurd h hrelation
    | atMost => simp only [Relation.flip, Row.reflect, hneg, hneg', neg_neg]
    | atLeast => rfl
  · rw [Bool.not_eq_true] at hj
    have kept : c.mirror j = c := if_neg (by simp [hj])
    rw [kept]
    refine Except.bind_image (h := id) (congrFun Except.map_id _).symm fun row hrow =>
      congrArg Except.ok ?_
    have same := modify_dense hj hrow
    cases c.relation with
    | atLeast => rw [Row.reflect, (mapIdx_eq_modify j row).2.1, same]; rfl
    | atMost => rw [Row.reflect, same]; rfl
    | equal => rw [Row.reflect, same]; rfl

/-! ### The program -/

/-- Of the costs only that of the value term is negated: the sense is turned around as well. -/
theorem costEntries_mirror (hm : p.mentions j = true) :
    (p.mirror j).costEntries = p.costEntries.mapValues fun i a => if i = j then -a else a := by
  let turn : ℕ → ℚ → ℚ := fun i a => if i = j then -a else a
  have fold : ∀ (es : List (Variable × ℚ)) (cost : Dict ℕ ℚ),
      es.foldl (fun cost t => cost.insert t.1.index (cost.getD t.1.index 0 +
          p.sense.flip.sign * if t.1.index = j then t.2 else -t.2)) (cost.mapValues turn) =
        (es.foldl (fun cost t => cost.insert t.1.index (cost.getD t.1.index 0 +
          p.sense.sign * t.2)) cost).mapValues turn := by
    intro es
    induction es with
    | nil => exact fun _ => rfl
    | cons t rest ih =>
      intro cost
      rw [List.foldl_cons, List.foldl_cons, ← ih,
        Dict.mapValues_insert fun k k' v h => by rw [eq_of_beq h],
        getD_mapValues fun i => by simp [turn]]
      refine congrArg (fun a => List.foldl _ (Dict.insert _ t.1.index a) rest) ?_
      simp only [turn, Sense.sign_flip]
      split <;> ring
  unfold costEntries
  simp only [mirror, hm, if_true, Affine.mirror, Dict.mapValues, List.foldl_map]
  exact fold p.objective.terms.entries Dict.empty

/-- The same constraints are active. -/
theorem activeConstraints_mirror :
    (p.mirror j).activeConstraints = p.activeConstraints.map (Constraint.mirror j) := by
  show (p.constraints.map _).filter _ = (p.constraints.filter _).map _
  rw [List.filter_map]
  congr 2
  funext c
  simp only [Function.comp, Constraint.mirror]
  split <;> rfl

theorem relation_mirror (j : ℕ) (c : Constraint ℚ) :
    ((c.mirror j).relation == Relation.equal) = (c.relation == Relation.equal) := by
  unfold Constraint.mirror
  split
  · cases c.relation <;> rfl
  · rfl

theorem finite?_neg (b : Extended ℚ) : b.neg.finite? = b.finite?.map (-·) := by
  cases b <;> rfl

/-- Only the bounds of the value term change: they are exchanged and negated. -/
theorem keptBounds_mirror (h : p.Spares j) :
    (p.mirror j).keptBounds.map (·.1) =
        (p.keptBounds.map (·.1)).set j (((p.keptBounds.map (·.2)).getD j none).map (-·)) ∧
      (p.mirror j).keptBounds.map (·.2) =
        (p.keptBounds.map (·.2)).set j (((p.keptBounds.map (·.1)).getD j none).map (-·)) := by
  obtain ⟨l, hl⟩ : ∃ l, p.lower[j]? = some l :=
    ⟨_, List.getElem?_eq_getElem (h.lower_length ▸ h.lt)⟩
  obtain ⟨u, hu⟩ : ∃ u, p.upper[j]? = some u :=
    ⟨_, List.getElem?_eq_getElem (h.upper_length ▸ h.lt)⟩
  have kept : p.keptBounds[j]? = some (l.finite?, u.finite?) := by
    rw [getElem?_keptBounds, hl, hu]
    simp [h.fixed]
  obtain ⟨hlt, -⟩ := List.getElem?_eq_some_iff.1 kept
  have turned : (p.mirror j).keptBounds = p.keptBounds.set j (u.neg.finite?, l.neg.finite?) := by
    refine List.ext_getElem? fun i => ?_
    rw [getElem?_keptBounds, List.getElem?_set]
    show ((p.lower.set j (p.upper.getD j .posInf).neg)[i]?).bind (fun l =>
      ((p.upper.set j (p.lower.getD j .negInf).neg)[i]?).map fun u =>
        if p.fixed.contains i then (none, none) else (l.finite?, u.finite?)) = _
    rw [List.getElem?_set, List.getElem?_set, List.getD_eq_getElem?_getD,
      List.getD_eq_getElem?_getD, hl, hu]
    by_cases hi : j = i
    · subst hi
      simp [h.fixed, h.lower_length, h.upper_length, h.lt, hlt]
    · simp only [hi, if_false, getElem?_keptBounds]
  rw [turned, List.map_set, List.map_set, List.getD_eq_getElem?_getD, List.getD_eq_getElem?_getD,
    List.getElem?_map, List.getElem?_map, kept, finite?_neg, finite?_neg]
  exact ⟨rfl, rfl⟩

/-- The bounds are spread without a failure. -/
theorem Spares.spreadBounds_eq (h : p.Spares j) : p.spreadBounds = .ok p.keptBounds :=
  spreadBounds_eq_kept h.lower_length h.upper_length

theorem Spares.mirror (h : p.Spares j) : (p.mirror j).Spares j where
  lower_length := (List.length_set ..).trans h.lower_length
  upper_length := (List.length_set ..).trans h.upper_length
  lt := h.lt
  fixed := h.fixed
  relation := by
    intro c hc hj heq
    obtain ⟨d, hd, rfl⟩ := List.mem_map.1 hc
    have hequal := relation_mirror j d
    rw [heq, eq_comm] at hequal
    refine h.relation d hd ?_ (eq_of_beq hequal)
    unfold Constraint.mirror at hj
    split at hj
    next hc => exact hc
    next hc => exact hj

/-- Rows of which the relations are known, sorted by whether they are equations. -/
theorem filter_reflect (keep : Relation → Bool) (hkeep : ∀ c : Constraint ℚ,
      keep (c.mirror j).relation = keep c.relation) (cs : List (Constraint ℚ))
        (rows : List (Row ℚ)) :
    ((((cs.map fun c => (c.mirror j).relation).zip (rows.map (Row.reflect j))).filter
        fun e => keep e.1).map (·.2)) =
      ((((cs.map (·.relation)).zip rows).filter fun e => keep e.1).map (·.2)).map
      (Row.reflect j) := by
  induction cs generalizing rows with
  | nil => rfl
  | cons c cs ih =>
    cases rows with
    | nil => rfl
    | cons row rows =>
      simp only [List.map_cons, List.zip_cons_cons, List.filter_cons, hkeep]
      split
      · simp only [List.map_cons, ih]
      · exact ih rows

/-- The rows of the fixed variables are reflected; they do not mention the value term. -/
theorem fixingRows_mirror (h : p.Spares j) :
    (p.mirror j).fixingRows = p.fixingRows.map (Row.reflect j) := by
  unfold fixingRows
  rw [List.map_map]
  refine List.map_congr_left fun e he => ?_
  have hne : e.1 ≠ j := by
    rintro rfl
    have hany : p.fixed.contains e.1 = true := List.any_eq_true.2 ⟨e, he, BEq.rfl⟩
    rw [h.fixed] at hany
    cases hany
  simp only [Function.comp, Row.reflect, Row.mk.injEq, and_true]
  refine List.ext_getElem? fun i => ?_
  show ((List.range p.names.length).map _)[i]? = _
  rw [List.getElem?_modify]
  by_cases hi : j = i
  · subst hi
    by_cases hj : j < p.names.length
    · simp [hj, Ne.symm hne]
    · simp [hj]
  · simp [hi]

/-- The value term has bounds in the program. -/
theorem lengths_program (h : p.Spares j) {program : Program ℚ} (hp : p.program = .ok program) :
    j < program.lower.length ∧ j < program.upper.length := by
  have length : p.keptBounds.length = p.names.length := by
    rw [length_keptBounds, h.lower_length, h.upper_length, Nat.min_self]
  unfold Subproblem.program at hp
  obtain ⟨cost, -, hp⟩ := Except.bind_eq_ok.1 hp
  obtain ⟨rows, -, hp⟩ := Except.bind_eq_ok.1 hp
  simp only [h.spreadBounds_eq] at hp
  split at hp
  · cases hp
  · cases hp
    simp [length, h.lt]

/-- The linear program of the other sense is the same with the variable exchanged for its
negative. -/
theorem program_mirror (h : p.Spares j) (hm : p.mentions j = true) :
    (p.mirror j).program = p.program.map (Program.reflect j) := by
  have costs : dense p.names.length (p.mirror j).costEntries =
      (dense p.names.length p.costEntries).map (·.modify j (-·)) := by
    rw [costEntries_mirror hm, dense_mapValues fun i => by simp]
    exact congrArg (Except.map · _) (funext (mapIdx_turn j))
  have rows : (p.mirror j).activeConstraints.mapM (rowOf p.names.length) =
      (p.activeConstraints.mapM (rowOf p.names.length)).map (List.map (Row.reflect j)) := by
    rw [activeConstraints_mirror, List.mapM_map]
    refine Except.mapM_image fun c hc => rowOf_mirror (h.relation c (List.mem_of_mem_filter hc)) _
  have finite : ∀ xs : List ℚ, xs.all Scalar.isFinite = true := fun xs =>
    List.all_eq_true.2 fun _ _ => rfl
  have finiteRows : ∀ rows : List (Row ℚ),
      rows.all (fun r => true && Scalar.isFinite r.rhs) = true := fun rows =>
    List.all_eq_true.2 fun _ _ => rfl
  unfold program
  simp only [Except.mapM_pair, h.spreadBounds_eq, h.mirror.spreadBounds_eq, finite, finiteRows]
  refine Except.bind_image costs fun cost _ => ?_
  show ((p.mirror j).activeConstraints.mapM (rowOf p.names.length)).map _ >>= _ = _
  rw [rows]
  cases p.activeConstraints.mapM (rowOf p.names.length) with
  | error e => rfl
  | ok rows =>
    have relations : (p.mirror j).activeConstraints.map (·.relation) =
        p.activeConstraints.map fun c => (c.mirror j).relation := by
      rw [activeConstraints_mirror, List.map_map]
      rfl
    have sorted := fun keep hkeep => filter_reflect (j := j) keep hkeep p.activeConstraints rows
    have equations := sorted (· == .equal) (relation_mirror j)
    have inequalities := sorted (· != .equal) fun c => congrArg not (relation_mirror j c)
    obtain ⟨lower, upper⟩ := keptBounds_mirror h
    show (if _ then _ else Except.ok _) = Except.map _ (if _ then _ else Except.ok _)
    simp only [relations, equations, inequalities, fixingRows_mirror h, lower, upper]
    show (if (p.names.length == 0 || !true || !true) = true then _ else _) =
      Except.map _ (if (p.names.length == 0 || !true || !true) = true then _ else _)
    split
    · rfl
    · simp only [Except.map, Program.reflect, List.map_append]

/-! ### Solving -/

/-- There are as many equations. -/
theorem equationCount_mirror : (p.mirror j).equationCount = p.equationCount := by
  unfold equationCount
  rw [activeConstraints_mirror, List.filter_map, List.length_map]
  congr 2
  funext c
  exact relation_mirror j c

/-- A reflected outcome is read by the mirrored subproblem as the outcome is by the other. -/
theorem withOutcome_mirror (hm : p.mentions j = true) (o : Outcome ℚ) :
    (p.mirror j).withOutcome (o.reflect j) = (p.withOutcome o).mirror j := by
  cases o with
  | optimal point value marginals =>
    have duals : (p.fixed.keys.zip (marginals.drop (p.mirror j).equationCount)).map
        (fun e => (e.1, (p.mirror j).sense.sign * e.2)) =
        ((p.fixed.keys.zip (marginals.drop p.equationCount)).map
          fun e => (e.1, p.sense.sign * e.2)).map fun e => (e.1, -e.2) := by
      rw [equationCount_mirror, List.map_map]
      refine List.map_congr_left fun e _ => ?_
      simp only [mirror, hm, if_true, Sense.sign_flip, Function.comp, neg_mul]
    have optimum : (p.mirror j).sense.sign * value + (p.mirror j).objective.constant =
        -(p.sense.sign * value + p.objective.constant) := by
      simp only [mirror, hm, if_true, Sense.sign_flip, Affine.mirror]
      ring
    show { p.mirror j with
        termination := .optimal
        primal := .feasiblePoint
        dual := .feasiblePoint
        point? := some (point.modify j (-·))
        optimum? := some ((p.mirror j).sense.sign * value + (p.mirror j).objective.constant)
        fixedDuals := ⟨(p.fixed.keys.zip (marginals.drop (p.mirror j).equationCount)).map
          fun e : ℕ × ℚ => (e.1, (p.mirror j).sense.sign * e.2)⟩ } = _
    rw [optimum, duals]
    rfl
  | infeasible => rfl
  | unbounded => rfl
  | undecided => rfl

end Subproblem

end Multistage
