import Mathlib.Algebra.Group.Pi.Basic
import Multistage.Proofs.Linear.Optimum

/-!
# Declared problems

What was declared with a subproblem, apart from how the subproblem keeps it: a constraint is two
functions of a point that are related, and an edit changes one of these functions. A subproblem
implements a declared problem if the points and the objective of the one are those of the other.

## Main definitions

- `DeclaredRow`, `DeclaredProblem`: a constraint and a problem, as they were declared.
- `DeclaredProblem.Feasible`: the constraints, the bounds and the fixed values hold at a point.
- `Subproblem.Implements`: a subproblem keeps what was declared.

## Main statements

- `Subproblem.Implements.feasible_iff`: the points of the program of a subproblem are those of the
  declared problem.
- `Subproblem.Implements.exists_program`: a subproblem with variables has a program.
- `Subproblem.Implements.optimum`: the optimal value that a solve finds.
-/

namespace Multistage

/-- A constraint as it was declared: its two sides as functions of a point. -/
structure DeclaredRow where
  left : (ℕ → ℝ) → ℝ
  relation : Relation
  right : (ℕ → ℝ) → ℝ
  active : Bool

namespace DeclaredRow

/-- The constraint that two expressions are related. -/
noncomputable def ofSides (lhs : Affine ℚ) (relation : Relation) (rhs : Affine ℚ) : DeclaredRow :=
  ⟨lhs.value, relation, rhs.value, true⟩

/-- What the left side exceeds the right side by. -/
noncomputable def excess (r : DeclaredRow) (z : ℕ → ℝ) : ℝ := r.left z - r.right z

/-- The coefficient of a variable, all variables being on the left. -/
noncomputable def coefficient (r : DeclaredRow) (i : ℕ) : ℝ := r.excess (Pi.single i 1) - r.excess 0

/-- Give a variable another coefficient. -/
noncomputable def setCoefficient (r : DeclaredRow) (i : ℕ) (a : ℝ) : DeclaredRow :=
  { r with left := fun z => r.left z + (a - r.coefficient i) * z i }

/-- Give the constraint another constant, all constants being on the right. -/
noncomputable def setConstant (r : DeclaredRow) (b : ℝ) : DeclaredRow :=
  { r with right := fun z => r.right z + (b + r.excess 0) }

/-- Switch the constraint off. -/
def delete (r : DeclaredRow) : DeclaredRow := { r with active := false }

/-- The two sides are related at a point. -/
def Holds (r : DeclaredRow) (z : ℕ → ℝ) : Prop := r.relation.Holds (r.left z) (r.right z)

end DeclaredRow

namespace Extended

/-- A number is at least the value. -/
def IsBelow : Extended ℚ → ℝ → Prop
  | finite q, x => (q : ℝ) ≤ x
  | negInf, _ => True
  | _, _ => False

/-- A number is at most the value. -/
def IsAbove : Extended ℚ → ℝ → Prop
  | finite q, x => x ≤ (q : ℝ)
  | posInf, _ => True
  | _, _ => False

end Extended

/-- The variables of an expression are among given ones, and each is listed once. -/
structure Affine.IsOver (e : Affine ℚ) (handles : List Variable) : Prop where
  distinct : e.terms.Distinct
  known : ∀ v ∈ e.terms.keys, v ∈ handles

namespace Affine.IsOver

variable {e f : Affine ℚ} {handles : List Variable}

theorem ofScalar (c : ℚ) : (Affine.ofScalar c).IsOver handles := ⟨List.Pairwise.nil, nofun⟩

theorem ofVariable {v : Variable} (hv : v ∈ handles) : (Affine.ofVariable v).IsOver handles :=
  ⟨List.pairwise_singleton _ _, fun _ hu => List.mem_singleton.1 hu ▸ hv⟩

theorem add (he : e.IsOver handles) (hf : f.IsOver handles) : (e.add f).IsOver handles :=
  ⟨distinct_add he.distinct, fun v hv => (mem_keys_add.1 hv).elim (he.known v) (hf.known v)⟩

theorem scale (he : e.IsOver handles) (c : ℚ) : (e.scale c).IsOver handles :=
  ⟨he.distinct.of_keys_eq (Dict.keys_mapValues _ _), fun v hv => he.known v (mem_keys_scale.1 hv)⟩

theorem sub (he : e.IsOver handles) (hf : f.IsOver handles) : (e.sub f).IsOver handles :=
  he.add (hf.scale (-1))

end Affine.IsOver

/-- A problem as it was declared. Variables are handles; what belongs to a variable is found by its
position. -/
structure DeclaredProblem where
  owner : ℕ
  handles : List Variable
  lower : List (Extended ℚ)
  upper : List (Extended ℚ)
  /-- The values of the variables that are fixed. -/
  fixed : ℕ → Option ℚ
  rows : List DeclaredRow
  sense : Sense
  objective : Affine ℚ

namespace DeclaredProblem

/-- The problem without variables. -/
def empty (owner : ℕ) : DeclaredProblem where
  owner := owner
  handles := []
  lower := []
  upper := []
  fixed := fun _ => none
  rows := []
  sense := .min
  objective := Affine.ofScalar 0

/-- The active constraints hold at a point, the variables that are not fixed lie within their
bounds, and those that are fixed have their values. -/
structure Feasible (d : DeclaredProblem) (z : ℕ → ℝ) : Prop where
  holds : ∀ r ∈ d.rows, r.active = true → r.Holds z
  lower_le : ∀ i, d.fixed i = none → ∀ l, d.lower[i]? = some l → l.IsBelow (z i)
  le_upper : ∀ i, d.fixed i = none → ∀ u, d.upper[i]? = some u → u.IsAbove (z i)
  fixed_eq : ∀ i x, d.fixed i = some x → z i = x

end DeclaredProblem

/-! ### Calls -/

/-- A call that declares something with a subproblem, or solves it. -/
inductive SubproblemCall where
  | addVariable (name : Name) (lower upper : Extended ℚ)
  | setLower (v : Variable) (bound : Extended ℚ)
  | setUpper (v : Variable) (bound : Extended ℚ)
  | fix (v : Variable) (value : ℚ)
  | unfix (v : Variable)
  | addConstraint (lhs : Affine ℚ) (relation : Relation) (rhs : Affine ℚ) (name : Name)
  | setCoefficient (h : ConstraintHandle) (v : Variable) (value : ℚ)
  | setRhs (h : ConstraintHandle) (value : ℚ)
  | deleteConstraint (h : ConstraintHandle)
  | setObjective (sense : Sense) (objective : Affine ℚ)
  | optimize (solver : Solver ℚ)

namespace DeclaredProblem

/-- The problem with a change of one constraint. -/
def editRow (d : DeclaredProblem) (h : ConstraintHandle) (edit : DeclaredRow → DeclaredRow) :
    DeclaredProblem :=
  { d with rows := d.rows.modify h.index edit }

/-- What is declared after a call. -/
noncomputable def after (d : DeclaredProblem) : SubproblemCall → DeclaredProblem
  | .addVariable name lower upper => { d with
      handles := d.handles ++ [⟨d.owner, d.handles.length, .ofName name⟩]
      lower := d.lower ++ [lower]
      upper := d.upper ++ [upper] }
  | .setLower v bound => { d with lower := d.lower.set v.index bound }
  | .setUpper v bound => { d with upper := d.upper.set v.index bound }
  | .fix v value => { d with fixed := Function.update d.fixed v.index (some value) }
  | .unfix v => { d with fixed := Function.update d.fixed v.index none }
  | .addConstraint lhs relation rhs _ => { d with rows := d.rows ++ [.ofSides lhs relation rhs] }
  | .setCoefficient h v value => d.editRow h fun r => r.setCoefficient v.index value
  | .setRhs h value => d.editRow h fun r => r.setConstant value
  | .deleteConstraint h => d.editRow h DeclaredRow.delete
  | .setObjective sense objective => { d with sense := sense, objective := objective }
  | .optimize _ => d

/-- The value can be a lower bound: a number, or no bound. -/
def IsLowerBound (b : Extended ℚ) : Prop := b = .negInf ∨ ∃ q, b = .finite q

/-- The value can be an upper bound: a number, or no bound. -/
def IsUpperBound (b : Extended ℚ) : Prop := b = .posInf ∨ ∃ q, b = .finite q

/-- The constraint of a handle is one of the problem. -/
def Has (d : DeclaredProblem) (h : ConstraintHandle) : Prop :=
  h.owner = d.owner ∧ h.index < d.rows.length

/-- A call with handles that were given out before, and with bounds that are numbers or none. -/
def Permits (d : DeclaredProblem) : SubproblemCall → Prop
  | .addVariable _ lower upper => IsLowerBound lower ∧ IsUpperBound upper
  | .setLower v bound => v ∈ d.handles ∧ IsLowerBound bound
  | .setUpper v bound => v ∈ d.handles ∧ IsUpperBound bound
  | .fix v _ => v ∈ d.handles
  | .unfix v => v ∈ d.handles
  | .addConstraint lhs _ rhs _ => lhs.IsOver d.handles ∧ rhs.IsOver d.handles
  | .setCoefficient h v _ => d.Has h ∧ v ∈ d.handles
  | .setRhs h _ => d.Has h
  | .deleteConstraint h => d.Has h
  | .setObjective _ objective => objective.IsOver d.handles
  | .optimize _ => True

end DeclaredProblem

/-! ### Subproblems that keep what was declared -/

/-- The constraint is the declared one, over the first variables. -/
structure Constraint.Encodes (size : ℕ) (c : Constraint ℚ) (r : DeclaredRow) : Prop where
  relation_eq : c.relation = r.relation
  active_eq : c.active = r.active
  keys_lt : ∀ j ∈ c.coefficients.keys, j < size
  excess_eq : ∀ n, size ≤ n → ∀ z, c.coefficients.combination n z - c.rhs = r.excess z

namespace Constraint.Encodes

variable {size : ℕ} {c : Constraint ℚ} {r : DeclaredRow}

/-- A row means the same in a longer problem. -/
theorem mono (h : c.Encodes size r) {size' : ℕ} (hle : size ≤ size') : c.Encodes size' r where
  relation_eq := h.relation_eq
  active_eq := h.active_eq
  keys_lt := fun j hj => lt_of_lt_of_le (h.keys_lt j hj) hle
  excess_eq := fun n hn => h.excess_eq n (hle.trans hn)

/-- A constraint holds where the declared one does. -/
theorem holds_iff (h : c.Encodes size r) (z : ℕ → ℝ) : c.Holds size z ↔ r.Holds z := by
  rw [Constraint.Holds, DeclaredRow.Holds, h.relation_eq]
  exact Relation.holds_congr (h.excess_eq size le_rfl z)

/-- The coefficient of a variable is replaced. -/
theorem editCoefficient (h : c.Encodes size r) {i : ℕ} (hi : i < size) (a : ℚ) :
    ({ c with coefficients := c.coefficients.insert i a } : Constraint ℚ).Encodes size
      (r.setCoefficient i a) := by
  -- the coefficient is read off at the unit point and at zero
  have coefficient : r.coefficient i = c.coefficients.getD i 0 := by
    have unit : c.coefficients.combination size (Pi.single i 1) = c.coefficients.getD i 0 := by
      rw [Dict.combination, Finset.sum_eq_single_of_mem i (Finset.mem_range.2 hi)]
      · simp
      · intro j _ hj
        simp [hj]
    have zero : c.coefficients.combination size 0 = 0 := by simp [Dict.combination]
    rw [DeclaredRow.coefficient, ← h.excess_eq size le_rfl, ← h.excess_eq size le_rfl, unit, zero]
    ring
  refine { h with keys_lt := fun j hj => ?_, excess_eq := fun n hn z => ?_ }
  · rcases Dict.mem_keys_insert hj with rfl | hj
    · exact hi
    · exact h.keys_lt j hj
  · show (c.coefficients.insert i a).combination n z - c.rhs = _
    rw [Dict.combination_insert (lt_of_lt_of_le hi hn), DeclaredRow.excess]
    show _ = r.left z + (a - r.coefficient i) * z i - r.right z
    rw [coefficient]
    have := h.excess_eq n hn z
    rw [DeclaredRow.excess] at this
    linarith

/-- The right hand side is replaced. -/
theorem editRhs (h : c.Encodes size r) (b : ℚ) :
    ({ c with rhs := b } : Constraint ℚ).Encodes size (r.setConstant b) := by
  refine { h with excess_eq := fun n hn z => ?_ }
  have zero : c.coefficients.combination n 0 = 0 := by simp [Dict.combination]
  have at_zero := h.excess_eq n hn 0
  have at_z := h.excess_eq n hn z
  rw [zero] at at_zero
  show c.coefficients.combination n z - b = r.left z - (r.right z + (b + r.excess 0))
  rw [DeclaredRow.excess] at at_z
  linarith

/-- A constraint that is deleted is a row that does not count. -/
theorem delete (h : c.Encodes size r) :
    ({ c with active := false } : Constraint ℚ).Encodes size r.delete :=
  { h with active_eq := rfl }

end Constraint.Encodes

/-- The subproblem keeps what was declared. -/
structure Subproblem.Implements (p : Subproblem ℚ) (d : DeclaredProblem) : Prop where
  owner_eq : d.owner = p.owner
  length_eq : d.handles.length = p.names.length
  owned : ∀ v ∈ d.handles, v.owner = p.owner ∧ v.index < p.names.length
  injective : ∀ u ∈ d.handles, ∀ v ∈ d.handles, u.index = v.index → u = v
  lower_eq : p.lower = d.lower
  upper_eq : p.upper = d.upper
  lower_length : p.lower.length = p.names.length
  upper_length : p.upper.length = p.names.length
  lower_bounds : ∀ b ∈ p.lower, DeclaredProblem.IsLowerBound b
  upper_bounds : ∀ b ∈ p.upper, DeclaredProblem.IsUpperBound b
  fixed_distinct : p.fixed.Distinct
  fixed_lt : ∀ i ∈ p.fixed.keys, i < p.names.length
  fixed_eq : ∀ i, d.fixed i = p.fixed.get? i
  rows : List.Forall₂ (Constraint.Encodes p.names.length) p.constraints d.rows
  sense_eq : d.sense = p.sense
  objective_eq : d.objective = p.objective
  knows : d.objective.IsOver d.handles

namespace Subproblem.Implements

variable {p : Subproblem ℚ} {d : DeclaredProblem}

theorem empty (label : Datum ℚ) (owner : ℕ) :
    (Subproblem.empty label owner).Implements (.empty owner) where
  owner_eq := rfl
  length_eq := rfl
  owned := nofun
  injective := nofun
  lower_eq := rfl
  upper_eq := rfl
  lower_length := rfl
  upper_length := rfl
  lower_bounds := nofun
  upper_bounds := nofun
  fixed_distinct := List.Pairwise.nil
  fixed_lt := nofun
  fixed_eq := fun _ => rfl
  rows := .nil
  sense_eq := rfl
  objective_eq := rfl
  knows := ⟨List.Pairwise.nil, nofun⟩

/-- A variable that is added has the bounds that are declared for it. -/
theorem addVariable (h : p.Implements d) (name : Name) {l u : Extended ℚ}
    (hl : DeclaredProblem.IsLowerBound l) (hu : DeclaredProblem.IsUpperBound u)
    (registry : Dict Name (Operand ℚ)) :
    ({ p with
      names := p.names ++ [name]
      lower := p.lower ++ [l]
      upper := p.upper ++ [u]
      registry := registry } : Subproblem ℚ).Implements (d.after (.addVariable name l u)) := by
  have more : p.names.length ≤ (p.names ++ [name]).length := by simp
  have handle : ∀ v ∈ d.handles ++ [⟨d.owner, d.handles.length, .ofName name⟩],
      v ∈ d.handles ∨ v = ⟨p.owner, p.names.length, .ofName name⟩ := by
    intro v hv
    rw [h.owner_eq, h.length_eq, List.mem_append, List.mem_singleton] at hv
    exact hv
  refine
    { h with
      length_eq := ?_
      owned := fun v hv => ?_
      injective := fun u hu v hv huv => ?_
      lower_eq := ?_
      upper_eq := ?_
      lower_length := by simp [h.lower_length]
      upper_length := by simp [h.upper_length]
      lower_bounds := List.forall_mem_append.2 ⟨h.lower_bounds, by simpa using hl⟩
      upper_bounds := List.forall_mem_append.2 ⟨h.upper_bounds, by simpa using hu⟩
      fixed_lt := fun i hi => lt_of_lt_of_le (h.fixed_lt i hi) more
      rows := h.rows.imp fun _ _ hcr => hcr.mono more
      knows := ⟨h.knows.distinct, fun v hv => List.mem_append_left _ (h.knows.known v hv)⟩ }
  · simp [DeclaredProblem.after, h.length_eq]
  · rcases handle v hv with hv | rfl
    · exact ⟨(h.owned v hv).1, lt_of_lt_of_le (h.owned v hv).2 more⟩
    · exact ⟨rfl, by simp⟩
  · -- the new variable has a position of its own
    rcases handle u hu with hu | rfl <;> rcases handle v hv with hv | rfl
    · exact h.injective u hu v hv huv
    · exact absurd huv (h.owned u hu).2.ne
    · exact absurd huv.symm (h.owned v hv).2.ne
    · rfl
  · show p.lower ++ [l] = d.lower ++ [l]
    rw [h.lower_eq]
  · show p.upper ++ [u] = d.upper ++ [u]
    rw [h.upper_eq]

/-- An expression over declared variables lists each of them once, and they have different
positions. -/
theorem separated (h : p.Implements d) {e : Affine ℚ} (he : e.IsOver d.handles) : e.Separated :=
  ⟨he.distinct, fun u hu v hv => h.injective u (he.known u hu) v (he.known v hv)⟩

/-- A constraint that is added is the declared row. -/
theorem addConstraint (h : p.Implements d) {lhs rhs : Affine ℚ} (hl : lhs.IsOver d.handles)
    (hr : rhs.IsOver d.handles) {relation : Relation} {name : Name} {k : Constraint ℚ}
    (hk : p.constraintOf lhs rhs relation name = .ok k) (registry : Dict Name (Operand ℚ)) :
    ({ p with constraints := p.constraints ++ [k], registry := registry } : Subproblem ℚ).Implements
      (d.after (.addConstraint lhs relation rhs name)) := by
  have difference := hl.sub hr
  have within : ∀ {e : Affine ℚ}, e.IsOver d.handles → e.Within p.owner p.names.length :=
    fun he v hv => h.owned v (he.known v hv)
  refine { h with rows := List.rel_append h.rows (.cons ?_ .nil) }
  exact
    { relation_eq := by rw [Subproblem.constraintOf_eq_ok hk]; rfl
      active_eq := by rw [Subproblem.constraintOf_eq_ok hk]; rfl
      keys_lt := fun j hj => by
        obtain ⟨a, ha⟩ := Dict.exists_get?_of_mem_keys hj
        exact Subproblem.coefficients_constraintOf hk (within hl) (within hr) j a ha
      excess_eq := fun n hn z => Subproblem.excess_constraintOf hk (h.separated difference)
        (fun v hv => lt_of_lt_of_le (h.owned v (difference.known v hv)).2 hn) z }

/-- A constraint that is edited is the row that is edited in the same way. -/
theorem editConstraint (h : p.Implements d) (handle : ConstraintHandle)
    {edit : Constraint ℚ → Constraint ℚ} {edit' : DeclaredRow → DeclaredRow}
    (hedit : ∀ c r, c.Encodes p.names.length r → (edit c).Encodes p.names.length (edit' r)) :
    (p.editConstraint handle.index edit).Implements (d.editRow handle edit') :=
  { h with rows := forall₂_modify h.rows hedit handle.index }

theorem setLower (h : p.Implements d) (v : Variable) {bound : Extended ℚ}
    (hbound : DeclaredProblem.IsLowerBound bound) :
    ({ p with lower := p.lower.set v.index bound } : Subproblem ℚ).Implements
      (d.after (.setLower v bound)) := by
  refine { h with lower_eq := ?_, lower_length := ?_, lower_bounds := fun b hb => ?_ }
  · show p.lower.set v.index bound = d.lower.set v.index bound
    rw [h.lower_eq]
  · show (p.lower.set v.index bound).length = _
    rw [List.length_set, h.lower_length]
  · rcases List.mem_or_eq_of_mem_set hb with hb | rfl
    · exact h.lower_bounds b hb
    · exact hbound

theorem setUpper (h : p.Implements d) (v : Variable) {bound : Extended ℚ}
    (hbound : DeclaredProblem.IsUpperBound bound) :
    ({ p with upper := p.upper.set v.index bound } : Subproblem ℚ).Implements
      (d.after (.setUpper v bound)) := by
  refine { h with upper_eq := ?_, upper_length := ?_, upper_bounds := fun b hb => ?_ }
  · show p.upper.set v.index bound = d.upper.set v.index bound
    rw [h.upper_eq]
  · show (p.upper.set v.index bound).length = _
    rw [List.length_set, h.upper_length]
  · rcases List.mem_or_eq_of_mem_set hb with hb | rfl
    · exact h.upper_bounds b hb
    · exact hbound

/-- A variable that is fixed has its value. -/
theorem fix (h : p.Implements d) {v : Variable} (hv : v ∈ d.handles) (value : ℚ) :
    ({ p with fixed := p.fixed.insert v.index value } : Subproblem ℚ).Implements
      (d.after (.fix v value)) := by
  refine { h with fixed_distinct := h.fixed_distinct.insert, fixed_lt := fun i hi => ?_,
                  fixed_eq := fun i => ?_ }
  · rcases Dict.mem_keys_insert hi with rfl | hi
    · exact (h.owned v hv).2
    · exact h.fixed_lt i hi
  · show Function.update d.fixed v.index (some value) i = (p.fixed.insert v.index value).get? i
    rw [Dict.get?_insert, ← h.fixed_eq]
    rcases eq_or_ne i v.index with rfl | hne
    · rw [Function.update_self, if_pos (beq_self_eq_true _)]
    · rw [Function.update_of_ne hne, if_neg (by simpa using hne.symm)]

theorem unfix (h : p.Implements d) (v : Variable) :
    ({ p with fixed := p.fixed.erase v.index } : Subproblem ℚ).Implements (d.after (.unfix v)) := by
  refine { h with fixed_distinct := h.fixed_distinct.erase, fixed_lt := fun i hi => ?_,
                  fixed_eq := fun i => ?_ }
  · obtain ⟨e, he, rfl⟩ := List.mem_map.1 hi
    exact h.fixed_lt _ (List.mem_map_of_mem (List.mem_of_mem_eraseP he))
  · show Function.update d.fixed v.index none i = (p.fixed.erase v.index).get? i
    rw [Dict.get?_erase h.fixed_distinct, ← h.fixed_eq]
    rcases eq_or_ne i v.index with rfl | hne
    · rw [Function.update_self, if_pos (beq_self_eq_true _)]
    · rw [Function.update_of_ne hne, if_neg (by simpa using hne.symm)]

/-- The objective that is set is the declared one. -/
theorem setObjective (h : p.Implements d) (sense : Sense) {objective : Affine ℚ}
    (hobjective : objective.IsOver d.handles) :
    ({ p with sense := sense, objective := objective } : Subproblem ℚ).Implements
      (d.after (.setObjective sense objective)) :=
  { h with sense_eq := rfl, objective_eq := rfl, knows := hobjective }

theorem withOutcome (h : p.Implements d) (outcome : Outcome ℚ) :
    (p.withOutcome outcome).Implements d := by
  cases outcome <;> exact { h with }

/-! ### Points and optimal values -/

/-- The points that satisfy constraints, bounds and fixings are those that are declared. -/
theorem admits_iff (h : p.Implements d) (z : ℕ → ℝ) :
    (p.Admits (fun _ => False) z ∧ ∀ e ∈ p.fixed.entries, z e.1 = e.2) ↔ d.Feasible z := by
  have holds : (∀ c ∈ p.activeConstraints, c.Holds p.names.length z) ↔
      ∀ r ∈ d.rows, r.active = true → r.Holds z := by
    rw [← forall_mem_iff_of_forall₂
      (P := fun c => c.active = true → c.Holds p.names.length z) h.rows
      fun c r hcr => by rw [hcr.active_eq, hcr.holds_iff]]
    simp only [Subproblem.activeConstraints, List.mem_filter, and_imp]
  have fixed : (∀ e ∈ p.fixed.entries, z e.1 = e.2) ↔ ∀ i x, d.fixed i = some x → z i = x := by
    constructor
    · intro hvalues i x hx
      obtain ⟨e, he, hi, rfl⟩ := Dict.exists_mem_of_get? ((h.fixed_eq i).symm.trans hx)
      rw [← eq_of_beq hi]
      exact hvalues e he
    · intro hvalues e he
      refine hvalues e.1 e.2 ((h.fixed_eq e.1).trans ?_)
      exact (Dict.get?_eq_some_iff h.fixed_distinct).2 ⟨e, he, beq_self_eq_true _, rfl⟩
  rw [fixed]
  constructor
  · rintro ⟨⟨hholds, hlower, hupper⟩, hvalues⟩
    refine ⟨holds.1 hholds, fun i hfree l hl => ?_, fun i hfree u hu => ?_, hvalues⟩
    · rw [← h.lower_eq] at hl
      rcases h.lower_bounds l (List.mem_of_getElem? hl) with rfl | ⟨q, rfl⟩
      · trivial
      · exact hlower i not_false ((h.fixed_eq i).symm.trans hfree) q hl
    · rw [← h.upper_eq] at hu
      rcases h.upper_bounds u (List.mem_of_getElem? hu) with rfl | ⟨q, rfl⟩
      · trivial
      · exact hupper i not_false ((h.fixed_eq i).symm.trans hfree) q hu
  · rintro ⟨hholds, hlower, hupper, hvalues⟩
    refine ⟨⟨holds.2 hholds, fun i _ hfree l hl => ?_, fun i _ hfree u hu => ?_⟩, hvalues⟩
    · exact hlower i ((h.fixed_eq i).trans hfree) _ (h.lower_eq ▸ hl)
    · exact hupper i ((h.fixed_eq i).trans hfree) _ (h.upper_eq ▸ hu)

/-- The points of the program of a subproblem are those of the declared problem. -/
theorem feasible_iff (h : p.Implements d) {program : Program ℚ} (hprogram : p.program = .ok program)
    (z : ℕ → ℝ) : program.Feasible z ↔ d.Feasible z := by
  obtain ⟨rows, bounds, lists⟩ := Subproblem.lists_of_program hprogram
  have fixed : ∀ e ∈ p.fixed.entries, e.1 < p.names.length :=
    fun e he => h.fixed_lt e.1 (List.mem_map_of_mem he)
  rw [lists.feasible_iff h.lower_length h.upper_length fixed, h.admits_iff]

/-- The objective mentions only variables of the subproblem. -/
theorem objective_lt (h : p.Implements d) :
    ∀ v ∈ p.objective.terms.keys, v.index < p.names.length :=
  fun v hv => (h.owned v (h.knows.known v (h.objective_eq ▸ hv))).2

/-- A subproblem with variables has a program. -/
theorem exists_program (h : p.Implements d) (hne : d.handles ≠ []) :
    ∃ program, p.program = .ok program := by
  have positive : p.names.length ≠ 0 := by
    rw [← h.length_eq]
    simpa using hne
  refine Subproblem.exists_program positive h.lower_length h.upper_length (fun c hc => ?_)
    h.objective_lt
  have encoded := (forall_mem_iff_of_forall₂
    (P := fun c : Constraint ℚ => ∀ i ∈ c.coefficients.keys, i < p.names.length)
    h.rows fun c r hcr => iff_true_intro hcr.keys_lt).2 fun _ _ => trivial
  exact encoded c (List.mem_filter.1 hc).1

/-- The optimal value that a solve with a sound solver finds is the best value of the objective over
the points of the declared problem, and it is the value of the objective at the point that was
found. -/
theorem optimum (h : p.Implements d) {program : Program ℚ} (hprogram : p.program = .ok program)
    {solver : Solver ℚ} (hsolver : solver.Sound) :
    ∃ p', Subproblem.optimize solver p = .ok () p' ∧ (p'.termination = .optimal →
      ∃ optimum, p'.optimum? = some optimum ∧
        (∃ z, d.Feasible z ∧ d.objective.value z = (optimum : ℚ)) ∧
        (∀ z, d.Feasible z → d.sense.AtMost ((optimum : ℚ) : ℝ) (d.objective.value z)) ∧
        p'.valueOf d.objective = .ok optimum) := by
  have hsolve : Subproblem.optimize solver p = .ok () (p.withOutcome (solver program)) := by
    show EStateM.bind (Action.ofExcept p.program) _ p = _
    rw [hprogram]
    rfl
  refine ⟨_, hsolve, fun htermination => ?_⟩
  have hprimal : (p.withOutcome (solver program)).primal = .feasiblePoint := by
    cases hout : solver program with
    | optimal point value marginals => rfl
    | infeasible => rw [hout] at htermination; cases htermination
    | unbounded => rw [hout] at htermination; cases htermination
    | undecided => rw [hout] at htermination; cases htermination
  have hfixed : ∀ e ∈ p.fixed.entries, e.1 < p.names.length :=
    fun e he => h.fixed_lt e.1 (List.mem_map_of_mem he)
  obtain ⟨point, best, hpoint, hbest, length, admits, values, attained⟩ :=
    Subproblem.admits_point hsolver hsolve hprimal h.lower_length h.upper_length hfixed
      h.objective_lt
  obtain ⟨optimum, hoptimum, bound⟩ := Subproblem.optimum_atMost hsolver hsolve hprimal
    h.lower_length h.upper_length h.fixed_distinct hfixed h.objective_lt
  obtain rfl : best = optimum := Option.some.inj (hbest.symm.trans hoptimum)
  refine ⟨best, hbest, ⟨entryOf point, (h.admits_iff _).1 ⟨admits, values⟩, ?_⟩, fun z hz => ?_, ?_⟩
  · rw [h.objective_eq, attained]
  · obtain ⟨hadmits, hvalues⟩ := (h.admits_iff z).2 hz
    -- at a point with the fixed values there is nothing to move along
    have unmoved : (p.fixed.entries.map fun e => (((p.withOutcome (solver program)).fixedDuals.getD
        e.1 0 : ℚ) : ℝ) * (z e.1 - e.2)).sum = 0 := by
      refine List.sum_eq_zero fun y hy => ?_
      obtain ⟨e, he, rfl⟩ := List.mem_map.1 hy
      rw [hvalues e he, sub_self, mul_zero]
    have := bound z hadmits
    rwa [unmoved, add_zero, ← h.sense_eq, ← h.objective_eq] at this
  · obtain ⟨value, hvalue⟩ := Subproblem.exists_valueOf (e := d.objective) hpoint fun v hv => by
      obtain ⟨howner, hindex⟩ := h.owned v (h.knows.known v hv)
      exact ⟨howner.trans (h.owner_eq.symm.trans (h.withOutcome _).owner_eq), length ▸ hindex⟩
    have read := Subproblem.cast_valueOf hpoint hvalue
    rw [h.objective_eq, ← attained] at read
    rw [hvalue, Rat.cast_injective read]

end Subproblem.Implements

end Multistage
