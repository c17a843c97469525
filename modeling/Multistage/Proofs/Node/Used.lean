import Multistage.Proofs.Lists
import Multistage.Proofs.Node.Adding
import Multistage.Proofs.Node.NewCut
import Multistage.Proofs.Stage.Assignment

/-!
# Nodes in use

A node is used by solving, refining and pruning it. It then differs from the node that was built in
what the noise assigns, in the values of the incoming copies, in its cuts and their constraints, and
in nothing else that a solve depends on.

## Main definitions

- `Node.Used`: what use leaves of the node that was built.

## Main statements

- `Node.used_of_blank`: a node that was built.
- `Node.used_refine`, `Node.used_prune`: two of the operations.
-/

namespace Multistage

/-- The field is not one of a later constraint. -/
def Field.Below (base : ℕ) : Field → Prop
  | .rhs k => k < base
  | .coefficient k _ => k < base
  | _ => True

namespace Node

/-- The number of constraints. -/
def rowCount (n : Node ℚ) : ℕ := n.stage.subproblem.constraints.length

/-- The constraints after those that were declared. -/
def later (start n : Node ℚ) : List (Constraint ℚ) :=
  n.stage.subproblem.constraints.drop start.rowCount

/-- What use leaves of a node that was built, with the constraints that came first after those that
were declared. -/
structure Used (sense : Sense) (start : Node ℚ) (rows : List (Constraint ℚ))
    (n : Node ℚ) : Prop where
  declaration : n.declaration = start.declaration
  distinct : n.stage.subproblem.fixed.Distinct
  lower_length : n.stage.subproblem.lower.length = start.stage.subproblem.lower.length
  upper_length : n.stage.subproblem.upper.length = start.stage.subproblem.upper.length
  rowCount_le : start.rowCount ≤ n.rowCount
  kind : ∀ i < start.rowCount, (n.stage.subproblem.constraints[i]?).map Constraint.kind =
    (start.stage.subproblem.constraints[i]?).map Constraint.kind
  content : ∀ f, f.Below start.rowCount → ¬start.stage.Assignable f →
    (∀ s ∈ start.stage.states.entries, f ≠ .fixed s.2.incoming.index) →
      n.stage.content f = start.stage.content f
  objective : n.stage.objectiveInstalled = true → ∀ describe e,
    n.stage.objective.toAffine describe = .ok e → n.stage.subproblem.sense = sense ∧
      n.stage.subproblem.objective = e.add (Affine.ofVariable start.cuts.term)
  unset : ¬start.stage.Assignable .objective →
    (∀ describe e, start.stage.objective.toAffine describe ≠ .ok e) →
      n.stage.subproblem.sense = start.stage.subproblem.sense ∧
        n.stage.subproblem.objective = start.stage.subproblem.objective
  rows : rows <+: n.stage.subproblem.constraints.drop start.rowCount
  installed : ∀ c ∈ n.cuts.pool.cuts, ∀ i, c.constraint? = some i → start.rowCount ≤ i

variable {sense : Sense} {start n : Node ℚ} {rows : List (Constraint ℚ)}

/-- A node that was built is as good as new. -/
theorem used_of_blank (h : start.Blank) : Used sense start [] start where
  declaration := rfl
  distinct := by rw [h.tidy.fixed_eq]; exact .nil
  lower_length := rfl
  upper_length := rfl
  rowCount_le := le_rfl
  kind := fun _ _ => rfl
  content := fun _ _ _ _ => rfl
  objective := fun hi => by rw [h.tidy.installed] at hi; cases hi
  unset := fun _ _ => ⟨rfl, rfl⟩
  rows := List.nil_prefix
  installed := fun c hc => by rw [h.pool_eq] at hc; cases hc

namespace Used

/-- A later look takes in all constraints that there are. -/
theorem now (h : Used sense start rows n) :
    Used sense start (n.stage.subproblem.constraints.drop start.rowCount) n :=
  { h with rows := List.prefix_rfl }

theorem states_eq (h : Used sense start rows n) : n.stage.states = start.stage.states :=
  congrArg (·.stage.states) h.declaration

theorem owner_eq (h : Used sense start rows n) :
    n.stage.subproblem.owner = start.stage.subproblem.owner :=
  congrArg (·.stage.subproblem.owner) h.declaration

theorem names_eq (h : Used sense start rows n) :
    n.stage.subproblem.names = start.stage.subproblem.names :=
  congrArg (·.stage.subproblem.names) h.declaration

theorem term_eq (h : Used sense start rows n) : n.cuts.term = start.cuts.term :=
  congrArg (·.cuts.term) h.declaration

theorem settings_eq (h : Used sense start rows n) : n.cuts.settings = start.cuts.settings :=
  congrArg (·.cuts.settings) h.declaration

theorem children_eq (h : Used sense start rows n) : n.children = start.children :=
  congrArg (·.children) h.declaration

theorem edits_eq (h : Used sense start rows n) : n.stage.edits = start.stage.edits :=
  congrArg (·.stage.edits) h.declaration

theorem named_lt (hb : start.Blank) (h : Used sense start rows n) {name : Name}
    {k : ConstraintHandle} (hk : n.stage.lookup name = .ok (.constraint k)) :
    k.index < start.rowCount := by
  have declared : n.stage.declaration = start.stage.declaration := congrArg (·.stage) h.declaration
  rw [Stage.lookup_of_declaration_eq declared] at hk
  exact hb.tidy.lookup_within hk

theorem rowsExist (hb : start.Blank) (h : Used sense start rows n) : n.stage.RowsExist :=
  fun _ _ hk => lt_of_lt_of_le (h.named_lt hb hk) h.rowCount_le

/-- Other cuts, of which those that are installed have later constraints. -/
theorem withPool (h : Used sense start rows n) {pool : CutPool ℚ ℚ}
    (hinstalled : ∀ c ∈ pool.cuts, ∀ i, c.constraint? = some i → start.rowCount ≤ i) :
    Used sense start rows (n.withPool pool) :=
  { h with installed := hinstalled }

/-- Other constraints after those that were declared. -/
theorem withRows (h : Used sense start rows n) {rows' constraints : List (Constraint ℚ)}
    (hbelow : ∀ i < start.rowCount, constraints[i]? = n.stage.subproblem.constraints[i]?)
    (hlength : start.rowCount ≤ constraints.length)
    (hrows : rows' <+: constraints.drop start.rowCount) :
    Used sense start rows'
      (n.withSubproblem { n.stage.subproblem with constraints := constraints }) where
  declaration := h.declaration
  distinct := h.distinct
  lower_length := h.lower_length
  upper_length := h.upper_length
  rowCount_le := hlength
  kind := fun i hi => by
    rw [← h.kind i hi]
    exact congrArg (Option.map Constraint.kind) (hbelow i hi)
  content := fun f hf hassigned hincoming => by
    rw [← h.content f hf hassigned hincoming]
    cases f with
    | rhs k => exact congrArg (fun c => Content.number (Option.map Constraint.rhs c)) (hbelow k hf)
    | coefficient k i =>
      exact congrArg (fun c : Option (Constraint ℚ) =>
        Content.number (c.bind fun c => c.coefficients.get? i)) (hbelow k hf)
    | _ => rfl
  objective := h.objective
  unset := h.unset
  rows := hrows
  installed := h.installed

end Used

/-! ### Refining -/

theorem Used.withRow (h : Used sense start rows n) (k : Constraint ℚ) :
    Used sense start rows (n.withRow k) := by
  refine h.withRows (fun i hi => ?_) ?_ ?_
  · exact List.getElem?_append_left (lt_of_lt_of_le hi h.rowCount_le)
  · exact h.rowCount_le.trans (by simp [rowCount])
  · rw [List.drop_append_of_le_length h.rowCount_le]
    exact h.rows.trans (List.prefix_append _ _)

/-- One more cut, which has a later constraint if it has one. -/
theorem Used.record (h : Used sense start rows n) {m : Node ℚ} {c : Cut ℚ} {pool : CutPool ℚ ℚ}
    (hm : Used sense start rows m) (hpool : n.Records c pool)
    (hc : ∀ i, c.constraint? = some i → start.rowCount ≤ i) : Used sense start rows
    (m.withPool pool) := by
  refine hm.withPool fun d hd i hi => ?_
  rw [Records, ← List.map_singleton, ← List.map_append] at hpool
  obtain ⟨d', hd', heq⟩ := exists_mem_of_map_eq hpool hd
  rw [show d.constraint? = d'.constraint? from congrArg (·.constraint?) heq] at hi
  rcases List.mem_append.1 hd' with hd' | hd'
  · exact h.installed d' hd' i hi
  · rw [List.mem_singleton.1 hd'] at hi
    exact hc i hi

theorem used_addCut (x given : State ℚ) {c : Cut ℚ} (hnone : c.constraint? = none) (height : ℚ) :
    Action.Ensures (Used sense start rows) (addCut sense x given c height) fun _ => True := by
  refine ensures_addCut (fun n k pool h _ hpool => ?_) (fun n pool h hpool => ?_)
    fun n place d k h _ _ _ => ?_
  · refine h.record (h.withRow k) hpool fun i hi => ?_
    cases hi
    exact h.rowCount_le
  · refine h.record h hpool fun i hi => ?_
    rw [hnone] at hi
    cases hi
  · refine (h.withRow k).withPool fun d' hd' => ?_
    rcases List.mem_or_eq_of_mem_set hd' with hd' | rfl
    · exact h.installed d' hd'
    · rintro _ ⟨⟩
      exact h.rowCount_le

theorem used_refine (measure : Measure ℚ) (x : State ℚ) (duals : List (State ℚ))
    (probabilities objectives : List ℚ) :
    Action.Ensures (Used sense start rows)
      (refine sense measure x duals probabilities objectives) fun _ => True :=
  ensures_refine fun _ height hcut => used_addCut x x (fresh_newCut hcut).1 height

/-! ### Pruning -/

/-- Pruning switches later constraints off. -/
theorem used_prune : Action.Ensures (Used sense start []) prune fun _ => True := by
  refine ensures_prune fun n place i c h hplace hi => ?_
  have later := h.installed c (List.mem_of_getElem? hplace) i hi
  refine (h.withRows (fun j hj => ?_) ?_ List.nil_prefix).withPool fun d hd => ?_
  · exact List.getElem?_modify_ne _ _ (by omega)
  · exact h.rowCount_le.trans (by simp [rowCount])
  · rcases List.mem_or_eq_of_mem_set hd with hd | rfl
    · exact h.installed d hd
    · rintro _ ⟨⟩

end Node

end Multistage
