import Mathlib.Logic.Function.Basic
import Multistage.Proofs.Node.Backing
import Multistage.Proofs.Node.Installation

/-!
# Installed cuts and their constraints

Whatever is refined, pruned and solved: the active constraints that were not declared are those of
the installed cuts, one for each. Nodes with the same installed cuts have the same such constraints.

## Main definitions

- `Cut.function`, `Node.installed`: the function of a cut, and those of the installed cuts.
- `Node.Seated`: every installed cut has a constraint of its own.

## Main statements

- `Node.seated_refine`, `Node.seated_prune`, `Node.Seated.of_sameCuts`: the three operations.
- `Node.later_perm`: nodes with the same installed cuts have the same constraints for them.
-/

namespace Multistage

/-- The function of a cut: the intercept, and what the coefficients of the names are. -/
def Cut.function (c : Cut ℚ) : ℚ × (Name → Option ℚ) := (c.intercept, c.coefficients.get?)

namespace Node

/-- The functions of the installed cuts. -/
def installed (n : Node ℚ) : List (ℚ × (Name → Option ℚ)) :=
  (n.cuts.pool.cuts.filter (·.constraint?.isSome)).map Cut.function

/-- Every installed cut has a constraint of its own, which says what the cut says. -/
structure Seated (sense : Sense) (n : Node ℚ) : Prop where
  constrained : ∀ c ∈ n.cuts.pool.cuts, ∀ i, c.constraint? = some i →
    ∃ k, n.stage.subproblem.constraints[i]? = some k ∧ n.cutConstraint sense c = .ok k
  injective : ∀ (j l : ℕ) (c d : Cut ℚ) (i : ℕ), n.cuts.pool.cuts[j]? = some c →
    n.cuts.pool.cuts[l]? = some d → c.constraint? = some i → d.constraint? = some i → j = l

variable {sense : Sense} {start n n' m : Node ℚ} {rows rows' : List (Constraint ℚ)} {c : Cut ℚ}

theorem seated_of_blank (h : n.Blank) : Seated sense n := by
  constructor
  all_goals
    rw [h.pool_eq]
    nofun

namespace Seated

theorem lt_rowCount (h : Seated sense n) (hc : c ∈ n.cuts.pool.cuts) {i : ℕ}
    (hi : c.constraint? = some i) :
    i < n.stage.subproblem.constraints.length := by
  obtain ⟨k, hk, -⟩ := h.constrained c hc i hi
  exact (List.getElem?_eq_some_iff.1 hk).1

theorem nodup_positions (h : Seated sense n) :
    (n.cuts.pool.cuts.filterMap (·.constraint?)).Nodup := by
  rw [List.Nodup, List.pairwise_filterMap, List.pairwise_iff_getElem]
  rintro j l hj hl hlt i hi _ hi' rfl
  exact absurd
    (h.injective j l _ _ i (List.getElem?_eq_getElem hj)
    (List.getElem?_eq_getElem hl) hi hi') hlt.ne

/-- One more cut, whose constraint is a new one if it has one. -/
theorem record (h : Seated sense n) {pool : CutPool ℚ ℚ} (hpool : n.Records c pool)
    (hstates : m.stage.states = n.stage.states) (hterm : m.cuts.term = n.cuts.term)
    (howner : m.stage.subproblem.owner = n.stage.subproblem.owner)
    (hold : ∀ (i : ℕ) (k : Constraint ℚ), n.stage.subproblem.constraints[i]? = some k →
      m.stage.subproblem.constraints[i]? = some k)
    (hnew : ∀ i : ℕ, c.constraint? = some i → i = n.stage.subproblem.constraints.length ∧
      ∃ k, m.stage.subproblem.constraints[i]? = some k ∧ n.cutConstraint sense c = .ok k) :
    Seated sense (m.withPool pool) := by
  rw [Records, ← List.map_singleton, ← List.map_append] at hpool
  have before : ∀ {j : ℕ} {d : Cut ℚ}, pool.cuts[j]? = some d → ∃ d', d.uncounted = d'.uncounted ∧
      (n.cuts.pool.cuts[j]? = some d' ∨ j = n.cuts.pool.cuts.length ∧ d' = c) := by
    intro j d hj
    obtain ⟨d', hd', heq⟩ := getElem?_of_map_eq hpool hj
    exact ⟨d', heq, getElem?_concat_cases hd'⟩
  have constraint_eq : ∀ {d d' : Cut ℚ}, d.uncounted = d'.uncounted →
      d'.constraint? = d.constraint? :=
    fun heq => (congrArg (·.constraint?) heq).symm
  have lt : ∀ {j i : ℕ} {d : Cut ℚ}, n.cuts.pool.cuts[j]? = some d → d.constraint? = some i →
      i < n.stage.subproblem.constraints.length :=
        fun hj hi => h.lt_rowCount (List.mem_of_getElem? hj) hi
  refine ⟨fun d hd i hi => ?_, fun j l d e i hj hl hdi hei => ?_⟩
  · obtain ⟨j, hj⟩ := List.getElem?_of_mem hd
    obtain ⟨d', heq, hd'⟩ := before hj
    have row : ∃ k, m.stage.subproblem.constraints[i]? = some k ∧
        n.cutConstraint sense d' = .ok k := by
      rcases hd' with hd' | ⟨-, rfl⟩
      · obtain ⟨k, hk, hcut⟩ :=
          h.constrained d' (List.mem_of_getElem? hd') i ((constraint_eq heq).trans hi)
        exact ⟨k, hold i k hk, hcut⟩
      · exact (hnew i ((constraint_eq heq).trans hi)).2
    obtain ⟨k, hk, hcut⟩ := row
    exact ⟨k, hk, (cutConstraint_congr sense hstates hterm howner (congrArg (·.intercept) heq)
      (congrArg (·.coefficients) heq)).trans hcut⟩
  · obtain ⟨d', hd, hd'⟩ := before hj
    obtain ⟨e', he, he'⟩ := before hl
    have hdi := (constraint_eq hd).trans hdi
    have hei := (constraint_eq he).trans hei
    rcases hd' with hd' | ⟨rfl, rfl⟩
    · rcases he' with he' | ⟨-, rfl⟩
      · exact h.injective j l d' e' i hd' he' hdi hei
      · exact absurd (hnew i hei).1 (Nat.ne_of_lt (lt hd' hdi))
    · rcases he' with he' | ⟨rfl, -⟩
      · exact absurd (hnew i hdi).1 (Nat.ne_of_lt (lt he' hei))
      · rfl

/-- A cut that was taken out gets a new constraint. -/
theorem reinstalledAt (h : Seated sense n) {place : ℕ} {d : Cut ℚ} {k : Constraint ℚ}
    (hplace : n.cuts.pool.cuts[place]? = some d) (hk : n.cutConstraint sense d = .ok k) :
    Seated sense (n.reinstalledAt place d k) := by
  have old : ∀ {i : ℕ} {l : Constraint ℚ}, n.stage.subproblem.constraints[i]? = some l →
      (n.stage.subproblem.constraints ++ [k])[i]? = some l := fun hl =>
    (List.getElem?_append_left (List.getElem?_eq_some_iff.1 hl).1).trans hl
  have fresh : ∀ e ∈ n.cuts.pool.cuts, e.constraint? ≠ some n.stage.subproblem.constraints.length :=
    fun e he hi => absurd (h.lt_rowCount he hi) (lt_irrefl _)
  refine ⟨fun e he i hi => ?_, fun j l e f i hj hl hei hfi => ?_⟩
  · rcases List.mem_or_eq_of_mem_set he with he | rfl
    · obtain ⟨l, hl, hcut⟩ := h.constrained e he i hi
      exact ⟨l, old hl, hcut⟩
    · cases hi
      exact ⟨k, List.getElem?_concat_length, hk⟩
  · rcases getElem?_set_cases hj with ⟨rfl, rfl⟩ | ⟨-, hj'⟩
    · cases hei
      rcases getElem?_set_cases hl with ⟨rfl, -⟩ | ⟨-, hl'⟩
      · rfl
      · exact absurd hfi (fresh f (List.mem_of_getElem? hl'))
    · rcases getElem?_set_cases hl with ⟨rfl, rfl⟩ | ⟨-, hl'⟩
      · cases hfi
        exact absurd hei (fresh e (List.mem_of_getElem? hj'))
      · exact h.injective j l e f i hj' hl' hei hfi

/-- An installed cut is taken out, and its constraint is switched off. -/
theorem takenOutAt (h : Seated sense n) {place i : ℕ} (hplace : n.cuts.pool.cuts[place]? = some c)
    (hi : c.constraint? = some i) : Seated sense (n.takenOutAt place i c) := by
  refine ⟨fun d hd j hj => ?_, fun j l d e p hj hl hd he => ?_⟩
  · obtain ⟨l, hl⟩ := List.getElem?_of_mem hd
    rcases getElem?_set_cases hl with ⟨-, rfl⟩ | ⟨hne, hl⟩
    · cases hj
    · obtain ⟨k, hk, hcut⟩ := h.constrained d (List.mem_of_getElem? hl) j hj
      -- two cuts never share a constraint
      have hij : i ≠ j := by
        rintro rfl
        exact hne (h.injective l place d c i hl hplace hj hi)
      exact ⟨k, (List.getElem?_modify_ne _ _ hij).trans hk, hcut⟩
  · rcases getElem?_set_cases hj with ⟨rfl, rfl⟩ | ⟨-, hj⟩
    · cases hd
    · rcases getElem?_set_cases hl with ⟨rfl, rfl⟩ | ⟨-, hl⟩
      · cases he
      · exact h.injective j l d e p hj hl hd he

/-- What a solve changes are neither cuts nor their constraints. -/
theorem of_sameCuts (h : Seated sense n) (hn : Used sense start rows n)
    (hn' : Used sense start rows' n') (hsame : SameCuts start n n') : Seated sense n' := by
  refine ⟨fun c hc i hi => ?_, by rw [hsame.cuts]; exact h.injective⟩
  rw [hsame.cuts] at hc
  obtain ⟨k, hk, hcut⟩ := h.constrained c hc i hi
  have hbase := hn.installed c hc i hi
  refine ⟨k, ?_, (cutConstraint_congr sense ?_ ?_ ?_ rfl rfl).trans hcut⟩
  · rw [← Nat.add_sub_cancel' hbase, ← List.getElem?_drop, hsame.rows, List.getElem?_drop,
      Nat.add_sub_cancel' hbase]
    exact hk
  · rw [hn.states_eq, hn'.states_eq]
  · rw [hn.term_eq, hn'.term_eq]
  · rw [hn.owner_eq, hn'.owner_eq]

end Seated

/-! ### Operations -/

theorem seated_refine (measure : Measure ℚ) (x : State ℚ) (duals : List (State ℚ))
    (probabilities objectives : List ℚ) :
    Action.Ensures (Seated sense) (refine sense measure x duals probabilities objectives)
      fun _ => True := by
  refine ensures_refine fun c height hcut => ?_
  have hnone := (fresh_newCut hcut).1
  refine ensures_addCut (fun n k pool h hk hpool => ?_) (fun n pool h hpool => ?_)
    fun n place d k h hplace _ hk => h.reinstalledAt hplace hk
  · refine h.record (m := n.withRow k) hpool rfl rfl rfl (fun i l hl => ?_) fun i hi => ?_
    · exact (List.getElem?_append_left (List.getElem?_eq_some_iff.1 hl).1).trans hl
    · cases hi
      exact ⟨rfl, k, List.getElem?_concat_length, hk⟩
  · refine h.record (m := n) hpool rfl rfl rfl (fun _ _ => id) fun i hi => ?_
    rw [hnone] at hi
    cases hi

theorem seated_prune : Action.Ensures (Seated sense) prune fun _ => True :=
  ensures_prune fun _ _ _ _ h hplace hi => h.takenOutAt hplace hi

/-! ### The constraints of the installed cuts -/

/-- The constraint of a cut depends on its function. -/
theorem cutConstraint_of_function_eq {d : Cut ℚ} (hstates : n'.stage.states = n.stage.states)
    (hterm : n'.cuts.term = n.cuts.term)
    (howner : n'.stage.subproblem.owner = n.stage.subproblem.owner)
    (h : d.function = c.function) : n'.cutConstraint sense d = n.cutConstraint sense c := by
  have intercept : d.intercept = c.intercept := congrArg Prod.fst h
  have coefficients : d.coefficients.get? = c.coefficients.get? := congrArg Prod.snd h
  unfold cutConstraint cutExpression Subproblem.constraintOf Subproblem.position
  simp only [hstates, hterm, howner, intercept, coefficients]

/-- The positions of the active constraints that were not declared are those of the installed
cuts. -/
theorem mem_positions_iff (h : Used sense start rows n) (hbacked : Backed sense start.rowCount n)
    (hseated : Seated sense n) {i : ℕ} :
    i ∈ n.cuts.pool.cuts.filterMap (·.constraint?) ↔ start.rowCount ≤ i ∧
      ∃ k, n.stage.subproblem.constraints[i]? = some k ∧ k.active = true := by
  rw [List.mem_filterMap]
  constructor
  · rintro ⟨c, hc, hi⟩
    obtain ⟨k, hk, hcut⟩ := hseated.constrained c hc i hi
    exact ⟨h.installed c hc i hi, k, hk, active_of_cutConstraint hcut⟩
  · rintro ⟨hi, k, hk, hactive⟩
    obtain ⟨c, hc, hci, -⟩ := hbacked.active i k hi hk hactive
    exact ⟨c, hc, hci⟩

/-- The active constraints that were not declared are those of the installed cuts. -/
theorem later_perm_installed (h : Used sense start rows n) (hbacked : Backed sense start.rowCount n)
    (hseated : Seated sense n) :
    (((later start n).filter (·.active)).map some).Perm
      ((n.cuts.pool.cuts.filter (·.constraint?.isSome)).map fun c =>
        (n.cutConstraint sense c).toOption) := by
  have positions :
      (n.cuts.pool.cuts.filterMap (·.constraint?)).map (n.stage.subproblem.constraints[·]?) =
      (n.cuts.pool.cuts.filter (·.constraint?.isSome)).map fun c =>
      (n.cutConstraint sense c).toOption := by
    rw [List.map_filterMap, ← List.filterMap_eq_map, List.filterMap_filter]
    refine List.filterMap_congr fun c hc => ?_
    cases hi : c.constraint? with
    | none => simp
    | some i =>
      obtain ⟨k, hk, hcut⟩ := hseated.constrained c hc i hi
      simp [hk, hcut, Except.toOption]
  rw [← positions]
  exact map_some_filter_drop_perm hseated.nodup_positions fun i =>
    mem_positions_iff h hbacked hseated

/-- Nodes with the same installed cuts have the same constraints for them. -/
theorem later_perm (h : Used sense start rows n) (h' : Used sense start rows' n')
    (hbacked : Backed sense start.rowCount n) (hbacked' : Backed sense start.rowCount n')
    (hseated : Seated sense n) (hseated' : Seated sense n')
    (hperm : n'.installed.Perm n.installed) :
    ((later start n').filter (·.active)).Perm ((later start n).filter (·.active)) := by
  have same : ∀ c d : Cut ℚ, d.function = c.function →
      n'.cutConstraint sense d = n.cutConstraint sense c :=
    fun c d => cutConstraint_of_function_eq (h'.states_eq.trans h.states_eq.symm)
      (h'.term_eq.trans h.term_eq.symm) (h'.owner_eq.trans h.owner_eq.symm)
  -- the constraint is that of the function of the cut
  obtain ⟨rowOf, hrow⟩ := (Function.factorsThrough_iff (f := Cut.function)
    fun c => (n.cutConstraint sense c).toOption).1 fun c d hcd =>
      congrArg Except.toOption ((same c c rfl).symm.trans (same d c hcd))
  have hrow' : (fun c => (n'.cutConstraint sense c).toOption) = rowOf ∘ Cut.function := by
    rw [← hrow]
    funext c
    rw [same c c rfl]
  have rows := later_perm_installed h hbacked hseated
  have rows' := later_perm_installed h' hbacked' hseated'
  rw [hrow, ← List.map_map] at rows
  rw [hrow', ← List.map_map] at rows'
  exact (List.map_perm_map_iff (Option.some_injective _)).1
    (rows'.trans ((hperm.map _).trans rows.symm))

end Node

end Multistage
