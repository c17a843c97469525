import Multistage.Proofs.Graph.Markovian

/-!
# Checks of Markovian graphs

Transition matrices and the edges of a graph are checked by the same law, the one as a rejection and
the other as a requirement. They agree as long as all entries are numbers: then what is made of
matrices has non-negative entries and rows that sum to at most one, and it is valid. A row that has
not-a-number among its entries is not rejected whatever its other entries sum to, since its sum is
in no relation to anything; the graph has edges for its positive entries only, and these are
checked.

## Main statements

- `Graph.IsMarkovian.validate_eq_ok`: when the graph of transition matrices passes its checks.
- `Graph.validate_of_ofTransitions`: what is known of transition matrices that make a graph.
-/

namespace Multistage

namespace Graph

variable {α : Type} [Scalar α] {g : Graph α} {ms : List (Matrix α)}

theorem probabilities_positiveEdges (stage : ℕ) (row : List α) :
    (positiveEdges stage row).map (·.2) = row.filter fun x => 0 < x := by
  have items : row.zipIdx.map Prod.fst = row := List.zipIdx_map_fst 0 row
  conv_rhs => rw [← items]
  rw [positiveEdges, List.map_filterMap, List.filter_map, ← List.filterMap_eq_map,
    List.filterMap_filter]
  refine List.filterMap_congr fun e _ => ?_
  by_cases h : 0 < e.1 <;> simp [h]

/-- A node of the graph has the edges of a row, or it is in the last stage and has none. -/
theorem IsMarkovian.children_cases (h : g.IsMarkovian ms) (hchained : Chained 1 ms) {t i : ℕ}
    (hnode : g.nodes.contains (.pair t i) = true) :
    (∃ m ∈ ms, ∃ row ∈ m.rows, g.nodes.get? (.pair t i) = some (positiveEdges (t + 1) row)) ∨
      g.nodes.get? (.pair t i) = some [] := by
  have listed := hnode
  rw [Dict.contains_eq_contains_keys, h.nodes, List.contains_cons, Bool.or_eq_true,
    Datum.pair_beq_pair,
    contains_stageNodes] at listed
  cases hm : ms[t]? with
  | none =>
    have beyond : ms.length ≤ t := List.getElem?_eq_none_iff.1 hm
    have last : t = ms.length := by
      rcases listed with ⟨rfl, -⟩ | ⟨j, m, hj, -, rfl⟩
      · omega
      · have := (List.getElem?_eq_some_iff.1 hj).1
        omega
    subst last
    exact .inr (h.last i hnode)
  | some m =>
    have hi : i < m.rows.length := by
      rcases listed with ⟨rfl, rfl⟩ | ⟨j, before, hj, hcolumns, rfl⟩
      · rw [hchained.first hm]
        exact Nat.one_pos
      · rw [Nat.add_comm] at hm
        obtain ⟨before', hbefore', hrows⟩ := hchained.next hm
        cases hj.symm.trans hbefore'
        rwa [hrows]
    exact .inl ⟨m, List.mem_of_getElem? hm, m.rows[i], List.getElem_mem hi,
      h.children t m hm i _ (List.getElem?_eq_getElem hi)⟩

section

variable [Scalar.Ordered α]

theorem validateEdges_positiveEdges {node : Datum α} {stage : ℕ} {row : List α} :
    validateEdges node (positiveEdges stage row) = .ok () ↔
      Scalar.sum (row.filter fun x => 0 < x) ≤ 1 + probabilityTolerance := by
  rw [validateEdges_eq_ok, probabilities_positiveEdges, and_iff_right]
  intro c hc
  have kept : c.2 ∈ row.filter fun x => 0 < x :=
    probabilities_positiveEdges stage row ▸ List.mem_map_of_mem (f := fun e : Datum α × α => e.2) hc
  exact (Scalar.Ordered.lt_iff.1 (of_decide_eq_true (List.mem_filter.1 kept).2)).1

/-- The graph of chained matrices passes its checks iff the positive entries of every row sum to at
most one. -/
theorem IsMarkovian.validate_eq_ok (h : g.IsMarkovian ms) (hchained : Chained 1 ms) :
    g.validate = .ok () ↔
      ∀ m ∈ ms, ∀ row ∈ m.rows, Scalar.sum (row.filter fun x => 0 < x) ≤
        1 + probabilityTolerance := by
  have unpartitioned : g.validatePartition = .ok () := by
    rw [validatePartition, h.partition]
    rfl
  have edges : g.validate = .ok () ↔ ∀ e ∈ g.nodes.entries, validateEdges e.1 e.2 = .ok () := by
    rw [validate, Except.bind_eq_ok, ← Except.forM_eq_ok]
    exact ⟨fun ⟨_, passes, _⟩ => passes, fun passes => ⟨(), passes, unpartitioned⟩⟩
  rw [edges]
  constructor
  · intro passes m hm row hrow
    obtain ⟨t, ht⟩ := List.getElem?_of_mem hm
    obtain ⟨i, hi⟩ := List.getElem?_of_mem hrow
    obtain ⟨e, he, -, hedges⟩ := Dict.exists_mem_of_get? (h.children t m ht i row hi)
    exact validateEdges_positiveEdges.1 (hedges ▸ passes e he)
  · intro rows e he
    have found : g.nodes.get? e.1 = some e.2 :=
      (Dict.get?_eq_some_iff h.distinct).2 ⟨e, he, BEq.rfl, rfl⟩
    have state : ∃ t i, e.1 = .pair t i := by
      have listed : e.1 ∈ g.nodes.keys := List.mem_map_of_mem he
      rw [h.nodes] at listed
      rcases List.mem_cons.1 listed with hroot | hlater
      · exact ⟨0, 0, hroot⟩
      · obtain ⟨t, _, -, i, -, hnode⟩ := mem_stageNodes.1 hlater
        exact ⟨1 + t, i, hnode⟩
    obtain ⟨t, i, hnode⟩ := state
    have contained : g.nodes.contains (.pair t i) = true := by
      rw [Dict.contains_eq_isSome_get?, ← hnode, found]
      rfl
    rw [hnode] at found
    rcases h.children_cases hchained contained with ⟨m, hm, row, hrow, hchildren⟩ | hchildren
    · rw [Option.some.inj (found.symm.trans hchildren)]
      exact validateEdges_positiveEdges.2 (rows m hm row hrow)
    · rw [Option.some.inj (found.symm.trans hchildren)]
      rfl

/-- Transition matrices that make a graph have no negative entry, and their rows of numbers are
sub-distributions. The graph passes its checks iff the positive entries of every row, added from
left to right, sum to at most one; so it does if all entries are numbers and this is what the whole
rows sum to. -/
theorem validate_of_ofTransitions {ts : List (Tensor α)} (h : ofTransitions ts = .ok g) :
    ∃ ms : List (Matrix α), ts.map Tensor.matrix? = ms.map some ∧
      (∀ m ∈ ms, ∀ row ∈ m.rows, (∀ x ∈ row, Scalar.isNumber x = true → 0 ≤ x) ∧
        ((∀ x ∈ row, Scalar.isNumber x = true) →
          0 ≤ Scalar.sumInLanes row ∧ Scalar.sumInLanes row ≤ 1 + probabilityTolerance)) ∧
      (g.validate = .ok () ↔
        ∀ m ∈ ms, ∀ row ∈ m.rows, Scalar.sum (row.filter fun x => 0 < x) ≤
          1 + probabilityTolerance) ∧
      ((∀ m ∈ ms, ∀ row ∈ m.rows,
        (∀ x ∈ row, Scalar.isNumber x = true) ∧ Scalar.sumInLanes row = Scalar.sum row) →
        g.validate = .ok ()) := by
  obtain ⟨-, ms, hms, hchained, unrejected, hg⟩ := ofTransitions_eq_ok.1 h
  obtain ⟨g', hg', markovian⟩ := exists_isMarkovian hms hchained
  cases hg'.symm.trans hg
  have valid := markovian.validate_eq_ok hchained
  have rows : ∀ m ∈ ms, ∀ row ∈ m.rows, (∀ x ∈ row, Scalar.isNumber x = true) → Substochastic row :=
    fun m hm row hrow hnumbers => (unrejected_iff hnumbers).1 (unrejected m hm row hrow)
  refine ⟨ms, hms, fun m hm row hrow => ⟨fun x hx hnumber => ?_, fun hnumbers => ?_⟩, valid,
    fun hall => ?_⟩
  · exact Scalar.nonneg_iff.2 ⟨hnumber, (unrejected m hm row hrow).entry x hx⟩
  · have sub := rows m hm row hrow hnumbers
    exact ⟨Scalar.sumInLanes_nonneg sub.entry, sub.sum⟩
  · refine valid.2 fun m hm row hrow => ?_
    obtain ⟨hnumbers, hsum⟩ := hall m hm row hrow
    have sub := rows m hm row hrow hnumbers
    exact Scalar.Ordered.trans (Scalar.sum_filter_le _ sub.entry) (hsum ▸ sub.sum)

end

theorem valid_of_twoTransitions : ∃ g, ofTransitions twoTransitions = .ok g ∧
    g.validate = .ok () := by
  have check : (ofTransitions twoTransitions).toBool = true := by decide +kernel
  obtain ⟨g, hg⟩ := Except.exists_of_toBool check
  obtain ⟨ms, hms, -, -, valid⟩ := validate_of_ofTransitions hg
  refine ⟨g, hg, valid ?_⟩
  have all : (twoTransitions.map Tensor.matrix?).all fun m? => m?.any fun m => m.rows.all fun row =>
      row.all Scalar.isNumber && decide (Scalar.sumInLanes row = Scalar.sum row) := by
        decide +kernel
  rw [hms] at all
  intro m hm row hrow
  have held := List.all_eq_true.1 all (some m) (List.mem_map_of_mem hm)
  have both := Bool.and_eq_true_iff.1 (List.all_eq_true.1 held row hrow)
  exact ⟨List.all_eq_true.1 both.1, of_decide_eq_true both.2⟩

-- a row with not-a-number is not rejected, however large its other entries are; then the graph is
-- not valid
example : (ofTransitions [⟨[1, 2], [Extended.nan, .finite (5 : ℚ)]⟩]).toOption.map
    (·.validate.toBool) = some false := by decide +kernel

end Graph

end Multistage
