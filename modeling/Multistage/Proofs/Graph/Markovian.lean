import Multistage.Graph.Markovian
import Multistage.Proofs.Graph.Validity
import Multistage.Proofs.Lists
import Multistage.Proofs.Scalar.Ordered

/-!
# The structure of Markovian graphs

Transition matrices make a graph iff each of them has as many rows as the one before has columns,
beginning with one row, and their rows are sub-distributions. Its nodes are then the root and the
states of the stages, and a state has an edge for every positive entry of its row.

## Main definitions

- `Graph.Unrejected`, `Graph.Substochastic`: a row that the checks of matrices let pass, and a row
  that is a sub-distribution.
- `Graph.Chained`: matrices of which each has a row for every column of the one before.
- `Graph.IsMarkovian`: the graph that matrices describe.

## Main statements

- `Graph.exists_isMarkovian`: chained matrices have a graph.
- `Graph.ofTransitions_eq_ok`, `Graph.refusal_of_ofTransitions`: when transition matrices make a
  graph, and that nothing but a matrix is ever at fault.
- `Graph.markovian_structure`: the same for matrices of numbers, with the rows as sub-distributions.
-/

namespace Multistage

namespace Datum

theorem pair_beq_pair {α : Type} [Scalar α] {a b c d : ℕ} :
    ((pair a b : Datum α) == pair c d) = true ↔ a = c ∧ b = d := by
  rw [beq_iff_identity_eq]
  simp [pair, identity, identities]

end Datum

variable {α : Type} [Scalar α]

/-! ### Matrices -/

omit [Scalar α] in
theorem Tensor.matrix?_eq_some {t : Tensor α} {m : Matrix α} (h : t.matrix? = some m) :
    t.shape = [m.rows.length, m.columns] ∧
      ∀ row ∈ m.rows, row.length = m.columns ∧ ∀ x ∈ row, x ∈ t.entries := by
  unfold matrix? at h
  split at h
  next rows columns hshape =>
    obtain ⟨entries, hentries, rfl⟩ := Option.map_eq_some_iff.1 h
    have inRows := Except.eq_ok_of_toOption hentries
    unfold Tensor.inRows at inRows
    split at inRows
    next hlength =>
      cases inRows
      refine ⟨by simpa using hshape, fun row hrow => ?_⟩
      obtain ⟨i, hi, rfl⟩ := List.mem_map.1 hrow
      refine ⟨?_, fun x hx => List.mem_of_mem_drop (List.mem_of_mem_take hx)⟩
      have hfull : (i + 1) * columns ≤ rows * columns :=
        Nat.mul_le_mul_right _ (List.mem_range.1 hi)
      rw [Nat.succ_mul] at hfull
      rw [List.length_take, List.length_drop, beq_iff_eq.1 hlength]
      exact min_eq_left (by omega)
    next => cases inRows
  next => cases h

namespace Graph

/-- A row of a transition matrix is not rejected: no entry is negative, and the sum is neither
negative nor too large. -/
structure Unrejected (row : List α) : Prop where
  entry : ∀ x ∈ row, ¬x < 0
  sum : ¬Scalar.sumInLanes row < 0 ∧ ¬1 + probabilityTolerance < Scalar.sumInLanes row

/-- The entries of a row are non-negative and sum to at most one, up to the tolerance. -/
structure Substochastic (row : List α) : Prop where
  entry : ∀ x ∈ row, 0 ≤ x
  sum : Scalar.sumInLanes row ≤ 1 + probabilityTolerance

/-- A row of numbers is not rejected iff it is a sub-distribution. -/
theorem unrejected_iff [Scalar.Ordered α] {row : List α} (h : ∀ x ∈ row, Scalar.isNumber x = true) :
    Unrejected row ↔ Substochastic row := by
  constructor
  · intro hrow
    have nonneg : ∀ x ∈ row, 0 ≤ x := fun x hx => Scalar.nonneg_iff.2 ⟨h x hx, hrow.entry x hx⟩
    have sum := (Scalar.Ordered.refl_of_le (Scalar.sumInLanes_nonneg nonneg)).2
    have limit := (Scalar.Ordered.refl_of_le (zero_le_limit (α := α))).2
    exact ⟨nonneg, Scalar.le_of_not_lt sum limit hrow.sum.2⟩
  · intro hrow
    exact ⟨fun x hx => Scalar.not_lt_of_le (hrow.entry x hx),
      Scalar.not_lt_of_le (Scalar.sumInLanes_nonneg hrow.entry), Scalar.not_lt_of_le hrow.sum⟩

/-- Every matrix has as many rows as there are states before it, its own columns being the states
after it. -/
def Chained : ℕ → List (Matrix α) → Prop
  | _, [] => True
  | states, m :: rest => m.rows.length = states ∧ Chained m.columns rest

/-- The states of the stages of matrices. -/
def stageNodes (stage : ℕ) (ms : List (Matrix α)) : List (Datum α) :=
  (ms.zipIdx stage).flatMap fun e => (List.range e.1.columns).map (.pair e.2)

/-- The edges of the stages of matrices. -/
def stageEdges (stage : ℕ) (ms : List (Matrix α)) : List (Datum α × Datum α × Datum α) :=
  (ms.zipIdx stage).flatMap fun e => transitionEdges e.2 e.1

/-- The edges to the states of a stage that the positive entries of a row stand for. -/
def positiveEdges (stage : ℕ) (row : List α) : List (Datum α × α) :=
  row.zipIdx.filterMap fun e => if 0 < e.1 then some (.pair stage e.2, e.1) else none

/-- The ways in which transition matrices are refused. -/
inductive Refusal : Failure α → Prop where
  | first (shape : Option (List ℕ)) : Refusal (.firstTransition shape)
  | notMatrix (stage : ℕ) : Refusal (.transitionNotMatrix stage)
  | negative : Refusal .negativeTransition
  | sum : Refusal .transitionSum
  | size (stage : ℕ) : Refusal (.transitionSize stage)

/-! ### Stage by stage -/

theorem validateTransition_eq_ok {stage states : ℕ} {m : Matrix α} :
    validateTransition stage states m = .ok () ↔
      (∀ row ∈ m.rows, Unrejected row) ∧ (1 < stage → m.rows.length = states) := by
  have rows : (∀ row ∈ m.rows, Unrejected row) ↔ ¬m.rows.any (·.any (· < 0)) = true ∧
      ¬((m.rows.map Scalar.sumInLanes).any fun s => s < 0 || 1 + probabilityTolerance < s) =
        true := by
    simp only [List.any_map, List.any_eq_true, not_exists, not_and, Function.comp_apply,
      Bool.or_eq_true,
      decide_eq_true_eq, not_or]
    exact ⟨fun h => ⟨fun row hrow => (h row hrow).entry, fun row hrow => (h row hrow).sum⟩,
      fun h row hrow => ⟨h.1 row hrow, h.2 row hrow⟩⟩
  rw [rows]
  unfold validateTransition
  dsimp only
  split
  next h => exact ⟨nofun, fun hnot => absurd h hnot.1.1⟩
  next hentry =>
    split
    next h => exact ⟨nofun, fun hnot => absurd h hnot.1.2⟩
    next hsum =>
      split
      next h =>
        simp only [Bool.and_eq_true, decide_eq_true_eq, bne_iff_ne] at h
        exact ⟨nofun, fun hnot => absurd (hnot.2 h.1).symm h.2⟩
      next h =>
        refine ⟨fun _ => ⟨⟨hentry, hsum⟩, fun hstage => ?_⟩, fun _ => rfl⟩
        by_contra hne
        exact h (by simp [hstage, Ne.symm hne])

theorem refusal_of_validateTransition {stage states : ℕ} {m : Matrix α} {e : Failure α}
    (h : validateTransition stage states m = .error e) : Refusal e := by
  unfold validateTransition at h
  dsimp only at h
  split at h
  · cases h; exact .negative
  split at h
  · cases h; exact .sum
  split at h
  · cases h; exact .size stage
  · cases h

theorem markovianStages_cons_eq_ok {stage states : ℕ} {t : Tensor α} {rest : List (Tensor α)}
    {r : List (Datum α) × List (Datum α × Datum α × Datum α)} :
    markovianStages stage states (t :: rest) = .ok r ↔
      ∃ m, t.matrix? = some m ∧ (∀ row ∈ m.rows, Unrejected row) ∧
        (1 < stage → m.rows.length = states) ∧
        ∃ later, markovianStages (stage + 1) m.columns rest = .ok later ∧
          r = ((List.range m.columns).map (.pair stage) ++ later.1,
            transitionEdges stage m ++ later.2) := by
  rw [markovianStages]
  cases hm : t.matrix? with
  | none => simp
  | some m =>
    simp only [Option.some.injEq, exists_eq_left']
    constructor
    · intro h
      obtain ⟨_, hvalid, h⟩ := Except.bind_eq_ok.1 h
      obtain ⟨later, hlater, h⟩ := Except.bind_eq_ok.1 h
      obtain ⟨hrows, hsize⟩ := validateTransition_eq_ok.1 hvalid
      cases h
      exact ⟨hrows, hsize, later, hlater, rfl⟩
    · rintro ⟨hrows, hsize, later, hlater, rfl⟩
      exact Except.bind_eq_ok.2
        ⟨(), validateTransition_eq_ok.2 ⟨hrows, hsize⟩, Except.bind_eq_ok.2 ⟨later, hlater, rfl⟩⟩

/-- The stages of matrices that are chained and not rejected. The size of the first matrix is not
checked here. -/
theorem markovianStages_eq_ok {stage states : ℕ} {ts : List (Tensor α)}
    {r : List (Datum α) × List (Datum α × Datum α × Datum α)} (hstage : 0 < stage)
    (hfirst : 1 < stage ∨ ∀ t ∈ ts.head?, ∀ m, t.matrix? = some m → m.rows.length = states) :
    markovianStages stage states ts = .ok r ↔
      ∃ ms, ts.map Tensor.matrix? = ms.map some ∧ Chained states ms ∧
        (∀ m ∈ ms, ∀ row ∈ m.rows, Unrejected row) ∧
        r = (stageNodes stage ms, stageEdges stage ms) := by
  induction ts generalizing stage states r with
  | nil =>
    constructor
    · intro h
      cases h
      exact ⟨[], rfl, trivial, nofun, rfl⟩
    · rintro ⟨ms, hms, -, -, rfl⟩
      cases List.map_eq_nil_iff.1 hms.symm
      rfl
  | cons t rest ih =>
    rw [markovianStages_cons_eq_ok]
    constructor
    · rintro ⟨m, hm, hrows, hsize, later, hlater, rfl⟩
      obtain ⟨ms, hms, hchained, hlaterRows, rfl⟩ :=
        (ih (Nat.succ_pos _) (.inl (Nat.succ_lt_succ hstage))).1 hlater
      refine ⟨m :: ms, by rw [List.map_cons, hm, hms, List.map_cons], ⟨?_, hchained⟩,
        List.forall_mem_cons.2 ⟨hrows, hlaterRows⟩, rfl⟩
      rcases hfirst with hlate | hfirst
      · exact hsize hlate
      · exact hfirst t rfl m hm
    · rintro ⟨ms, hms, hchained, hrows, rfl⟩
      obtain ⟨m, later, rfl, hm, hlater⟩ := List.map_eq_cons_iff.1 hms.symm
      obtain ⟨hsize, hchained⟩ := hchained
      obtain ⟨hfirstRows, hrows⟩ := List.forall_mem_cons.1 hrows
      exact ⟨m, hm.symm, hfirstRows, fun _ => hsize, _,
        (ih (Nat.succ_pos _) (.inl (Nat.succ_lt_succ hstage))).2
        ⟨later, hlater.symm, hchained, hrows, rfl⟩, rfl⟩

theorem refusal_of_markovianStages {stage states : ℕ} {ts : List (Tensor α)} {e : Failure α}
    (h : markovianStages stage states ts = .error e) : Refusal e := by
  induction ts generalizing stage states with
  | nil => cases h
  | cons t rest ih =>
    rw [markovianStages] at h
    split at h
    · cases h
      exact .notMatrix stage
    obtain h | ⟨_, -, h⟩ := Except.bind_eq_error.1 h
    · exact refusal_of_validateTransition h
    obtain h | ⟨_, -, h⟩ := Except.bind_eq_error.1 h
    · exact ih h
    · cases h

/-! ### Nodes and edges -/

section

variable {ms : List (Matrix α)} {stage states : ℕ}

omit [Scalar α] in
theorem Chained.first (h : Chained states ms) {m : Matrix α} (hm : ms[0]? = some m) :
    m.rows.length = states := by
  cases ms with
  | nil => cases hm
  | cons m' rest =>
    cases hm
    exact h.1

omit [Scalar α] in
theorem Chained.next (h : Chained states ms) {i : ℕ} {m : Matrix α} (hm : ms[i + 1]? = some m) :
    ∃ before, ms[i]? = some before ∧ m.rows.length = before.columns := by
  induction ms generalizing states i with
  | nil => cases hm
  | cons m' rest ih =>
    cases i with
    | zero => exact ⟨m', rfl, h.2.first hm⟩
    | succ i => exact ih h.2 hm

omit [Scalar α] in
theorem mem_stageNodes {node : Datum α} :
    node ∈ stageNodes stage ms ↔
      ∃ i m, ms[i]? = some m ∧ ∃ k < m.columns, node = .pair (stage + i) k := by
  unfold stageNodes
  simp only [List.mem_flatMap, List.mem_map, List.mem_range, Prod.exists,
    List.mk_mem_zipIdx_iff_le_and_getElem?_sub]
  constructor
  · rintro ⟨m, t, ⟨ht, hm⟩, k, hk, rfl⟩
    exact ⟨t - stage, m, hm, k, hk, by rw [Nat.add_sub_cancel' ht]⟩
  · rintro ⟨i, m, hm, k, hk, rfl⟩
    exact ⟨m, stage + i, ⟨Nat.le_add_right _ _, by rwa [Nat.add_sub_cancel_left]⟩, k, hk, rfl⟩

theorem contains_stageNodes {t k : ℕ} : (stageNodes stage ms).contains (.pair t k) = true ↔
    ∃ i m, ms[i]? = some m ∧ k < m.columns ∧ t = stage + i := by
  rw [List.contains_iff_exists_mem_beq]
  constructor
  · rintro ⟨node, hnode, heq⟩
    obtain ⟨i, m, hm, k', hk', rfl⟩ := mem_stageNodes.1 hnode
    obtain ⟨rfl, rfl⟩ := Datum.pair_beq_pair.1 heq
    exact ⟨i, m, hm, hk', rfl⟩
  · rintro ⟨i, m, hm, hk, rfl⟩
    exact ⟨_, mem_stageNodes.2 ⟨i, m, hm, k, hk, rfl⟩, BEq.rfl⟩

/-- The states of all stages are distinct. -/
theorem stageNodes_pairwise : (stageNodes stage ms).Pairwise fun a b => (a == b) = false := by
  induction ms generalizing stage with
  | nil => exact .nil
  | cons m rest ih =>
    refine List.pairwise_append.2 ⟨?_, ih, fun a ha b hb => ?_⟩
    · refine List.pairwise_map.2 (List.nodup_range.imp fun hne => ?_)
      exact Bool.eq_false_iff.2 fun h => hne (Datum.pair_beq_pair.1 h).2
    · obtain ⟨k, -, rfl⟩ := List.mem_map.1 ha
      obtain ⟨i, m', -, k', -, rfl⟩ := mem_stageNodes.1 hb
      refine Bool.eq_false_iff.2 fun h => ?_
      have := (Datum.pair_beq_pair.1 h).1
      omega

theorem root_stageNodes_pairwise (hstage : 0 < stage) :
    (.pair 0 0 :: stageNodes stage ms : List (Datum α)).Pairwise fun a b => (a == b) = false := by
  refine List.pairwise_cons.2 ⟨fun node hnode => ?_, stageNodes_pairwise⟩
  obtain ⟨i, m, -, k, -, rfl⟩ := mem_stageNodes.1 hnode
  refine Bool.eq_false_iff.2 fun h => ?_
  have := (Datum.pair_beq_pair.1 h).1
  omega

theorem mem_transitionEdges {m : Matrix α} {e : Datum α × Datum α × Datum α}
    (h : e ∈ transitionEdges stage m) :
    ∃ last < m.rows.length, ∃ k < m.columns, ∃ p,
      e = (.pair (stage - 1) last, .pair stage k, .real p) := by
  unfold transitionEdges at h
  simp only [List.mem_flatMap, List.mem_range, List.mem_filterMap, Prod.exists,
    List.mk_mem_zipIdx_iff_getElem?] at h
  obtain ⟨k, hk, row, last, hrow, h⟩ := h
  have hlast := (List.getElem?_eq_some_iff.1 hrow).1
  split at h
  next p _ =>
    split at h
    · cases h
      exact ⟨last, hlast, k, hk, p, rfl⟩
    · cases h
  next => cases h

/-- The rows of chained matrices belong to the root and to the states of the stages. -/
theorem contains_of_row (hchained : Chained 1 ms) {t i : ℕ} {m : Matrix α} (hm : ms[t]? = some m)
    (hi : i < m.rows.length) :
    (.pair 0 0 :: stageNodes 1 ms : List (Datum α)).contains (.pair t i) = true := by
  rw [List.contains_cons]
  cases t with
  | zero =>
    rw [hchained.first hm] at hi
    cases Nat.lt_one_iff.1 hi
    rw [BEq.rfl, Bool.true_or]
  | succ t =>
    obtain ⟨before, hbefore, hrows⟩ := hchained.next hm
    rw [contains_stageNodes.2 ⟨t, before, hbefore, hrows ▸ hi, Nat.add_comm t 1⟩, Bool.or_true]

/-- The edges of chained matrices join the states of the stages. -/
theorem joins_of_mem_stageEdges (hchained : Chained 1 ms) {e : Datum α × Datum α × Datum α}
    (h : e ∈ stageEdges 1 ms) :
    (.pair 0 0 :: stageNodes 1 ms : List (Datum α)).contains e.1 = true ∧
      (stageNodes 1 ms).contains e.2.1 = true ∧ ∃ p, e.2.2.toScalar = .ok p := by
  unfold stageEdges at h
  simp only [List.mem_flatMap, Prod.exists, List.mk_mem_zipIdx_iff_le_and_getElem?_sub] at h
  obtain ⟨m, stage, ⟨hstage, hm⟩, he⟩ := h
  obtain ⟨last, hlast, k, hk, p, rfl⟩ := mem_transitionEdges he
  exact ⟨contains_of_row hchained hm hlast,
    contains_stageNodes.2 ⟨stage - 1, m, hm, hk, (Nat.add_sub_cancel' hstage).symm⟩, p, rfl⟩

theorem childOf_pair {t i s j : ℕ} {child : Datum α} {p : α} :
    childOf (.pair t i) (.pair s j, child, .real p) = if s = t ∧
    j = i then some (child, p) else none := by
  unfold childOf
  simp only [Datum.pair_beq_pair]
  rfl

/-- The children that the edges of one stage give a state of the stage before. -/
theorem childrenAmong_transitionEdges {m : Matrix α} (hm : ∀ row ∈ m.rows, row.length = m.columns)
    (t i : ℕ) :
    childrenAmong (transitionEdges (t + 1) m) (.pair t i) =
      (m.rows[i]?).elim [] (positiveEdges (t + 1)) := by
  let positive (p : α) (k : ℕ) : Option (Datum α × α) :=
    if 0 < p then some (.pair (t + 1) k, p) else none
  calc childrenAmong (transitionEdges (t + 1) m) (.pair t i)
    _ = (List.range m.columns).flatMap fun k =>
        (m.rows[i]?).elim [] fun row => (row[k]?.bind (positive · k)).toList := by
      refine (List.filterMap_flatMap ..).trans (List.flatMap_congr fun k _ => ?_)
      rw [List.filterMap_filterMap, List.filterMap_eq_flatMap_toList]
      refine (flatMap_zipIdx_single (i := i) fun row last _ hlast => ?_).trans ?_
      · rw [Nat.zero_add] at hlast
        cases hp : row[k]? with
        | none => simp [hp]
        | some p => by_cases hpos : 0 < p <;> simp [hp, hpos, childOf_pair, hlast]
      · refine congrArg (Option.elim _ [] ·) (funext fun row => ?_)
        cases hp : row[k]? with
        | none => simp [hp]
        | some p => by_cases hpos : 0 < p <;> simp [hp, hpos, childOf_pair, positive]
    _ = (m.rows[i]?).elim [] (positiveEdges (t + 1)) := by
      cases hrow : m.rows[i]? with
      | none => exact List.flatMap_eq_nil_iff.2 fun _ _ => rfl
      | some row =>
        rw [← hm row (List.mem_of_getElem? hrow)]
        exact flatMap_range_getElem?

/-- The edges of one stage leave no state of another stage than the one before. -/
theorem childrenAmong_transitionEdges_of_ne {m : Matrix α} {t i : ℕ} (h : stage - 1 ≠ t) :
    childrenAmong (transitionEdges stage m) (.pair t i) = [] := by
  refine List.filterMap_eq_nil_iff.2 fun e he => ?_
  obtain ⟨last, -, k, -, p, rfl⟩ := mem_transitionEdges he
  rw [childOf_pair, if_neg fun both => h both.1]

theorem childrenAmong_stageEdges (hms : ∀ m ∈ ms, ∀ row ∈ m.rows, row.length = m.columns)
    (t i : ℕ) :
    childrenAmong (stageEdges 1 ms) (.pair t i) =
      (ms[t]?).elim [] fun m => (m.rows[i]?).elim [] (positiveEdges (t + 1)) := by
  refine (List.filterMap_flatMap ..).trans ?_
  refine (flatMap_zipIdx_single (i := t) fun m j hj hne => ?_).trans ?_
  · exact childrenAmong_transitionEdges_of_ne (by omega)
  · cases hm : ms[t]? with
    | none => rfl
    | some m =>
      rw [Nat.add_comm]
      exact childrenAmong_transitionEdges (hms m (List.mem_of_getElem? hm)) t i

end

/-! ### The graph -/

/-- The graph has the root and the states of the stages as its nodes. A state has an edge for every
positive entry of its row, in the order of the row; those of the last stage have none. -/
structure IsMarkovian (g : Graph α) (ms : List (Matrix α)) : Prop where
  root : g.root = .pair 0 0
  partition : g.partition = []
  nodes : g.nodes.keys = .pair 0 0 :: stageNodes 1 ms
  distinct : g.nodes.Distinct
  children : ∀ t m, ms[t]? = some m → ∀ i row, m.rows[i]? = some row →
    g.nodes.get? (.pair t i) = some (positiveEdges (t + 1) row)
  last : ∀ k, g.nodes.contains (.pair ms.length k) = true →
  g.nodes.get? (.pair ms.length k) = some []

variable {ts : List (Tensor α)} {ms : List (Matrix α)} {g : Graph α}

omit [Scalar α] in
theorem row_of_matrices (hms : ts.map Tensor.matrix? = ms.map some) {m : Matrix α} (hm : m ∈ ms) :
    ∃ t ∈ ts, ∀ row ∈ m.rows, row.length = m.columns ∧ ∀ x ∈ row, x ∈ t.entries := by
  obtain ⟨t, hmem, ht⟩ := List.mem_map.1 (hms ▸ List.mem_map_of_mem hm)
  exact ⟨t, hmem, (Tensor.matrix?_eq_some ht).2⟩

/-- Chained matrices have a graph. -/
theorem exists_isMarkovian (hms : ts.map Tensor.matrix? = ms.map some) (hchained : Chained 1 ms) :
    ∃ g, ofEdges (.pair 0 0) (stageNodes 1 ms) (stageEdges 1 ms) [] = .ok g ∧ g.IsMarkovian ms := by
  have hkeys : ∀ node ∈ (.pair 0 0 :: stageNodes 1 ms : List (Datum α)), node.isKey = true := by
    refine List.forall_mem_cons.2 ⟨rfl, fun node hnode => ?_⟩
    obtain ⟨_, _, -, _, -, rfl⟩ := mem_stageNodes.1 hnode
    rfl
  have hdistinct : (.pair 0 0 :: stageNodes 1 ms : List (Datum α)).Pairwise fun a b =>
      (a == b) = false :=
    root_stageNodes_pairwise Nat.one_pos
  obtain ⟨g, hg, hroot, hpartition, hnodes, hchildren⟩ :=
    ofEdges_of_joins hkeys hdistinct fun e => joins_of_mem_stageEdges hchained
  have lengths : ∀ m ∈ ms, ∀ row ∈ m.rows, row.length = m.columns := by
    intro m hm row hrow
    obtain ⟨t, -, ht⟩ := row_of_matrices hms hm
    exact (ht row hrow).1
  have children : ∀ t i, g.nodes.contains (.pair t i) = true → g.nodes.get? (.pair t i) =
      some ((ms[t]?).elim [] fun m => (m.rows[i]?).elim [] (positiveEdges (t + 1))) := by
    intro t i h
    rw [Dict.contains_eq_contains_keys, hnodes] at h
    rw [hchildren _ h, childrenAmong_stageEdges lengths]
  refine ⟨g, hg, hroot, hpartition, hnodes, Dict.distinct_iff_keys.2 (hnodes ▸ hdistinct),
    fun t m hm i row hrow => ?_,
    fun k hk => ?_⟩
  · have held := contains_of_row hchained hm (List.getElem?_eq_some_iff.1 hrow).1
    rw [children t i (by rwa [Dict.contains_eq_contains_keys, hnodes]), hm]
    simp only [Option.elim_some, hrow]
  · rw [children _ k hk, List.getElem?_eq_none (Nat.le_refl _)]
    rfl

/-- Transition matrices that do not begin with one row are refused. -/
theorem begins_with_row_or_refused (ts : List (Tensor α)) :
    ((∀ t ∈ ts.head?, ∀ columns, t.shape ≠ [1, columns]) ∧
      ∃ shape, ofTransitions ts = .error (.firstTransition shape)) ∨
      ∃ t rest columns, ts = t :: rest ∧ t.shape = [1, columns] ∧
        ofTransitions ts = markovianStages 1 1 ts >>= fun r => ofEdges (.pair 0 0) r.1 r.2 [] := by
  cases ts with
  | nil => exact .inl ⟨nofun, none, rfl⟩
  | cons t rest =>
    unfold ofTransitions
    dsimp only
    split
    next columns hshape => exact .inr ⟨t, rest, columns, rfl, hshape, rfl⟩
    next hshape =>
      refine .inl ⟨?_, some t.shape, rfl⟩
      rintro _ ⟨⟩ columns h
      exact hshape columns h

omit [Scalar α] in
theorem rows_of_begins {t : Tensor α} {rest : List (Tensor α)} {columns : ℕ}
    (h : t.shape = [1, columns]) :
    ∀ t' ∈ (t :: rest).head?, ∀ m, t'.matrix? = some m → m.rows.length = 1 := by
  rintro _ ⟨⟩ m hm
  have shape := (Tensor.matrix?_eq_some hm).1
  rw [h, List.cons.injEq] at shape
  exact shape.1.symm

theorem ofTransitions_eq_ok : ofTransitions ts = .ok g ↔
    ts ≠ [] ∧ ∃ ms, ts.map Tensor.matrix? = ms.map some ∧
    Chained 1 ms ∧ (∀ m ∈ ms, ∀ row ∈ m.rows, Unrejected row) ∧
      ofEdges (.pair 0 0) (stageNodes 1 ms) (stageEdges 1 ms) [] = .ok g := by
  rcases begins_with_row_or_refused ts with ⟨hhead, shape, h⟩ | ⟨t, rest, columns, rfl, hshape, h⟩
  · rw [h]
    refine ⟨nofun, ?_⟩
    rintro ⟨hne, ms, hms, hchained, -⟩
    cases ts with
    | nil => exact absurd rfl hne
    | cons t rest =>
      obtain ⟨m, later, rfl, hm, -⟩ := List.map_eq_cons_iff.1 hms.symm
      have shape := (Tensor.matrix?_eq_some hm.symm).1
      rw [hchained.1] at shape
      exact absurd shape (hhead t rfl m.columns)
  · rw [h, Except.bind_eq_ok]
    constructor
    · rintro ⟨r, hr, hg⟩
      obtain ⟨ms, hms, hchained, hrows, rfl⟩ :=
        (markovianStages_eq_ok Nat.one_pos (.inr (rows_of_begins hshape))).1 hr
      exact ⟨nofun, ms, hms, hchained, hrows, hg⟩
    · rintro ⟨-, ms, hms, hchained, hrows, hg⟩
      exact ⟨_, (markovianStages_eq_ok Nat.one_pos (.inr (rows_of_begins hshape))).2
        ⟨ms, hms, hchained, hrows, rfl⟩, hg⟩

/-- Transition matrices that make no graph are refused as such: no edge and no node is at fault. -/
theorem refusal_of_ofTransitions {e : Failure α} (h : ofTransitions ts = .error e) : Refusal e := by
  rcases begins_with_row_or_refused ts with ⟨-, shape, hshape⟩ | ⟨t, rest, columns, rfl,
      hshape, hts⟩
  · rw [h] at hshape
    cases hshape
    exact .first shape
  · rw [hts] at h
    obtain h | ⟨r, hr, h⟩ := Except.bind_eq_error.1 h
    · exact refusal_of_markovianStages h
    · obtain ⟨ms, hms, hchained, -, rfl⟩ :=
        (markovianStages_eq_ok Nat.one_pos (.inr (rows_of_begins hshape))).1 hr
      obtain ⟨g, hg, -⟩ := exists_isMarkovian hms hchained
      rw [hg] at h
      cases h

/-- Transition matrices of numbers make a graph iff there are some, each is a matrix with as many
rows as the one before has columns, beginning with one row, and the rows are sub-distributions; the
graph is then the one of the matrices. Whatever the entries are, matrices that make no graph are
refused as such: no node and no edge is at fault. -/
theorem markovian_structure [Scalar.Ordered α] (ts : List (Tensor α)) :
    ((∀ t ∈ ts, ∀ x ∈ t.entries, Scalar.isNumber x = true) →
      ((∃ g, ofTransitions ts = .ok g) ↔ ts ≠ [] ∧ ∃ ms,
        ts.map Tensor.matrix? = ms.map some ∧ Chained 1 ms ∧
        ∀ m ∈ ms, ∀ row ∈ m.rows, Substochastic row)) ∧
      (∀ g, ofTransitions ts = .ok g → ∃ ms,
        ts.map Tensor.matrix? = ms.map some ∧ Chained 1 ms ∧ g.IsMarkovian ms) ∧
      (∀ e, ofTransitions ts = .error e → Refusal e) ∧
      ∀ transitions, transitions.mapM Tensor.ofDatum = .ok ts →
        markovian transitions = ofTransitions ts := by
  refine ⟨fun hnumbers => ?_, fun g hg => ?_, fun e => refusal_of_ofTransitions,
    fun transitions h => ?_⟩
  · have rows : ∀ ms : List (Matrix α), ts.map Tensor.matrix? = ms.map some →
        ((∀ m ∈ ms, ∀ row ∈ m.rows, Unrejected row) ↔ ∀ m ∈ ms, ∀ row ∈ m.rows,
          Substochastic row) := by
      intro ms hms
      refine forall₂_congr fun m hm => forall₂_congr fun row hrow => unrejected_iff fun x hx => ?_
      obtain ⟨t, ht, hrows⟩ := row_of_matrices hms hm
      exact hnumbers t ht x ((hrows row hrow).2 x hx)
    constructor
    · rintro ⟨g, hg⟩
      obtain ⟨hne, ms, hms, hchained, hrows, -⟩ := ofTransitions_eq_ok.1 hg
      exact ⟨hne, ms, hms, hchained, (rows ms hms).1 hrows⟩
    · rintro ⟨hne, ms, hms, hchained, hrows⟩
      obtain ⟨g, hg, -⟩ := exists_isMarkovian hms hchained
      exact ⟨g, ofTransitions_eq_ok.2 ⟨hne, ms, hms, hchained, (rows ms hms).2 hrows, hg⟩⟩
  · obtain ⟨-, ms, hms, hchained, -, hg⟩ := ofTransitions_eq_ok.1 hg
    obtain ⟨g', hg', markovian⟩ := exists_isMarkovian hms hchained
    cases hg'.symm.trans hg
    exact ⟨ms, hms, hchained, markovian⟩
  · unfold markovian
    rw [h]
    rfl

/-- Two states after the root, then two more; from the first of them one cannot move to the
second. -/
def twoTransitions : List (Tensor (Extended ℚ)) :=
  [⟨[1, 2], [.finite (1 / 2), .finite (1 / 4)]⟩,
    ⟨[2, 2], [.finite 1, .finite 0, .finite (1 / 2), .finite (1 / 2)]⟩]

theorem isMarkovian_of_twoTransitions : ∃ g ms, ofTransitions twoTransitions = .ok g ∧
    g.IsMarkovian ms ∧
    twoTransitions.map Tensor.matrix? = ms.map some ∧ ∀ m ∈ ms, ∀ row ∈ m.rows,
    Substochastic row := by
  have check : (ofTransitions twoTransitions).toBool = true := by decide +kernel
  obtain ⟨g, hg⟩ := Except.exists_of_toBool check
  obtain ⟨returns, graph, -, -⟩ := markovian_structure twoTransitions
  obtain ⟨-, ms, hms, -, rows⟩ := (returns (by decide +kernel)).1 ⟨g, hg⟩
  obtain ⟨ms', hms', -, markovian⟩ := graph g hg
  cases List.map_injective_iff.2 (Option.some_injective _) (hms.symm.trans hms')
  exact ⟨g, ms, hg, markovian, hms, rows⟩

end Graph

end Multistage
