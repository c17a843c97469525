import Multistage.Proofs.Node.Solve

/-!
# What the later constraints are

Whatever is refined, pruned and solved, also where it fails: an active constraint that was not
declared is that of a recorded cut.

## Main definitions

- `Node.Backed`: the active constraints from a position on are those of recorded cuts.

## Main statements

- `Node.backed_refine`, `Node.backed_prune`, `Node.Backed.of_sameCuts`: the three operations.
-/

namespace Multistage

namespace Node

/-- The active constraints from a position on are those of recorded cuts, and cuts that were taken
out have none. -/
structure Backed (sense : Sense) (base : ℕ) (n : Node ℚ) : Prop where
  distinct : ∀ c ∈ n.cuts.pool.cuts, c.coefficients.Distinct
  removed : ∀ c ∈ n.cuts.pool.cuts, c.removed = true → c.constraint? = none
  active : ∀ i k, base ≤ i → n.stage.subproblem.constraints[i]? = some k → k.active = true →
    ∃ c ∈ n.cuts.pool.cuts, c.constraint? = some i ∧ n.cutConstraint sense c = .ok k

variable {sense : Sense} {base : ℕ} {start n n' : Node ℚ} {c : Cut ℚ}
  {rows : List (Constraint ℚ)}

theorem backed_of_blank (h : n.Blank) : Backed sense n.rowCount n := by
  refine ⟨?_, ?_, fun i k hi hk => ?_⟩
  · rw [h.pool_eq]
    nofun
  · rw [h.pool_eq]
    nofun
  · exact absurd (List.getElem?_eq_some_iff.1 hk).1 (Nat.not_lt.2 hi)

namespace Backed

/-- The constraint of a cut that a backed node has says what the cut says. -/
theorem holds (h : Backed sense base n) (hn : n.Placed) {i : ℕ} {k : Constraint ℚ} (hi : base ≤ i)
    (hk : n.stage.subproblem.constraints[i]? = some k) (hactive : k.active = true) :
    ∃ c ∈ n.cuts.pool.cuts, c.constraint? = some i ∧
      ∀ z, k.Holds n.stage.subproblem.names.length z ↔
      sense.AtMost (c.value (n.leaving z)) (z n.cuts.term.index) := by
  obtain ⟨c, hc, hci, hcut⟩ := h.active i k hi hk hactive
  exact ⟨c, hc, hci, holds_cutConstraint hn (covers_of_cutConstraint (h.distinct c hc) hcut) hcut⟩

/-- One more cut, and its constraint if it has one. -/
theorem record (h : Backed sense base n) {m : Node ℚ} {pool : CutPool ℚ ℚ}
    (hpool : n.Records c pool) (hd : c.coefficients.Distinct)
    (hr : c.removed = true → c.constraint? = none) (hstates : m.stage.states = n.stage.states)
    (hterm : m.cuts.term = n.cuts.term)
    (howner : m.stage.subproblem.owner = n.stage.subproblem.owner)
    (hrows : ∀ i k, m.stage.subproblem.constraints[i]? = some k →
      n.stage.subproblem.constraints[i]? = some k ∨
        c.constraint? = some i ∧ n.cutConstraint sense c = .ok k) :
    Backed sense base (m.withPool pool) := by
  rw [Records, ← List.map_singleton, ← List.map_append] at hpool
  have mem : ∀ d ∈ pool.cuts, ∃ d' ∈ n.cuts.pool.cuts ++ [c], d.uncounted = d'.uncounted :=
    fun d hd => exists_mem_of_map_eq hpool hd
  have mem' : ∀ d ∈ n.cuts.pool.cuts ++ [c], ∃ d' ∈ pool.cuts, d.uncounted = d'.uncounted :=
    fun d hd => exists_mem_of_map_eq hpool.symm hd
  have either : ∀ d ∈ n.cuts.pool.cuts ++ [c], d ∈ n.cuts.pool.cuts ∨ d = c := fun d hd =>
    (List.mem_append.1 hd).imp_right List.mem_singleton.1
  have cutConstraint_eq : ∀ {d d' : Cut ℚ}, d.uncounted = d'.uncounted →
      (m.withPool pool).cutConstraint sense d' = n.cutConstraint sense d := fun heq =>
    cutConstraint_congr sense hstates hterm howner (congrArg (·.intercept) heq.symm)
      (congrArg (·.coefficients) heq.symm)
  refine ⟨fun d hd' => ?_, fun d hd' hremoved => ?_, fun i k hi hk hactive => ?_⟩
  · obtain ⟨d', hmem, heq⟩ := mem d hd'
    rw [show d.coefficients = d'.coefficients from congrArg (·.coefficients) heq]
    rcases either d' hmem with hd' | rfl
    · exact h.distinct d' hd'
    · exact hd
  · obtain ⟨d', hmem, heq⟩ := mem d hd'
    rw [show d.constraint? = d'.constraint? from congrArg (·.constraint?) heq]
    rw [show d.removed = d'.removed from congrArg (·.removed) heq] at hremoved
    rcases either d' hmem with hd' | rfl
    · exact h.removed d' hd' hremoved
    · exact hr hremoved
  · have backed : ∃ d ∈ n.cuts.pool.cuts ++ [c], d.constraint? = some i ∧
        n.cutConstraint sense d = .ok k := by
      rcases hrows i k hk with hold | hnew
      · obtain ⟨d, hd, hcut⟩ := h.active i k hi hold hactive
        exact ⟨d, List.mem_append_left _ hd, hcut⟩
      · exact ⟨c, by simp, hnew⟩
    obtain ⟨d, hd, hdi, hcut⟩ := backed
    obtain ⟨d', hd', heq⟩ := mem' d hd
    exact ⟨d', hd', (congrArg (·.constraint?) heq).symm.trans hdi,
      (cutConstraint_eq heq).trans hcut⟩

/-- What a solve changes are neither cuts nor their constraints. -/
theorem of_sameCuts (h : Backed sense start.rowCount n) (hn : Used sense start rows n)
    (hn' : Used sense start rows n') (hsame : SameCuts start n n') :
    Backed sense start.rowCount n' := by
  refine ⟨by rw [hsame.cuts]; exact h.distinct, by rw [hsame.cuts]; exact h.removed, ?_⟩
  intro i k hi hk hactive
  rw [← Nat.add_sub_cancel' hi, ← List.getElem?_drop, hsame.rows, List.getElem?_drop,
    Nat.add_sub_cancel' hi] at hk
  obtain ⟨c, hc, hci, hcut⟩ := h.active i k hi hk hactive
  refine ⟨c, hsame.cuts ▸ hc, hci, (cutConstraint_congr sense ?_ ?_ ?_ rfl rfl).trans hcut⟩
  · rw [hn.states_eq, hn'.states_eq]
  · rw [hn.term_eq, hn'.term_eq]
  · rw [hn.owner_eq, hn'.owner_eq]

end Backed

/-! ### Refining -/

theorem backed_addCut (x given : State ℚ) (hd : c.coefficients.Distinct)
    (hnone : c.constraint? = none) (hr : c.removed = false) (height : ℚ) :
    Action.Ensures (Backed sense base) (addCut sense x given c height) fun _ => True := by
  have pushed : ∀ {n : Node ℚ} {k : Constraint ℚ} {i : ℕ} {l : Constraint ℚ},
      (n.withRow k).stage.subproblem.constraints[i]? = some l →
        n.stage.subproblem.constraints[i]? = some l ∨
          i = n.stage.subproblem.constraints.length ∧ l = k := fun h => getElem?_concat_cases h
  refine ensures_addCut (fun n k pool h hk hpool => ?_) (fun n pool h hpool => ?_)
    fun n place d k h hplace hremoved hk => ?_
  · refine h.record hpool hd (fun hremoved => ?_) rfl rfl rfl fun i l hl => ?_
    · rw [next, hr] at hremoved
      cases hremoved
    · rcases pushed hl with hold | ⟨rfl, rfl⟩
      · exact .inl hold
      · exact .inr ⟨rfl, hk⟩
  · exact h.record hpool hd (fun _ => hnone) rfl rfl rfl fun i l hl => .inl hl
  · have hdmem := List.mem_of_getElem? hplace
    refine ⟨fun e he => ?_, fun e he hremoved' => ?_, fun i l hi hl hactive => ?_⟩
    · rcases List.mem_or_eq_of_mem_set he with he | rfl
      · exact h.distinct e he
      · exact h.distinct d hdmem
    · rcases List.mem_or_eq_of_mem_set he with he | rfl
      · exact h.removed e he hremoved'
      · cases hremoved'
    · have hlt : place < n.cuts.pool.cuts.length := (List.getElem?_eq_some_iff.1 hplace).1
      rcases pushed hl with hold | ⟨rfl, rfl⟩
      · obtain ⟨e, he, hei, hcut⟩ := h.active i l hi hold hactive
        obtain ⟨j, hj⟩ := List.getElem?_of_mem he
        -- the cut that is given a constraint had none
        have hne : place ≠ j := by
          rintro rfl
          cases hplace.symm.trans hj
          rw [h.removed d hdmem hremoved] at hei
          cases hei
        exact ⟨e, List.mem_of_getElem? ((List.getElem?_set_ne hne).trans hj), hei, hcut⟩
      · exact ⟨_, List.mem_of_getElem? (List.getElem?_set_self hlt), rfl, hk⟩

/-- Refinements keep the later constraints backed. -/
theorem backed_refine (measure : Measure ℚ) (x : State ℚ) (duals : List (State ℚ))
    (probabilities objectives : List ℚ) :
    Action.Ensures (Backed sense base) (refine sense measure x duals probabilities objectives)
      fun _ => True := by
  refine ensures_refine fun c height hcut => ?_
  obtain ⟨hnone, -, hr⟩ := fresh_newCut hcut
  obtain ⟨q, rows, -, -, haverage⟩ := newCut_eq_ok hcut
  refine backed_addCut x x ?_ hnone hr height
  rw [(averageCut_eq_ok haverage).2.2.2]
  exact Dict.distinct_ofList _

/-! ### Pruning -/

theorem backed_prune : Action.Ensures (Backed sense base) prune fun _ => True := by
  refine ensures_prune fun n place i c h hc hi => ⟨fun d hd => ?_, fun d hd hremoved => ?_,
    fun j l hj hl hactive => ?_⟩
  · rcases List.mem_or_eq_of_mem_set hd with hd | rfl
    · exact h.distinct d hd
    · exact h.distinct c (List.mem_of_getElem? hc)
  · rcases List.mem_or_eq_of_mem_set hd with hd | rfl
    · exact h.removed d hd hremoved
    · rfl
  · have edited := Stage.getElem?_editConstraint n.stage.subproblem i j
      fun k => { k with active := false }
    by_cases hij : i = j
    · subst hij
      rw [if_pos rfl] at edited
      obtain ⟨l', -, rfl⟩ := Option.map_eq_some_iff.1 (edited.symm.trans hl)
      cases hactive
    · rw [if_neg hij] at edited
      obtain ⟨d, hd, hdj, hcut⟩ := h.active j l hj (edited.symm.trans hl) hactive
      obtain ⟨p, hp⟩ := List.getElem?_of_mem hd
      have hne : place ≠ p := by
        rintro rfl
        cases hc.symm.trans hp
        exact hij (Option.some.inj (hi.symm.trans hdj))
      exact ⟨d, List.mem_of_getElem? ((List.getElem?_set_ne hne).trans hp), hdj, hcut⟩

end Node

end Multistage
