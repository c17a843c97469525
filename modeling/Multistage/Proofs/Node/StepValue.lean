import Mathlib.Data.EReal.Operations
import Multistage.Proofs.Node.Monotone
import Multistage.Proofs.Risk.Value

/-!
# The value of a step

A step enters a node in a state, sees a realization of the noise and leaves the node in another
state. Its value, for values of the states in which nodes are left, is the best that the stage and
what follows cost together. Values that the cuts of a node are at most bound what its solves find,
also when the solution is moved to other states along its duals.

## Main definitions

- `Consistent`: values of names that are the same for equal names.
- `Node.Moves`: the points of a step.
- `Node.stepValue`: the value of a step.
- `Node.Values`: values of the states in which a node is left that its value term can take.
- `Node.CutsAtMost`: the cuts are at most the values.

## Main statements

- `Node.Ready.moved_atMost_stepValue`: a solution, moved to other states, is at most the value of
  the step from there.
-/

namespace Multistage

/-- Equal names have the same value. -/
def Consistent (y : Name → ℝ) : Prop := ∀ a b, (a == b) = true → y a = y b

/-- The bound that does not limit the values which cuts are better than. -/
def CutSettings.otherBound (s : CutSettings ℚ) : Sense → Extended ℚ
  | .min => s.upper
  | .max => s.lower

namespace Node

/-- A point of a stage to which a realization of the noise was applied, where the node is entered
with the given values. The incoming copies have no bounds, and the value term has no part in it. -/
structure Moves (start : Node ℚ) (y : Name → ℝ) (s : Stage ℚ) (z : ℕ → ℝ) : Prop where
  admits : s.subproblem.Admits (fun i => i = start.cuts.term.index ∨
    ∃ e ∈ start.stage.states.entries, i = e.2.incoming.index) z
  fixed : ∀ i v, s.subproblem.fixed.get? i = some v → z i = v
  entering : ∀ e ∈ start.stage.states.entries, z e.2.incoming.index = y e.1

/-- The best that the stage of a node and what follows cost together, for values `W` of what
follows. -/
noncomputable def stepValue (sense : Sense) (start : Node ℚ) (W : (Name → ℝ) → EReal)
    (y : Name → ℝ) (noise : Datum ℚ) : EReal :=
  sense.best {t | ∃ s z e, Stage.applyNoise noise start.stage = .ok () s ∧ start.Moves y s z ∧
    s.objective.toAffine s.subproblem.describe = .ok e ∧
    t = ((e.value z : ℝ) : EReal) + W (start.leaving z)}

/-- Values of the states in which a node is left that its value term can take: nothing follows a
node without children, and otherwise they respect the bound of the settings. They may be infinitely
bad. -/
structure Values (sense : Sense) (start : Node ℚ) (W : (Name → ℝ) → EReal) : Prop where
  real : ∀ y, Consistent y → ∃ t : ℝ, sense.AtMost (t : EReal) (W y)
  leaf : start.children.isEmpty = true → ∀ y, Consistent y → W y = 0
  bounded : start.children.isEmpty = false → ∀ y, Consistent y →
    sense.AtMost (start.cuts.settings.estimate sense) (W y)
  unlimited : start.children.isEmpty = false → ∀ u, start.cuts.settings.otherBound sense ≠ .finite u

/-- The recorded cuts are at most the values. -/
def CutsAtMost (sense : Sense) (W : (Name → ℝ) → EReal) (n : Node ℚ) : Prop :=
  ∀ c ∈ n.cuts.pool.cuts, ∀ y, Consistent y → sense.AtMost ((c.value y : ℝ) : EReal) (W y)

variable {sense : Sense} {start m n' : Node ℚ} {rows : List (Constraint ℚ)} {x : State ℚ}
  {noise : Datum ℚ} {solver : Solver ℚ} {needsDuals : Bool} {answer : Solution ℚ} {s : Stage ℚ}
  {W : (Name → ℝ) → EReal} {y : Name → ℝ} {z : ℕ → ℝ}

theorem consistent_leaving (n : Node ℚ) (z : ℕ → ℝ) : Consistent (n.leaving z) := fun a b h => by
  rw [leaving, leaving, Dict.get?_congr h]

/-- Values are real, or so bad that no cost makes up for them. -/
theorem Values.real_or_worst (h : Values sense start W) (hy : Consistent y) :
    (∃ t : ℝ, W y = t) ∨ ∀ (cost : ℝ) (r : EReal), sense.AtMost r ((cost : EReal) + W y) := by
  obtain ⟨t, ht⟩ := h.real y hy
  cases hW : W y with
  | coe r => exact .inl ⟨r, rfl⟩
  | bot =>
    rw [hW] at ht
    cases sense with
    | min => exact absurd ht (not_le.2 (EReal.bot_lt_coe t))
    | max =>
      refine .inr fun cost r => ?_
      rw [EReal.add_bot]
      exact (bot_le : ⊥ ≤ r)
  | top =>
    rw [hW] at ht
    cases sense with
    | min =>
      refine .inr fun cost r => ?_
      rw [EReal.coe_add_top]
      exact (le_top : r ≤ ⊤)
    | max => exact absurd ht (not_le.2 (EReal.coe_lt_top t))

/-! ### The stage of a step -/

theorem contentFrom_of_ne {f : Field}
    (hf : ∀ e ∈ start.stage.states.entries, f ≠ .fixed e.2.incoming.index) :
    start.contentFrom x f = start.stage.content f := by
  cases f with
  | fixed i =>
    rw [contentFrom]
    split
    next e he =>
      have hi : e.2.incoming.index = i := by simpa using List.find?_some he
      exact absurd (hi ▸ rfl) (hf e (List.mem_of_find?_eq_some he))
    next => rfl
  | _ => rfl

theorem contentFrom_incoming (hb : start.Blank) {e : Name × StateVariable}
    (he : e ∈ start.stage.states.entries) :
    start.contentFrom x (.fixed e.2.incoming.index) = .number (x.get? e.1) := by
  rw [contentFrom]
  split
  next e' he' =>
    have hi : e'.2.incoming.index = e.2.incoming.index := by simpa using List.find?_some he'
    have same := hb.placed.eq_of_mem_indices (List.mem_of_find?_eq_some he') he
      (i := e'.2.incoming.index) (by simp [StateVariable.indices])
      (by simp [StateVariable.indices, hi])
    rw [same]
  next hnone => simpa using List.find?_eq_none.1 hnone e he

/-- What a realization of the noise leaves of the stage that was built. -/
theorem Blank.triple_applyNoise (hb : start.Blank) :
    Action.Triple (· = start.stage) (Stage.applyNoise noise)
      (fun _ s => start.stage.SameFrame s ∧
        ∃ as, start.stage.Assigned noise as ∧ s.content = overwrite start.stage.content as)
      fun _ => True := by
  have built : Used .min start [] start := used_of_blank hb
  exact (Stage.triple_applyNoise built.distinct (built.rowsExist hb)).consequence (fun _ => id)
    (fun _ _ h => ⟨h.1, h.2.2⟩) fun _ _ => trivial

namespace Ready

variable (hb : start.Blank) (h : Ready sense start rows x noise m)

include hb h

/-- A ready node holds what the noise assigns to the stage that was built, but for the incoming
copies. -/
theorem content_eq_applyNoise (hs : Stage.applyNoise noise start.stage = .ok () s) {f : Field}
    (hf : f.Below start.rowCount)
    (hincoming : ∀ e ∈ start.stage.states.entries, f ≠ .fixed e.2.incoming.index) :
    m.stage.content f = s.content f := by
  obtain ⟨-, as', has', hcontent'⟩ := hb.triple_applyNoise.ok rfl hs
  obtain ⟨as, has, hcontent⟩ := h.assigned
  rw [hcontent f hf, hcontent', has.unique rfl has']
  exact overwrite_congr (.inr (contentFrom_of_ne hincoming))

/-- Incoming copies that are not assigned are fixed to the state. -/
theorem fixed_incoming {e : Name × StateVariable} (he : e ∈ start.stage.states.entries)
    (hfree : ¬start.stage.Assignable (.fixed e.2.incoming.index)) :
    m.stage.subproblem.fixed.get? e.2.incoming.index = x.get? e.1 := by
  obtain ⟨as, has, hcontent⟩ := h.assigned
  have held := hcontent (.fixed e.2.incoming.index) trivial
  rw [overwrite_of_notMem (mt (Stage.mem_fields_iff has).1 hfree),
    contentFrom_incoming hb he] at held
  exact Content.number.inj held

end Ready

/-! ### Moving along the duals -/

section Moved

variable (hb : start.Blank) (h : Ready sense start rows x noise m)

include hb h

/-- What the fixed variables add to the optimal value when it is moved: the incoming copies are
moved to other values, all others stay. -/
theorem Ready.sum_fixedDuals
    (hfree : ∀ e ∈ start.stage.states.entries, ¬start.stage.Assignable (.fixed e.2.incoming.index))
    (hentering : ∀ e ∈ start.stage.states.entries, z e.2.incoming.index = y e.1)
    (hstays : ∀ i v, (∀ e ∈ start.stage.states.entries, i ≠ e.2.incoming.index) →
      m.stage.subproblem.fixed.get? i = some v → z i = v) (dual : ℕ → ℚ) :
    (m.stage.subproblem.fixed.entries.map fun f => ((dual f.1 : ℚ) : ℝ) * (z f.1 - f.2)).sum =
      (start.stage.states.entries.map fun e =>
        ((dual e.2.incoming.index : ℚ) : ℝ) * (y e.1 - x.profile e.1)).sum := by
  -- the copies of different states are different
  have incoming : (start.stage.states.entries.map fun e => e.2.incoming.index).Pairwise
      fun i j => (i == j) = false := by
    refine List.pairwise_map.2
      ((List.nodup_flatMap.1 hb.tidy.indices_nodup).2.imp fun hdisjoint => ?_)
    rw [beq_eq_false_iff_ne]
    exact fun heq => hdisjoint List.mem_cons_self (heq ▸ List.mem_cons_self)
  -- only the incoming copies are moved
  rw [Dict.sum_entries h.distinct 0 fun i v => ((dual i : ℚ) : ℝ) * (z i - (v : ℚ)),
    sum_map_eq_of_subset (fun i j hij => by rw [eq_of_beq hij])
      (start.stage.states.entries.map fun e => e.2.incoming.index)
      (Dict.distinct_iff_keys.1 h.distinct) incoming (fun i hi => ?_) (fun i hi hother => ?_),
      List.map_map]
  · refine congrArg List.sum (List.map_congr_left fun e he => ?_)
    simp only [Function.comp_apply]
    rw [hentering e he, Dict.getD, h.fixed_incoming hb he (hfree e he)]
    rfl
  · obtain ⟨j, hj, hij⟩ := List.contains_iff_exists_mem_beq.1 hi
    obtain ⟨e, he, rfl⟩ := List.mem_map.1 hj
    obtain ⟨v, hv⟩ := h.incoming e he
    rw [← h.fixed_incoming hb he (hfree e he)] at hv
    obtain ⟨f, hf, hfi, -⟩ := (Dict.get?_eq_some_iff h.distinct).1 hv
    exact List.contains_iff_exists_mem_beq.2 ⟨f.1, List.mem_map_of_mem hf,
      BEq.trans hij (BEq.symm hfi)⟩
  · obtain ⟨v, hv⟩ := Dict.exists_get?_of_mem_keys hi
    have other : ∀ e ∈ start.stage.states.entries, i ≠ e.2.incoming.index := by
      rintro e he rfl
      rw [List.contains_iff_mem.2 (List.mem_map_of_mem he)] at hother
      cases hother
    rw [hstays i v other hv, Dict.getD, hv]
    exact mul_eq_zero_of_right _ (sub_self _)

/-- What an answer is moved by is said by the duals of the incoming copies. -/
theorem Ready.moved_eq (hsolved : Solved solver needsDuals m answer n') (hduals : needsDuals = true)
    (hx : x.Distinct) (hy : Consistent y) :
    x.moved answer.duals y = (start.stage.states.entries.map fun e =>
      ((n'.stage.subproblem.fixedDuals.getD e.2.incoming.index 0 : ℚ) : ℝ) *
        (y e.1 - x.profile e.1)).sum := by
  have states : n'.stage.states = start.stage.states := by
    rw [hsolved.node_eq]
    exact h.states_eq
  -- the answer has the dual of every incoming copy under the name of its state
  have answered : answer.duals = start.stage.states.mapValues fun _ copies =>
      n'.stage.subproblem.fixedDuals.getD copies.incoming.index 0 := by
    obtain ⟨entries, hentries, hanswer⟩ := Except.bind_eq_ok.1 (hsolved.duals hduals)
    rw [states] at hentries
    have listed := Except.map_eq_of_mapM hentries (k := id)
      (g := fun e => (e.1, n'.stage.subproblem.fixedDuals.getD e.2.incoming.index 0))
      fun e _ entry hentry => by
        obtain ⟨dual, hdual, hentry⟩ := Except.bind_eq_ok.1 hentry
        cases hentry
        rw [Dict.getD, Subproblem.fixedDual_eq_ok hdual]
        rfl
    rw [List.map_id] at listed
    rw [← Except.ok.inj hanswer, listed]
    rfl
  have dual : ∀ e ∈ start.stage.states.entries, answer.duals.getD e.1 0 =
      n'.stage.subproblem.fixedDuals.getD e.2.incoming.index 0 := by
    intro e he
    have found : start.stage.states.get? e.1 = some e.2 :=
      (Dict.get?_eq_some_iff hb.tidy.distinct).2 ⟨e, he, BEq.rfl, rfl⟩
    rw [answered, Dict.getD, Dict.get?_mapValues, found]
    rfl
  rw [State.moved, Dict.sum_entries hx 0 fun name v =>
      ((answer.duals.getD name 0 : ℚ) : ℝ) * (y name - (v : ℚ)),
    sum_map_eq_of_subset
      (fun a b hab => by
        rw [hy a b hab, Dict.getD, Dict.getD, Dict.getD, Dict.getD, Dict.get?_congr hab,
          Dict.get?_congr (d := x) hab])
      start.stage.states.keys (Dict.distinct_iff_keys.1 hx)
        (Dict.distinct_iff_keys.1 hb.tidy.distinct)
      (fun name hname => ?_) (fun name _ hother => ?_), Dict.keys, List.map_map]
  · refine congrArg List.sum (List.map_congr_left fun e he => ?_)
    rw [Function.comp_apply, dual e he]
    rfl
  · obtain ⟨own, hown, heq⟩ := List.contains_iff_exists_mem_beq.1 hname
    obtain ⟨e, he, rfl⟩ := List.mem_map.1 hown
    obtain ⟨v, hv⟩ := h.incoming e he
    obtain ⟨f, hf, hfe, -⟩ := Dict.exists_mem_of_get? hv
    exact List.contains_iff_exists_mem_beq.2 ⟨f.1, List.mem_map_of_mem hf,
      BEq.trans heq (BEq.symm hfe)⟩
  · have none : start.stage.states.get? name = none := by
      by_contra hne
      obtain ⟨v, hv⟩ := Option.ne_none_iff_exists'.1 hne
      obtain ⟨e, he, hen, -⟩ := Dict.exists_mem_of_get? hv
      refine Bool.eq_false_iff.1 hother ?_
      exact List.contains_iff_exists_mem_beq.2 ⟨e.1, List.mem_map_of_mem he, BEq.symm hen⟩
    rw [answered, Dict.getD, Dict.get?_mapValues, none, Option.map_none, Option.getD_none,
      Rat.cast_zero, zero_mul]

end Moved

/-! ### Steps as points of the program -/

/-- Values that the value term can take lie within its bounds. -/
theorem Values.within_bounds (h : Values sense start W) (hy : Consistent y) {t : ℝ} (ht : W y = t) :
    (∀ l, (start.cuts.settings.bounds start.children).1 = .finite l → (l : ℝ) ≤ t) ∧
      ∀ u, (start.cuts.settings.bounds start.children).2 = .finite u → t ≤ (u : ℝ) := by
  cases hleaf : start.children.isEmpty with
  | true =>
    have zero : t = 0 := EReal.coe_eq_zero.1 (ht.symm.trans (h.leaf hleaf y hy))
    rw [CutSettings.bounds, if_pos hleaf, zero]
    refine ⟨fun l hl => ?_, fun u hu => ?_⟩
    · cases hl
      rw [Rat.cast_zero]
    · cases hu
      rw [Rat.cast_zero]
  | false =>
    have bound := h.bounded hleaf y hy
    have other := h.unlimited hleaf
    rw [CutSettings.bounds, if_neg (by simp [hleaf])]
    rw [ht] at bound
    cases sense with
    | min =>
      refine ⟨fun l hl => ?_, fun u hu => absurd hu (other u)⟩
      rw [CutSettings.estimate, show start.cuts.settings.lower = .finite l from hl] at bound
      exact EReal.coe_le_coe_iff.1 bound
    | max =>
      refine ⟨fun l hl => absurd hl (other l), fun u hu => ?_⟩
      rw [CutSettings.estimate, show start.cuts.settings.upper = .finite u from hu] at bound
      exact EReal.coe_le_coe_iff.1 bound

section Step

variable (hb : start.Blank) (h : Ready sense start rows x noise m)
  (hfree : ∀ e ∈ start.stage.states.entries, ¬start.stage.Assignable (.fixed e.2.incoming.index))
  (hs : Stage.applyNoise noise start.stage = .ok () s)

include hb h hs

/-- What the program does not fix is not fixed in a step either, and it is no incoming copy. -/
theorem Ready.unfixed
    (hfree : ∀ e ∈ start.stage.states.entries, ¬start.stage.Assignable (.fixed e.2.incoming.index))
    {i : ℕ} (hi : m.stage.subproblem.fixed.get? i = none) :
    (∀ e ∈ start.stage.states.entries, i ≠ e.2.incoming.index) ∧
      s.subproblem.fixed.get? i = none := by
  have other : ∀ e ∈ start.stage.states.entries, i ≠ e.2.incoming.index := by
    rintro e he rfl
    obtain ⟨v, hv⟩ := h.incoming e he
    rw [h.fixed_incoming hb he (hfree e he), hv] at hi
    cases hi
  have same := h.content_eq_applyNoise hb hs (f := .fixed i) trivial fun e he heq =>
    other e he (Field.fixed.inj heq)
  exact ⟨other, (Content.number.inj same).symm.trans hi⟩

theorem Ready.holds_of_moves (hz : start.Moves y s z) (t : ℝ) {k : ℕ} (hlt : k < start.rowCount)
    {c : Constraint ℚ} (hk : m.stage.subproblem.constraints[k]? = some c)
    (hactive : c.active = true) :
    c.Holds m.stage.subproblem.names.length (Function.update z start.cuts.term.index t) := by
  obtain ⟨frame, -⟩ := hb.triple_applyNoise.ok rfl hs
  have names : m.stage.subproblem.names = s.subproblem.names := by
    rw [h.names_eq]
    exact (congrArg (·.subproblem.names) frame.declaration).symm
  have hlt' : k < s.subproblem.constraints.length := by
    rw [frame.length_constraints]
    exact hlt
  have hk' : s.subproblem.constraints[k]? = some s.subproblem.constraints[k] :=
    List.getElem?_eq_getElem hlt'
  -- the noise keeps relations and which constraints are active
  have kind : c.kind = s.subproblem.constraints[k].kind := by
    have same := h.kind k hlt
    rw [← List.getElem?_map (l := start.stage.subproblem.constraints), ← frame.kinds,
      List.getElem?_map, hk, hk'] at same
    exact Option.some.inj same
  have active : s.subproblem.constraints[k].active = true :=
    (congrArg Prod.snd kind).symm.trans hactive
  rw [Constraint.Holds, h.combination_update hb hlt hk, names]
  exact Stage.holds_of_content_eq hk' hk kind
    (h.content_eq_applyNoise hb hs (f := .rhs k) hlt fun _ _ hfixed => by cases hfixed)
    (fun i => h.content_eq_applyNoise hb hs (f := .coefficient k i) hlt
      fun _ _ hfixed => by cases hfixed)
    (hz.admits.holds _ (List.mem_filter.2 ⟨List.getElem_mem hlt', active⟩))

/-- The point of a step, with what follows for the value term, is admitted by the program of every
ready node, but for the state that the node is entered in. -/
theorem Ready.admits_of_moves (hbacked : Backed sense start.rowCount m)
    (hfree : ∀ e ∈ start.stage.states.entries, ¬start.stage.Assignable (.fixed e.2.incoming.index))
    (hW : Values sense start W)
    (hcuts : CutsAtMost sense W m)
    (hz : start.Moves y s z) {t : ℝ} (ht : W (start.leaving z) = t) :
    m.stage.subproblem.Admits (fun _ => False) (Function.update z start.cuts.term.index t) := by
  have placed : m.Placed := hb.placed.of_declaration_eq h.declaration
  obtain ⟨hlower, hupper⟩ := h.bounds_term hb
  obtain ⟨hlow, hhigh⟩ := hW.within_bounds (consistent_leaving start z) ht
  have bounded : ∀ i, i ≠ start.cuts.term.index → m.stage.subproblem.fixed.get? i = none →
      ¬(i = start.cuts.term.index ∨ ∃ e ∈ start.stage.states.entries, i = e.2.incoming.index) ∧
        s.subproblem.fixed.get? i = none := fun i hi hfixed => by
    obtain ⟨other, hnone⟩ := h.unfixed hb hs hfree hfixed
    exact ⟨fun hor => hor.elim hi fun ⟨e, he, heq⟩ => other e he heq, hnone⟩
  refine ⟨fun c hc => ?_, fun i _ hfixed l hl => ?_, fun i _ hfixed u hu => ?_⟩
  · obtain ⟨hmem, hactive⟩ := List.mem_filter.1 hc
    obtain ⟨k, hk⟩ := List.getElem?_of_mem hmem
    -- a later constraint is that of a cut, and the cuts are at most what follows
    rcases Nat.lt_or_ge k start.rowCount with hlt | hge
    · exact h.holds_of_moves hb hs hz t hlt hk hactive
    · obtain ⟨d, hd, -, holds⟩ := hbacked.holds placed hge hk hactive
      have below := hcuts d hd _ (consistent_leaving start z)
      rw [ht] at below
      rw [holds, ← h.term_eq, placed.leaving_update, Function.update_self, h.leaving_eq]
      cases sense <;> exact EReal.coe_le_coe_iff.1 below
  · by_cases hterm : i = start.cuts.term.index
    · subst hterm
      rw [Function.update_self]
      exact hlow l (Option.some.inj (hlower.symm.trans hl))
    · obtain ⟨hnot, hnone⟩ := bounded i hterm hfixed
      rw [Function.update_of_ne hterm]
      refine hz.admits.lower_le i hnot hnone l ?_
      rw [← hl]
      exact (Content.bound.inj (h.content_eq_applyNoise hb hs (f := .lower i) trivial
        fun _ _ => nofun)).symm
  · by_cases hterm : i = start.cuts.term.index
    · subst hterm
      rw [Function.update_self]
      exact hhigh u (Option.some.inj (hupper.symm.trans hu))
    · obtain ⟨hnot, hnone⟩ := bounded i hterm hfixed
      rw [Function.update_of_ne hterm]
      refine hz.admits.le_upper i hnot hnone u ?_
      rw [← hu]
      exact (Content.bound.inj (h.content_eq_applyNoise hb hs (f := .upper i) trivial
        fun _ _ => nofun)).symm

end Step

/-! ### Solutions and steps -/

section Value

variable (hsolver : solver.Sound) (hb : start.Blank) (h : Ready sense start rows x noise m)
  (hbacked : Backed sense start.rowCount m)
  (hfree : ∀ e ∈ start.stage.states.entries, ¬start.stage.Assignable (.fixed e.2.incoming.index))
  (hW : Values sense start W)
  (hcuts : CutsAtMost sense W m) (hsolved : Solved solver needsDuals m answer n')

include hsolver hb h hbacked hfree hW hcuts hsolved

/-- The optimal value, moved along the duals of the incoming copies, is at most the value of the
step from the state to which it is moved. -/
theorem Ready.optimum_atMost_stepValue (y : Name → ℝ) :
    sense.AtMost (((answer.objective : ℝ) + (start.stage.states.entries.map fun e =>
        ((n'.stage.subproblem.fixedDuals.getD e.2.incoming.index 0 : ℚ) : ℝ) *
          (y e.1 - x.profile e.1)).sum : ℝ) : EReal)
      (stepValue sense start W y noise) := by
  refine Sense.atMost_best_iff.2 ?_
  rintro _ ⟨s, z, e, hs, hz, he, rfl⟩
  -- where what follows is infinitely bad there is nothing to show
  rcases hW.real_or_worst (consistent_leaving start z) with ⟨t, ht⟩ | hworst
  · obtain ⟨hlower, hupper⟩ := h.lengths hb
    obtain ⟨optimum, hoptimum, hbest⟩ := Subproblem.optimum_atMost hsolver hsolved.optimize
      hsolved.primal hlower hupper h.distinct (h.fixed_lt_names hb) (h.objective_lt hb)
    cases hoptimum.symm.trans hsolved.objective
    have bound := hbest _ (h.admits_of_moves hb hs hbacked hfree hW hcuts hz ht)
    have same : m.stage.objective = s.objective := Content.operand.inj
      (h.content_eq_applyNoise hb hs (f := .objective) trivial fun _ _ => nofun)
    rw [← same] at he
    obtain ⟨hsense, hobjective⟩ := h.posed_of_toAffine he
    -- the value term has no part in the cost of the stage
    have stage : e.value (Function.update z start.cuts.term.index t) = e.value z :=
      Affine.value_congr fun v hv =>
        Function.update_of_ne (Nat.ne_of_lt (h.within hb he v hv).2) _ _
    -- the value term is neither moved nor fixed
    have entering : ∀ e ∈ start.stage.states.entries,
        Function.update z start.cuts.term.index t e.2.incoming.index = y e.1 := fun e he => by
      rw [Function.update_of_ne (Nat.ne_of_lt (hb.tidy.copies e he).1.2), hz.entering e he]
    have stays : ∀ i v, (∀ e ∈ start.stage.states.entries, i ≠ e.2.incoming.index) →
        m.stage.subproblem.fixed.get? i = some v →
          Function.update z start.cuts.term.index t i = v := fun i v hother hv => by
      have same := h.content_eq_applyNoise hb hs (f := .fixed i) trivial fun e he heq =>
        hother e he (Field.fixed.inj heq)
      rw [Function.update_of_ne (Nat.ne_of_lt (h.fixed_lt hb hv))]
      exact hz.fixed i v ((Content.number.inj same).symm.trans hv)
    rw [h.sum_fixedDuals hb hfree entering stays fun i =>
      n'.stage.subproblem.fixedDuals.getD i 0, hsense,
      hobjective, Affine.value_add, Affine.value_ofVariable, stage, Function.update_self] at bound
    rw [ht, ← EReal.coe_add]
    cases sense <;> exact EReal.coe_le_coe_iff.2 bound
  · exact hworst _ _

/-- A solve finds no more than the value of the step from its state. -/
theorem Ready.objective_atMost_stepValue :
    sense.AtMost ((answer.objective : ℝ) : EReal) (stepValue sense start W x.profile noise) := by
  have bound := h.optimum_atMost_stepValue hsolver hb hbacked hfree hW hcuts hsolved x.profile
  have still : (start.stage.states.entries.map fun e =>
      ((n'.stage.subproblem.fixedDuals.getD e.2.incoming.index 0 : ℚ) : ℝ) *
        (x.profile e.1 - x.profile e.1)).sum = 0 := by
    simp only [sub_self, mul_zero, List.map_const', List.sum_replicate, smul_zero]
  rwa [still, add_zero] at bound

/-- Moved to another state along the duals that it answers with, a solve finds no more than the
value of the step from there. -/
theorem Ready.moved_atMost_stepValue (hduals : needsDuals = true) (hx : x.Distinct)
    (hy : Consistent y) :
    sense.AtMost (((answer.objective : ℝ) + x.moved answer.duals y : ℝ) : EReal)
      (stepValue sense start W y noise) := by
  rw [h.moved_eq hb hsolved hduals hx hy]
  exact h.optimum_atMost_stepValue hsolver hb hbacked hfree hW hcuts hsolved y

end Value

end Node

end Multistage
