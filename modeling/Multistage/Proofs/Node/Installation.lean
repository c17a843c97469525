import Multistage.Proofs.Node.NewCut
import Multistage.Proofs.Node.Pruning
import Multistage.Proofs.Node.Solve

/-!
# Cuts and the constraints that install them

The position of its constraint, the mark of a cut that was taken out, the count of a cut and the
active constraints of the subproblem are kept in four places. Refining, pruning and solving keep
them in agreement.

## Main definitions

- `Node.Installs`: the active constraints after the declared ones install the cuts.
- `Node.Operated`: the nodes that refining, pruning and solving lead to, with what was refined.
- `Node.Installation`: what holds of a node without a tolerance.

## Main statements

- `Node.installs_addCut`, `Node.installs_pruneCut`: two steps keep the agreement.
- `Node.Operated.installs`: every run keeps it.
-/

namespace Multistage

/-- The affine function of a cut, without the bookkeeping. -/
def Cut.affine (c : Cut ℚ) : ℚ × Dict Name ℚ := (c.intercept, c.coefficients)

namespace Node

/-- The active constraints from a position on install cuts: every one of them one cut, and every cut
has one of them at most. -/
structure Installs (n : Node ℚ) (sense : Sense) (base : ℕ) (cuts : List (Cut ℚ)) : Prop where
  rowCount_le : base ≤ n.rowCount
  covers : ∀ c ∈ cuts, n.Covers c
  constrained : ∀ c ∈ cuts, ∀ i, c.constraint? = some i → base ≤ i ∧
    ∃ k, n.stage.subproblem.constraints[i]? = some k ∧ n.cutConstraint sense c = .ok k
  injective : ∀ (j k : ℕ) (c d : Cut ℚ) (i : ℕ), cuts[j]? = some c → cuts[k]? = some d →
    c.constraint? = some i → d.constraint? = some i → j = k
  active : ∀ i k, base ≤ i → n.stage.subproblem.constraints[i]? = some k → k.active = true →
    ∃ c ∈ cuts, c.constraint? = some i
  removed : ∀ c ∈ cuts, c.removed = true → c.constraint? = none

variable {sense : Sense} {base : ℕ} {n n' : Node ℚ} {cuts cuts' : List (Cut ℚ)} {c : Cut ℚ}
  {place : ℕ}

namespace Installs

theorem of_uncounted_eq (h : n.Installs sense base cuts)
    (hcuts : cuts'.map Cut.uncounted = cuts.map Cut.uncounted) : n.Installs sense base cuts' := by
  have before : ∀ {k : ℕ} {c' : Cut ℚ}, cuts'[k]? = some c' → ∃ c, cuts[k]? = some c ∧
      c'.constraint? = c.constraint? ∧ c'.removed = c.removed ∧ c'.affine = c.affine := by
    intro k c' hk
    obtain ⟨c, hc, heq⟩ := getElem?_of_map_eq hcuts hk
    exact ⟨c, hc, congrArg (·.constraint?) heq, congrArg (·.removed) heq,
      congrArg (fun c => c.affine) heq⟩
  have mem : ∀ {c' : Cut ℚ}, c' ∈ cuts' → ∃ c ∈ cuts,
      c'.constraint? = c.constraint? ∧ c'.removed = c.removed ∧ c'.affine = c.affine := by
    intro c' hc'
    obtain ⟨k, hk⟩ := List.getElem?_of_mem hc'
    obtain ⟨c, hc, heq⟩ := before hk
    exact ⟨c, List.mem_of_getElem? hc, heq⟩
  refine ⟨h.rowCount_le, ?_, ?_, ?_, ?_, ?_⟩
  · intro c' hc'
    obtain ⟨c, hc, -, -, haffine⟩ := mem hc'
    exact (h.covers c hc).congr rfl (congrArg (·.2) haffine)
  · intro c' hc' i hi
    obtain ⟨c, hc, hconstraint, -, haffine⟩ := mem hc'
    obtain ⟨hbase, k, hk, hcut⟩ := h.constrained c hc i (hconstraint ▸ hi)
    exact ⟨hbase, k, hk, (cutConstraint_congr sense rfl rfl rfl (congrArg (·.1) haffine)
      (congrArg (·.2) haffine)).trans hcut⟩
  · intro j k c' d' i hj hk hci hdi
    obtain ⟨c, hc, hcc, -⟩ := before hj
    obtain ⟨d, hd, hdd, -⟩ := before hk
    exact h.injective j k c d i hc hd (hcc ▸ hci) (hdd ▸ hdi)
  · intro i k hbase hk hactive
    obtain ⟨c, hc, hci⟩ := h.active i k hbase hk hactive
    obtain ⟨c', hc', heq⟩ := exists_mem_of_map_eq hcuts.symm hc
    exact ⟨c', hc', (congrArg (·.constraint?) heq).symm.trans hci⟩
  · intro c' hc' hremoved
    obtain ⟨c, hc, hconstraint, hr, -⟩ := mem hc'
    rw [hconstraint]
    exact h.removed c hc (hr ▸ hremoved)

/-- One more cut that is not installed. -/
theorem concat (h : n.Installs sense base cuts) (hc : n.Covers c) (hnone : c.constraint? = none) :
    n.Installs sense base (cuts ++ [c]) := by
  have mem : ∀ d ∈ cuts ++ [c], d ∈ cuts ∨ d = c := fun d hd =>
    (List.mem_append.1 hd).imp_right List.mem_singleton.1
  refine ⟨h.rowCount_le, ?_, ?_, ?_, ?_, ?_⟩
  · intro d hd
    rcases mem d hd with hd | rfl
    · exact h.covers d hd
    · exact hc
  · intro d hd i hi
    rcases mem d hd with hd | rfl
    · exact h.constrained d hd i hi
    · rw [hnone] at hi
      cases hi
  · intro j k d e i hj hk hd he
    rcases getElem?_concat_cases hj with hj | ⟨-, rfl⟩
    · rcases getElem?_concat_cases hk with hk | ⟨-, rfl⟩
      · exact h.injective j k d e i hj hk hd he
      · rw [hnone] at he
        cases he
    · rw [hnone] at hd
      cases hd
  · intro i k hbase hk hactive
    obtain ⟨d, hd, hi⟩ := h.active i k hbase hk hactive
    exact ⟨d, List.mem_append_left _ hd, hi⟩
  · intro d hd hremoved
    rcases mem d hd with hd | rfl
    · exact h.removed d hd hremoved
    · exact hnone

/-- A cut that is not installed gets a new constraint. -/
theorem install (h : n.Installs sense base cuts) {k : Constraint ℚ} (hc : cuts[place]? = some c)
    (hnone : c.constraint? = none) (hk : n.cutConstraint sense c = .ok k) :
    (n.withSubproblem (n.stage.subproblem.pushConstraint k)).Installs sense base
      (cuts.set place { c with constraint? := some n.rowCount, removed := false }) := by
  have old : ∀ {i : ℕ} {l : Constraint ℚ}, n.stage.subproblem.constraints[i]? = some l →
      (n.stage.subproblem.constraints ++ [k])[i]? = some l := by
    intro i l hl
    rw [List.getElem?_append_left (List.getElem?_eq_some_iff.1 hl).1]
    exact hl
  -- the position after the last constraint is that of no cut
  have fresh : ∀ d ∈ cuts, d.constraint? ≠ some n.rowCount := by
    intro d hd hi
    obtain ⟨-, l, hl, -⟩ := h.constrained d hd _ hi
    exact absurd (List.getElem?_eq_some_iff.1 hl).1 (by simp [rowCount])
  refine ⟨h.rowCount_le.trans (by simp [rowCount, withSubproblem, Subproblem.pushConstraint]),
    ?_, ?_, ?_, ?_, ?_⟩
  · intro d hd
    rcases List.mem_or_eq_of_mem_set hd with hd | rfl
    · exact h.covers d hd
    · exact h.covers c (List.mem_of_getElem? hc)
  · intro d hd i hi
    rcases List.mem_or_eq_of_mem_set hd with hd | rfl
    · obtain ⟨hbase, l, hl, hcut⟩ := h.constrained d hd i hi
      exact ⟨hbase, l, old hl, hcut⟩
    · cases hi
      refine ⟨h.rowCount_le, k, ?_, hk⟩
      exact List.getElem?_concat_length
  · intro j l d e i hj hl hd he
    rcases getElem?_set_cases hj with ⟨rfl, rfl⟩ | ⟨-, hj'⟩
    · cases hd
      rcases getElem?_set_cases hl with ⟨rfl, -⟩ | ⟨-, hl'⟩
      · rfl
      · exact absurd he (fresh e (List.mem_of_getElem? hl'))
    · rcases getElem?_set_cases hl with ⟨rfl, rfl⟩ | ⟨-, hl'⟩
      · cases he
        exact absurd hd (fresh d (List.mem_of_getElem? hj'))
      · exact h.injective j l d e i hj' hl' hd he
  · intro i l hbase hl hactive
    have hlt : place < cuts.length := (List.getElem?_eq_some_iff.1 hc).1
    rcases getElem?_concat_cases hl with hl | ⟨rfl, -⟩
    · obtain ⟨d, hd, hi⟩ := h.active i l hbase hl hactive
      obtain ⟨j, hj⟩ := List.getElem?_of_mem hd
      have hne : place ≠ j := by
        rintro rfl
        rw [hc] at hj
        cases hj
        rw [hnone] at hi
        cases hi
      refine ⟨d, List.mem_of_getElem? (i := j) ?_, hi⟩
      rw [List.getElem?_set_ne hne]
      exact hj
    · exact ⟨_, List.mem_of_getElem? (List.getElem?_set_self hlt), rfl⟩
  · intro d hd hremoved
    rcases List.mem_or_eq_of_mem_set hd with hd | rfl
    · exact h.removed d hd hremoved
    · cases hremoved

/-- An installed cut is taken out. -/
theorem takeOut (h : n.Installs sense base cuts) {i : ℕ} (hc : cuts[place]? = some c)
    (hi : c.constraint? = some i) :
    (n.withSubproblem (n.stage.subproblem.editConstraint i fun k =>
      { k with active := false })).Installs sense base
        (cuts.set place { c with constraint? := none, removed := true }) := by
  have edited : ∀ j : ℕ, i ≠ j → (n.stage.subproblem.constraints.modify i fun k =>
      { k with active := false })[j]? = n.stage.subproblem.constraints[j]? := fun j hj =>
    List.getElem?_modify_ne _ _ hj
  refine ⟨h.rowCount_le.trans (by simp [rowCount, withSubproblem, Subproblem.editConstraint]),
    ?_, ?_, ?_, ?_, ?_⟩
  · intro d hd
    rcases List.mem_or_eq_of_mem_set hd with hd | rfl
    · exact h.covers d hd
    · exact h.covers c (List.mem_of_getElem? hc)
  · intro d hd j hj
    obtain ⟨l, hl⟩ := List.getElem?_of_mem hd
    rcases getElem?_set_cases hl with ⟨-, rfl⟩ | ⟨hne, hl⟩
    · cases hj
    · obtain ⟨hbase, k, hk, hcut⟩ := h.constrained d (List.mem_of_getElem? hl) j hj
      -- two cuts never share a constraint
      have hij : i ≠ j := by
        rintro rfl
        exact hne (h.injective l place d c i hl hc hj hi)
      exact ⟨hbase, k, (edited j hij).trans hk, hcut⟩
  · intro j l d e m hj hl hd he
    rcases getElem?_set_cases hj with ⟨rfl, rfl⟩ | ⟨-, hj⟩
    · cases hd
    · rcases getElem?_set_cases hl with ⟨rfl, rfl⟩ | ⟨-, hl⟩
      · cases he
      · exact h.injective j l d e m hj hl hd he
  · intro j k hbase hk hactive
    have hij : i ≠ j := by
      rintro rfl
      have hk : (n.stage.subproblem.constraints.modify i _)[i]? = some k := hk
      rw [List.getElem?_modify_eq] at hk
      obtain ⟨_, -, rfl⟩ := Option.map_eq_some_iff.1 hk
      cases hactive
    obtain ⟨d, hd, hdj⟩ := h.active j k hbase ((edited j hij).symm.trans hk) hactive
    obtain ⟨l, hl⟩ := List.getElem?_of_mem hd
    have hne : place ≠ l := by
      rintro rfl
      rw [hc] at hl
      cases hl
      rw [hi] at hdj
      exact hij (Option.some.inj hdj)
    refine ⟨d, List.mem_of_getElem? (i := l) ?_, hdj⟩
    rw [List.getElem?_set_ne hne]
    exact hl
  · intro d hd hremoved
    rcases List.mem_or_eq_of_mem_set hd with hd | rfl
    · exact h.removed d hd hremoved
    · rfl

/-- Changes before the position, and of what the constraint of a cut has no part in. -/
theorem of_rows_eq (h : n.Installs sense base cuts)
    (hstates : n'.stage.states = n.stage.states) (hterm : n'.cuts.term = n.cuts.term)
    (howner : n'.stage.subproblem.owner = n.stage.subproblem.owner) (hbase : base ≤ n'.rowCount)
    (hrows : n'.stage.subproblem.constraints.drop base = n.stage.subproblem.constraints.drop base) :
    n'.Installs sense base cuts := by
  -- a position after the base is one among the constraints that are the same
  have row : ∀ i, base ≤ i →
      n'.stage.subproblem.constraints[i]? = n.stage.subproblem.constraints[i]? := by
    intro i hi
    have := congrArg (·[i - base]?) hrows
    simpa [List.getElem?_drop, Nat.add_sub_cancel' hi] using this
  refine ⟨hbase, ?_, ?_, h.injective, ?_, h.removed⟩
  · intro c hc
    exact (h.covers c hc).congr hstates rfl
  · intro c hc i hi
    obtain ⟨hb, k, hk, hcut⟩ := h.constrained c hc i hi
    exact ⟨hb, k, (row i hb).trans hk,
      (cutConstraint_congr sense hstates hterm howner rfl rfl).trans hcut⟩
  · intro i k hi hk
    exact h.active i k hi ((row i hi).symm.trans hk)

end Installs

/-- The cuts have given affine functions, in order, and the constraints install them. -/
structure Agrees (sense : Sense) (base : ℕ) (functions : List (ℚ × Dict Name ℚ)) (n : Node ℚ) :
    Prop where
  placed : n.Placed
  installs : n.Installs sense base n.cuts.pool.cuts
  functions_eq : n.cuts.pool.cuts.map Cut.affine = functions

variable {functions : List (ℚ × Dict Name ℚ)}

/-! ### Pruning -/

theorem agrees_pruneCut (place : ℕ) :
    Action.Triple (Agrees sense base functions) (pruneCut place)
      (fun _ => Agrees sense base functions) fun _ => False := by
  refine .get_bind ?_
  intro n h
  cases hc : n.cuts.pool.cuts[place]? with
  | none =>
    refine .pure ?_
    rintro _ rfl
    exact h
  | some c =>
    cases hi : c.constraint? with
    | none =>
      simp only [hi]
      refine .pure ?_
      rintro _ rfl
      exact h
    | some i =>
      simp only [hi]
      refine .ite (fun _ => ?_) fun _ => .pure ?_
      · refine .bind (triple_onSubproblem_modify _ n) fun _ => ?_
        refine .bind ((triple_onPool_modify _ _).consequence (fun _ => id) (fun _ _ => id)
          fun _ => id) fun _ => .pure ?_
        rintro _ rfl
        refine ⟨{ h.placed with }, { h.installs.takeOut hc hi with }, Eq.trans ?_ h.functions_eq⟩
        exact map_set_of_eq hc rfl
      · rintro _ rfl
        exact h

theorem agrees_prune :
    Action.Triple (Agrees sense base functions) prune (fun _ => Agrees sense base functions)
      fun _ => False := by
  refine .get_bind fun n h => ?_
  refine .bind (Q := fun _ => Agrees sense base functions) ?_ fun _ => .pure fun _ => id
  refine (Action.Triple.mapM_range (I := fun _ => Agrees sense base functions) fun place _ =>
    agrees_pruneCut place).consequence ?_ (fun _ _ => id) fun _ => id
  rintro _ rfl
  exact h

/-- If no installed cut is dominated, there is nothing to prune. -/
theorem prune_eq_of_forall
    (h : ∀ c ∈ n.cuts.pool.cuts, c.constraint?.isSome = true → c.count ≠ 0) :
    prune n = .ok 0 n := by
  have one : ∀ place : ℕ, Action.Triple (· = n) (pruneCut place) (fun b n' => n' = n ∧ b = false)
      fun _ => False := by
    intro place
    refine .get_bind ?_
    rintro n rfl
    have unchanged : Action.Triple (· = n) (pure false : Action ℚ (Node ℚ) Bool)
        (fun b n' => n' = n ∧ b = false) fun _ => False := .pure fun _ hn => ⟨hn, rfl⟩
    cases hc : n.cuts.pool.cuts[place]? with
    | none => exact unchanged
    | some c =>
      cases hi : c.constraint? with
      | none => simpa only [hi] using unchanged
      | some i =>
        simp only [hi]
        refine .ite (fun hcount => ?_) fun _ => unchanged
        exact absurd (by simpa using hcount) (h c (List.mem_of_getElem? hc) (by rw [hi]; rfl))
  have all : ∀ places : List ℕ, Action.Triple (· = n) (places.mapM pruneCut)
      (fun bs n' => n' = n ∧ ∀ b ∈ bs, b = false) fun _ => False := by
    intro places
    induction places with
    | nil => exact .pure fun _ hn => ⟨hn, nofun⟩
    | cons place rest ih =>
      rw [List.mapM_cons]
      refine .bind (one place) fun b => .of_forall ?_
      rintro _ ⟨rfl, rfl⟩
      refine .bind ih fun bs => .pure ?_
      rintro _ ⟨rfl, hbs⟩
      exact ⟨rfl, List.forall_mem_cons.2 ⟨rfl, hbs⟩⟩
  have pruned : Action.Triple (· = n) prune (fun removed n' => n' = n ∧ removed = 0)
      fun _ => False := by
    refine .get_bind ?_
    rintro n rfl
    refine .bind (all _) fun bs => .pure ?_
    rintro _ ⟨rfl, hbs⟩
    refine ⟨rfl, ?_⟩
    rw [List.length_eq_zero_iff, List.filter_eq_nil_iff]
    intro b hb
    simp [hbs b hb]
  obtain ⟨removed, n', hrun, rfl, rfl⟩ := pruned.exists_ok rfl
  exact hrun

/-! ### Refining -/

theorem agrees_reinstall (place : ℕ) :
    Action.Triple (Agrees sense base functions) (reinstall sense place)
      (fun _ => Agrees sense base functions) fun _ => False := by
  refine .get_bind ?_
  intro n h
  cases hc : n.cuts.pool.cuts[place]? with
  | none =>
    refine .pure ?_
    rintro _ rfl
    exact h
  | some c =>
    have hmem := List.mem_of_getElem? hc
    refine .ite (fun hif => ?_) fun _ => .pure ?_
    · obtain ⟨hremoved, -⟩ := Bool.and_eq_true_iff.1 hif
      obtain ⟨k, hk⟩ := exists_cutConstraint h.placed (h.installs.covers c hmem) sense
      refine .bind ((triple_install sense c n).consequence (fun _ => id) (fun _ _ => id) ?_) ?_
      · rintro _ ⟨-, e, he⟩
        rw [hk] at he
        cases he
      · refine fun c' => .of_forall ?_
        rintro _ ⟨k', hk', rfl, rfl⟩
        refine (triple_onPool_modify _ _).consequence (fun _ => id) ?_ fun _ => id
        rintro _ _ rfl
        refine ⟨{ h.placed with },
          { h.installs.install hc (h.installs.removed c hmem hremoved) hk' with },
          Eq.trans ?_ h.functions_eq⟩
        exact map_set_of_eq hc rfl
    · rintro _ rfl
      exact h

/-- A new cut over the names is recorded, also if it is not worth installing. -/
theorem agrees_addCut {names : List String} {states : List (State ℚ)} (hn : names.Nodup)
    {x : State ℚ} (hx : x.Over names) (K : n.Kept names sense states fun _ => True)
    (h : Agrees sense base functions n) (hcovers : n.Covers c)
    (hover : ∀ name ∈ c.coefficients.keys, name ∈ names.map Datum.text)
    (hnone : c.constraint? = none) (hcount : c.count = 0) (hremoved : c.removed = false)
    (height : ℚ) :
    Action.Triple (· = n) (addCut sense x x c height)
      (fun _ => Agrees sense base (functions ++ [c.affine])) fun _ => False := by
  -- the cut is recorded at a node that has its constraint already
  -- a cut over the names can be compared everywhere, so that recording cannot fail
  have recorded : ∀ (m : Node ℚ) (c' : Cut ℚ), m.Placed → m.cuts.pool = n.cuts.pool →
      m.Installs sense base (n.cuts.pool.cuts ++ [c']) → c'.affine = c.affine → c'.count = 0 →
      Action.Triple (· = m)
        (do
          onPool (CutPool.add sense c' x x)
          (List.range (← get).cuts.pool.cuts.length).forM (reinstall sense))
        (fun _ => Agrees sense base (functions ++ [c.affine])) fun _ => False := by
    intro m c' hplaced hpool hinstalls haffine hcount'
    have hover' : ∀ name ∈ c'.coefficients.keys, name ∈ names.map Datum.text := by
      rw [show c'.coefficients = c.coefficients from congrArg (·.2) haffine]
      exact hover
    have offered : Offer.Over names ⟨c', x⟩ := ⟨hcount', hover', fun _ => hx⟩
    have record : Action.Triple (· = m.cuts.pool) (CutPool.add sense c' x x)
        (fun _ pool => pool.cuts.map Cut.uncounted =
          n.cuts.pool.cuts.map Cut.uncounted ++ [c'.uncounted]) fun _ => False := by
      rw [hpool]
      refine .of_cases (fun _ _ pool hs hr => ?_) fun _ _ _ hs hr => ?_
      · exact (CutPool.triple_add c' x x n.cuts.pool).ok hs hr
      · exact (CutPool.ledger_add hn offered).error ⟨hs ▸ K.ledger, rfl, hs ▸ K.visits⟩ hr
    refine .bind ((triple_onPool record).consequence (fun _ => id) (fun _ _ => id) ?_)
      fun _ => .get_bind ?_
    · rintro _ ⟨_, -, hfalse⟩
      exact hfalse
    rintro _ ⟨pool, rfl, hcuts⟩
    have same : pool.cuts.map Cut.uncounted = (n.cuts.pool.cuts ++ [c']).map Cut.uncounted := by
      rw [hcuts, List.map_append, List.map_singleton]
    have agrees : Agrees sense base (functions ++ [c.affine]) (m.withPool pool) := by
      refine ⟨{ hplaced with }, ?_, ?_⟩
      · have := hinstalls.of_uncounted_eq same
        exact { this with }
      · have affine := congrArg (List.map Cut.affine) same
        rw [List.map_map, List.map_map] at affine
        rw [← h.functions_eq, ← haffine, ← List.map_singleton, ← List.map_append]
        exact affine
    refine (Action.Triple.forM_range (I := fun _ => Agrees sense base (functions ++ [c.affine]))
      fun place _ => agrees_reinstall place).consequence ?_ (fun _ _ => id) fun _ => id
    rintro _ rfl
    exact agrees
  have appended := h.installs.concat hcovers hnone
  refine .get_bind ?_
  rintro n rfl
  refine .ite (fun _ => ?_) fun _ => ?_
  · obtain ⟨k, hk⟩ := exists_cutConstraint h.placed hcovers sense
    refine .bind ((triple_install sense c n).consequence (fun _ => id) (fun _ _ => id) ?_) ?_
    · rintro _ ⟨-, e, he⟩
      rw [hk] at he
      cases he
    · refine fun c' => .of_forall ?_
      rintro _ ⟨k', hk', rfl, rfl⟩
      refine recorded _ _ { h.placed with } rfl ?_ rfl hcount
      have installed := appended.install List.getElem?_concat_length hnone hk'
      rw [List.set_append_right _ _ le_rfl, Nat.sub_self, List.set_cons_zero,
        ← hremoved] at installed
      exact installed
  · exact recorded n c h.placed rfl appended rfl hcount

/-! ### Runs -/

/-- The nodes that refining, pruning and solving lead to, with the states and the cuts of the
refinements that succeeded. The states of the refinements are over given names. -/
inductive Operated (solver : Solver ℚ) (names : List String) (sense : Sense) (start : Node ℚ) :
    List (State ℚ × Cut ℚ) → Node ℚ → Prop
  | start : Operated solver names sense start [] start
  | refined {history : List (State ℚ × Cut ℚ)} {n n' : Node ℚ} {measure : Measure ℚ} {x : State ℚ}
      {duals : List (State ℚ)} {probabilities objectives : List ℚ} {c : Cut ℚ} {height : ℚ}
      (before : Operated solver names sense start history n) (named : x.Over names)
      (cut : newCut sense measure x duals probabilities objectives = .ok (c, height))
      (run : refine sense measure x duals probabilities objectives n = .ok () n') :
      Operated solver names sense start (history ++ [(x, c)]) n'
  | refused {history : List (State ℚ × Cut ℚ)} {n n' : Node ℚ} {measure : Measure ℚ} {x : State ℚ}
      {duals : List (State ℚ)} {probabilities objectives : List ℚ} {cause : Failure ℚ}
      (before : Operated solver names sense start history n) (named : x.Over names)
      (run : refine sense measure x duals probabilities objectives n = .error cause n') :
      Operated solver names sense start history n'
  | pruned {history : List (State ℚ × Cut ℚ)} {n n' : Node ℚ} {removed : ℕ}
      (before : Operated solver names sense start history n) (run : prune n = .ok removed n') :
      Operated solver names sense start history n'
  | solved {history : List (State ℚ × Cut ℚ)} {n n' : Node ℚ} {x : State ℚ} {noise : Datum ℚ}
      {needsDuals : Bool} {answer : Solution ℚ}
      (before : Operated solver names sense start history n)
      (run : solve solver sense x noise needsDuals n = .ok answer n') :
      Operated solver names sense start history n'
  | unsolved {history : List (State ℚ × Cut ℚ)} {n n' : Node ℚ} {x : State ℚ} {noise : Datum ℚ}
      {needsDuals : Bool} {cause : Failure ℚ}
      (before : Operated solver names sense start history n)
      (run : solve solver sense x noise needsDuals n = .error cause n') :
      Operated solver names sense start history n'

variable {solver : Solver ℚ} {names : List String} {start : Node ℚ}
  {history : List (State ℚ × Cut ℚ)}

/-- What a run keeps of a node over names. -/
structure Running (names : List String) (sense : Sense) (start : Node ℚ)
    (history : List (State ℚ × Cut ℚ)) (n : Node ℚ) : Prop where
  used : Used sense start [] n
  named : ∀ x ∈ history.map (·.1), x.Over names
  reached : Reached names sense start (history.map (·.1)) n
  agrees : Agrees sense start.rowCount (history.map (·.2.affine)) n

theorem Running.of_sameCuts (h : Running names sense start history n) (hn' : Used sense start [] n')
    (hsame : SameCuts start n n') : Running names sense start history n' := by
  have declared : n'.declaration = n.declaration := hn'.declaration.trans h.used.declaration.symm
  have states : n'.stage.states = n.stage.states := congrArg (·.stage.states) declared
  have owner : n'.stage.subproblem.owner = n.stage.subproblem.owner :=
    congrArg (·.stage.subproblem.owner) declared
  refine ⟨hn', h.named, .between h.reached hsame.cuts states owner,
    h.agrees.placed.of_declaration_eq declared, ?_, ?_⟩
  · rw [hsame.cuts]
    exact h.agrees.installs.of_rows_eq states (by rw [hsame.cuts]) owner hn'.rowCount_le hsame.rows
  · rw [hsame.cuts]
    exact h.agrees.functions_eq

theorem nodup_of_blank (hb : start.Blank)
    (hnames : start.stage.states.keys.Perm (names.map Datum.text)) : names.Nodup := by
  have distinct : (names.map (Datum.text : String → Name)).Pairwise fun a b => (a == b) = false :=
    hnames.pairwise (Dict.distinct_iff_keys.1 hb.tidy.distinct) fun {a b} hab => by
      rw [BEq.comm]
      exact hab
  refine (List.pairwise_map.1 distinct).imp fun {s t} hst heq => ?_
  rw [heq, beq_self_eq_true] at hst
  cases hst

/-- A new cut over the names can be recorded. -/
theorem Running.triple_addCut (hb : start.Blank)
    (hnames : start.stage.states.keys.Perm (names.map Datum.text))
    (h : Running names sense start history n) {measure : Measure ℚ} {x : State ℚ}
    (hx : x.Over names) {duals : List (State ℚ)} {probabilities objectives : List ℚ} {height : ℚ}
    (hcut : newCut sense measure x duals probabilities objectives = .ok (c, height)) :
    Action.Triple (· = n) (addCut sense x x c height)
      (fun _ => Agrees sense start.rowCount (history.map (·.2.affine) ++ [c.affine]))
      fun _ => False := by
  have hn := nodup_of_blank hb hnames
  have keys := keys_newCut (hx.distinct hn) hcut
  obtain ⟨hnone, hcount, hremoved⟩ := fresh_newCut hcut
  have covers : n.Covers c :=
    covers_newCut (hx.distinct hn) (h.used.states_eq ▸ (hx.trans hnames.symm).symm.subset) hcut
  exact agrees_addCut hn hx (h.reached.kept hn hb.pool_eq) h.agrees covers
    (fun name hname => hx.mem_iff.1 (keys ▸ hname)) hnone hcount hremoved height

/-- Every run keeps it. -/
theorem Operated.running (hb : start.Blank)
    (hnames : start.stage.states.keys.Perm (names.map Datum.text))
    (h : Operated solver names sense start history n) : Running names sense start history n := by
  induction h with
  | start =>
    refine ⟨used_of_blank hb, nofun, .start, hb.placed, ⟨le_rfl, ?_, ?_, ?_, ?_, ?_⟩, ?_⟩
    all_goals rw [hb.pool_eq]
    · rintro c ⟨⟩
    · rintro c ⟨⟩
    · rintro j k c d i ⟨⟩
    · intro i k hbase hk
      exact absurd (List.getElem?_eq_some_iff.1 hk).1 (Nat.not_lt.2 hbase)
    · rintro c ⟨⟩
    · rfl
  | @refined history m m' measure x duals probabilities objectives c height before named
      cut run ih =>
    have used : Used sense start [] m' :=
      ((used_refine measure x duals probabilities objectives).ok ih.used run).1
    have reached := Reached.refined ih.reached named run
    rw [refine_eq, cut] at run
    have agrees := (ih.triple_addCut hb hnames named cut).ok rfl run
    refine ⟨used, ?_, ?_, ?_⟩
    · rw [List.map_append]
      intro y hy
      rcases List.mem_append.1 hy with hy | hy
      · exact ih.named y hy
      · rw [List.mem_singleton.1 hy]
        exact named
    · rw [List.map_append]
      exact reached
    · rw [List.map_append]
      exact agrees
  | @refused history m m' measure x duals probabilities objectives cause before named run ih =>
    rw [refine_eq] at run
    cases hcut : newCut sense measure x duals probabilities objectives with
    | error e =>
      rw [hcut] at run
      cases run
      exact ih
    | ok cut =>
      rw [hcut] at run
      exact ((ih.triple_addCut hb hnames named hcut).error rfl run).elim
  | pruned before run ih =>
    exact ⟨(used_prune.ok ih.used run).1, ih.named, .pruned ih.reached run,
      agrees_prune.ok ih.agrees run⟩
  | solved before run ih =>
    obtain ⟨⟨used, same⟩, -⟩ := (triple_solve hb ih.used _).ok rfl run
    exact ih.of_sameCuts used same
  | unsolved before run ih =>
    obtain ⟨used, same⟩ := (triple_solve hb ih.used _).error rfl run
    exact ih.of_sameCuts used same

/-- What holds of the cuts of a node without a tolerance. -/
structure Installation (sense : Sense) (start : Node ℚ) (history : List (State ℚ × Cut ℚ))
    (n : Node ℚ) : Prop where
  /-- The recorded cuts are those of the refinements, in order. -/
  recorded : n.cuts.pool.cuts.map Cut.affine = history.map (·.2.affine)
  /-- The cuts without a constraint are those that were taken out. -/
  removed_iff : ∀ c ∈ n.cuts.pool.cuts, c.removed = true ↔ c.constraint? = none
  installed : ∀ c ∈ n.cuts.pool.cuts, 0 < c.count → c.constraint?.isSome = true
  /-- The declared constraints stay what they are. -/
  declared : ∀ i < start.rowCount, (n.stage.subproblem.constraints[i]?).map Constraint.kind =
    (start.stage.subproblem.constraints[i]?).map Constraint.kind
  /-- The other active constraints are those of the cuts. -/
  active_iff : ∀ i, (start.rowCount ≤ i ∧
    ∃ k, n.stage.subproblem.constraints[i]? = some k ∧ k.active = true) ↔
      ∃ c ∈ n.cuts.pool.cuts, c.constraint? = some i
  /-- Different cuts have different constraints. -/
  injective : ∀ (j k : ℕ) (c d : Cut ℚ) (i : ℕ), n.cuts.pool.cuts[j]? = some c →
    n.cuts.pool.cuts[k]? = some d → c.constraint? = some i → d.constraint? = some i → j = k
  /-- The constraint of a cut bounds the value term by the cut. -/
  holds_iff : ∀ c ∈ n.cuts.pool.cuts, ∀ i k, c.constraint? = some i →
    n.stage.subproblem.constraints[i]? = some k → ∀ z,
      k.Holds n.stage.subproblem.names.length z ↔
        sense.AtMost (c.value (n.leaving z)) (z n.cuts.term.index)
  /-- At every state of a refinement an installed cut is the best of all. -/
  best : ∀ x ∈ history.map (·.1), ∃ d ∈ n.cuts.pool.cuts, d.constraint?.isSome = true ∧
    ∀ c ∈ n.cuts.pool.cuts, sense.AtMost (c.value x.profile) (d.value x.profile)

theorem active_of_cutConstraint {k : Constraint ℚ} (h : n.cutConstraint sense c = .ok k) :
    k.active = true := by
  obtain ⟨e, -, h⟩ := Except.bind_eq_ok.1 h
  rw [Subproblem.constraintOf_eq_ok h]

theorem Running.installation (hb : start.Blank)
    (hnames : start.stage.states.keys.Perm (names.map Datum.text)) (hne : names ≠ [])
    (himprove : ¬0 < start.cuts.settings.improvement) (h : Running names sense start history n) :
    Installation sense start history n := by
  have hn := nodup_of_blank hb hnames
  have K := h.reached.kept hn hb.pool_eq
  have I := h.agrees.installs
  have himprove : ¬0 < n.cuts.settings.improvement := by rwa [h.used.settings_eq]
  refine ⟨h.agrees.functions_eq, fun c hc => ⟨I.removed c hc, fun hnone => ?_⟩, fun c hc hpos => ?_,
    h.used.kind, fun i => ⟨?_, ?_⟩, I.injective, fun c hc i k hi hk z => ?_, fun x hx => ?_⟩
  · refine (K.skipped himprove c hc).resolve_left ?_
    rw [hnone]
    simp
  · refine (K.skipped himprove c hc).resolve_right fun hremoved => ?_
    obtain ⟨j, hj⟩ := List.getElem?_of_mem hc
    have := K.restored j c trivial hj hremoved
    omega
  · rintro ⟨hbase, k, hk, hactive⟩
    exact I.active i k hbase hk hactive
  · rintro ⟨c, hc, hi⟩
    obtain ⟨hbase, k, hk, hcut⟩ := I.constrained c hc i hi
    exact ⟨hbase, k, hk, active_of_cutConstraint hcut⟩
  · obtain ⟨-, k', hk', hcut⟩ := I.constrained c hc i hi
    rw [hk] at hk'
    cases hk'
    exact holds_cutConstraint h.agrees.placed (I.covers c hc) hcut z
  · have hentries : x.isEmpty = false := by
      rw [Dict.isEmpty, Bool.eq_false_iff]
      intro hempty
      have keys : x.keys = [] := by rw [Dict.keys, List.isEmpty_iff.1 hempty]; rfl
      have perm : x.keys.Perm (names.map Datum.text) := h.named x hx
      rw [keys] at perm
      exact hne (List.map_eq_nil_iff.1 perm.nil_eq.symm)
    obtain ⟨v, hv, hperm, best, hk, -, ordered⟩ := K.exists_best hn hx hentries
    exact ⟨best, List.mem_of_getElem? hk, K.bestInstalled himprove x v hv hperm best hk, ordered⟩

/-- Without a tolerance the cuts of a node over names agree with the constraints that install them,
however the node is refined, pruned and solved. Pruning it leaves the cuts installed that are
somewhere the best, and pruning it once more changes nothing. -/
theorem installation_of_operated {graph : Graph ℚ} {settings : CutSettings ℚ} {plans : StagePlans ℚ}
    {index : Datum ℚ} (hbuilt : Model.BuiltNode graph settings plans index start)
    (himprove : settings.improvement = 0)
    (hnames : start.stage.states.keys.Perm (names.map Datum.text)) (hne : names ≠ [])
    (h : Operated solver names sense start history n) :
    Installation sense start history n ∧
      ∃ removed n', prune n = .ok removed n' ∧ Installation sense start history n' ∧
        (∀ c ∈ n'.cuts.pool.cuts, c.constraint?.isSome = true ↔ 0 < c.count) ∧
        prune n' = .ok 0 n' := by
  obtain ⟨hb, hsettings⟩ := Model.blank_of_built hbuilt
  have himprove : ¬0 < start.cuts.settings.improvement := by
    rw [hsettings, himprove]; exact lt_irrefl 0
  have running := h.running hb hnames
  have I := running.installation hb hnames hne himprove
  obtain ⟨removed, n', hrun, -, hpool⟩ := (triple_prune n).exists_ok rfl
  have K := running.reached.kept (nodup_of_blank hb hnames) hb.pool_eq
  have installed : ∀ c ∈ n'.cuts.pool.cuts, c.constraint?.isSome = true ↔ 0 < c.count := by
    intro c hc
    rw [hpool] at hc
    obtain ⟨d, hd, rfl⟩ := List.mem_map.1 hc
    obtain ⟨j, hj⟩ := List.getElem?_of_mem hd
    have counted := K.ledger.count_eq j d hj
    rw [Cut.isInstalled_pruned, Cut.count_pruned]
    constructor
    · rintro ⟨-, hcount⟩
      omega
    · intro hpos
      exact ⟨I.installed d hd hpos, by omega⟩
  refine ⟨I, removed, n', hrun, ?_, installed, prune_eq_of_forall fun c hc hi => ?_⟩
  · exact ((Operated.pruned h hrun).running hb hnames).installation hb hnames hne himprove
  · have := (installed c hc).1 hi
    omega

/-- A node with one state is refined twice at the same state, the second time with a better cut.
Pruning then takes out the first cut, and nothing when it is called again. -/
theorem installation_of_two_refinements :
    ∃ (graph : Graph ℚ) (start n n' : Node ℚ) (history : List (State ℚ × Cut ℚ)),
      Model.BuiltNode graph ⟨.finite 0, .posInf, 0⟩
        ⟨[], { states := [⟨⟨.text "x", none, none⟩, .int 0⟩] }⟩ (.int 1) start ∧
      Operated (fun _ => .undecided) ["x"] .min start history n ∧ history.length = 2 ∧
      prune n = .ok 1 n' ∧ Installation .min start history n' ∧ prune n' = .ok 0 n' := by
  have check : (do
      let graph ← Graph.ofEdges (.int 0) [.int 1] [(.int 0, .int 1, .real 1)] []
      let stage ← Stage.build (.int 1) 0 { states := [⟨⟨.text "x", none, none⟩, .int 0⟩] }
      let k ← Node.ofStage ⟨.finite 0, .posInf, 0⟩
        (Edge.ofPairs (graph.nodes.getD (.int 1) [])) stage
      let start ← k.observed graph.partition ⟨[]⟩ (.int 1)
      let cut₁ ← newCut .min .expectation ⟨[(.text "x", 1)]⟩ [⟨[(.text "x", 2)]⟩] [1] [3]
      let run₁ ← (refine .min .expectation (⟨[(.text "x", 1)]⟩ : State ℚ)
        [(⟨[(.text "x", 2)]⟩ : State ℚ)] [1] [3]).answer start
      let cut₂ ← newCut .min .expectation ⟨[(.text "x", 1)]⟩ [⟨[(.text "x", 0)]⟩] [1] [4]
      let run₂ ← (refine .min .expectation (⟨[(.text "x", 1)]⟩ : State ℚ)
        [(⟨[(.text "x", 0)]⟩ : State ℚ)] [1] [4]).answer run₁.2
      let pruned ← prune.answer run₂.2
      if start.stage.states.keys.map Datum.identity = ["x"].map .text ∧
          pruned.1 = 1 then return () else .error .missingKey :
        Except (Failure ℚ) Unit).toBool = true := by
    decide +kernel
  simp only [Except.toBool_bind, Except.toBool_ite, Action.answer_eq_ok, Prod.exists] at check
  obtain ⟨graph, -, stage, hstage, k, hk, start, hstart, c₁, height₁, hcut₁, _, n₁, hrun₁,
    c₂, height₂, hcut₂, _, n₂, hrun₂, removed, n₃, hprune, hkeys, hremoved⟩ := check
  have hnames : start.stage.states.keys.Perm (["x"].map Datum.text) :=
    .of_eq (Datum.eq_texts_of_identities_eq hkeys)
  have hbuilt : Model.BuiltNode graph ⟨.finite 0, .posInf, 0⟩
      ⟨[], { states := [⟨⟨.text "x", none, none⟩, .int 0⟩] }⟩ (.int 1) start :=
    ⟨0, stage, k, ⟨[]⟩, hstage, hk, hstart⟩
  have named : State.Over ["x"] (⟨[(.text "x", 1)]⟩ : State ℚ) := .refl _
  have fresh : Operated (fun _ => .undecided) ["x"] .min start [] start := .start
  have operated := (fresh.refined named hcut₁ hrun₁).refined named hcut₂
    hrun₂
  obtain ⟨-, removed, n', hrun, installation, -, hagain⟩ :=
    installation_of_operated hbuilt rfl hnames (by simp) operated
  have same := hrun.symm.trans hprune
  cases same
  rw [hremoved] at hrun
  exact ⟨graph, start, n₂, _, _, hbuilt, operated, rfl, hrun, installation, hagain⟩

end Node

end Multistage
