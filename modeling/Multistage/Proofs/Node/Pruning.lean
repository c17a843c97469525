import Multistage.Model
import Multistage.Proofs.Cut.LevelOne
import Multistage.Proofs.Linear.Certified
import Multistage.Proofs.Node.AverageCut
import Multistage.Proofs.Node.Blank
import Multistage.Proofs.Node.Declaration
import Multistage.Proofs.Node.Estimate
import Multistage.Proofs.Node.Install
import Mathlib.Tactic.NormNum

/-!
# What pruning does to the estimate of a node

Pruning takes out the installed cuts that are nowhere the best of all recorded cuts. It keeps the
estimate at a visited state whose best cut is installed. With a tolerance a cut may be recorded
without being installed; where it is the best one, pruning can take out the cut that stood in for
it.

## Main definitions

- `Node.Kept`: what refining and pruning keep of the bookkeeping of a node.
- `Node.Reached`: the nodes that refining and pruning lead to, with the states that were refined.

## Main statements

- `Node.kept_refine`, `Node.kept_prune`: the two operations keep the bookkeeping.
- `Node.estimate_prune`: where pruning keeps the estimate.
- `Node.prune_lowers_estimate`: a visited state at which it does not.
- `Node.estimate_prune_of_stateless`: a node without states loses all of its cuts.
-/

namespace Multistage

/-! ### Changing how cuts are installed -/

/-- The cut without its installation. -/
def Cut.bare (c : Cut ℚ) : Cut ℚ := { c with constraint? := none, removed := false }

namespace CutPool

variable {names : List String} {sense : Sense} {pool pool' : CutPool ℚ ℚ}

/-- A ledger does not depend on how cuts are installed. -/
theorem Ledger.of_bare_eq {done : ℕ → ℕ → Prop} (L : pool.Ledger names sense done)
    (hv : pool'.visited = pool.visited)
    (hc : pool'.cuts.map Cut.bare = pool.cuts.map Cut.bare) :
    pool'.Ledger names sense done := by
  have same : ∀ k : ℕ, (pool'.cuts[k]?).map Cut.bare = (pool.cuts[k]?).map Cut.bare := by
    intro k
    rw [← List.getElem?_map, ← List.getElem?_map, hc]
  have before : ∀ {k : ℕ} {c' : Cut ℚ}, pool'.cuts[k]? = some c' →
      ∃ c, pool.cuts[k]? = some c ∧ c.bare = c'.bare := by
    intro k c' hk
    have := same k
    rw [hk] at this
    exact Option.map_eq_some_iff.1 this.symm
  have after : ∀ {k : ℕ} {c : Cut ℚ}, pool.cuts[k]? = some c →
      ∃ c', pool'.cuts[k]? = some c' ∧ c'.bare = c.bare := by
    intro k c hk
    have := same k
    rw [hk] at this
    exact Option.map_eq_some_iff.1 this
  have height_eq : ∀ {c d : Cut ℚ}, c.bare = d.bare → ∀ x, c.height x = d.height x := by
    intro c d h x
    show c.bare.height x = d.bare.height x
    rw [h]
  refine ⟨?_, ?_, ?_, ?_, ?_⟩
  · intro c' hc'
    obtain ⟨k, hk⟩ := List.getElem?_of_mem hc'
    obtain ⟨c, hk, hcc⟩ := before hk
    rw [← show c.coefficients = c'.coefficients from congrArg (·.coefficients) hcc]
    exact L.cut_over c (List.mem_of_getElem? hk)
  · rw [hv]
    exact L.state_over
  · intro v hvis
    rw [hv] at hvis
    obtain ⟨c, hk, hheight⟩ := L.best v hvis
    obtain ⟨c', hk', hcc⟩ := after hk
    exact ⟨c', hk', (height_eq hcc v.state).trans hheight⟩
  · intro k c' hk
    obtain ⟨c, hk, hcc⟩ := before hk
    rw [hv, ← L.count_eq k c hk]
    exact (congrArg (·.count) hcc).symm
  · intro k l c' v h hdone hk hl hheight
    obtain ⟨c, hk, hcc⟩ := before hk
    rw [hv] at hl
    rw [← height_eq hcc v.state] at hheight
    exact L.settled k l c v h hdone hk hl hheight

end CutPool

/-- The cut after its node was pruned. -/
def Cut.pruned (c : Cut ℚ) : Cut ℚ :=
  if c.count = 0 ∧ c.constraint?.isSome = true then
    { c with constraint? := none, removed := true }
  else c

theorem Cut.bare_pruned (c : Cut ℚ) : c.pruned.bare = c.bare := by
  unfold pruned
  split <;> rfl

theorem Cut.count_pruned (c : Cut ℚ) : c.pruned.count = c.count := by
  unfold pruned
  split <;> rfl

theorem Cut.value_pruned (c : Cut ℚ) (x : Name → ℝ) : c.pruned.value x = c.value x := by
  unfold pruned
  split <;> rfl

/-- A cut is installed after pruning iff it was and is somewhere the best. -/
theorem Cut.isInstalled_pruned (c : Cut ℚ) :
    c.pruned.constraint?.isSome = true ↔ c.constraint?.isSome = true ∧ c.count ≠ 0 := by
  unfold pruned
  split
  next h => simp [h.1]
  next h => tauto

namespace Node

variable {sense : Sense}

/-! ### Pruning -/

/-- What pruning and refining leave alone. -/
structure SameShape (n n' : Node ℚ) : Prop where
  states : n'.stage.states = n.stage.states
  owner : n'.stage.subproblem.owner = n.stage.subproblem.owner
  term : n'.cuts.term = n.cuts.term
  settings : n'.cuts.settings = n.cuts.settings

theorem SameShape.refl (n : Node ℚ) : n.SameShape n := ⟨rfl, rfl, rfl, rfl⟩

theorem SameShape.trans {n n' n'' : Node ℚ} (h : n.SameShape n') (h' : n'.SameShape n'') :
    n.SameShape n'' :=
  ⟨h'.states.trans h.states, h'.owner.trans h.owner, h'.term.trans h.term,
    h'.settings.trans h.settings⟩

/-- A cut has the same constraint in a node of the same shape. -/
theorem SameShape.cutConstraint {n n' : Node ℚ} (h : n.SameShape n') (c : Cut ℚ) :
    n'.cutConstraint sense c = n.cutConstraint sense c :=
  cutConstraint_congr sense h.states h.term h.owner rfl rfl

theorem triple_pruneCut (n : Node ℚ) (place : ℕ) :
    Action.Triple (· = n) (pruneCut place)
      (fun _ n' => n.SameShape n' ∧
        n'.cuts.pool = { n.cuts.pool with cuts := n.cuts.pool.cuts.modify place Cut.pruned })
      fun _ => False := by
  have unchanged : ∀ c, n.cuts.pool.cuts[place]? = some c → c.pruned = c →
      n.cuts.pool = { n.cuts.pool with cuts := n.cuts.pool.cuts.modify place Cut.pruned } := by
    intro c hc hpruned
    have : n.cuts.pool.cuts.modify place Cut.pruned = n.cuts.pool.cuts := by
      apply List.ext_getElem?
      intro k
      by_cases hk : place = k
      · subst hk
        rw [List.getElem?_modify_eq, hc, Option.map_eq_map, Option.map_some, hpruned]
      · rw [List.getElem?_modify_ne _ _ hk]
    rw [this]
  refine .get_bind ?_
  rintro n rfl
  cases hc : n.cuts.pool.cuts[place]? with
  | none =>
    refine .pure ?_
    rintro n rfl
    refine ⟨.refl n, ?_⟩
    rw [List.modify_eq_self (List.getElem?_eq_none_iff.1 hc)]
  | some c =>
    cases hi : c.constraint? with
    | none =>
      simp only [hi]
      refine .pure ?_
      rintro n rfl
      exact ⟨.refl n, unchanged c hc (if_neg (by rw [hi]; rintro ⟨-, ⟨⟩⟩))⟩
    | some i =>
      simp only [hi]
      refine .ite (fun hcount => ?_) fun hcount => ?_
      · refine .bind (triple_onSubproblem_modify _ n) fun _ => ?_
        refine .bind ((triple_onPool_modify _ _).consequence (fun _ => id) (fun _ _ => id)
          fun _ => id) fun _ => .pure ?_
        rintro _ rfl
        refine ⟨⟨rfl, rfl, rfl, rfl⟩, ?_⟩
        have hpruned : c.pruned = { c with constraint? := none, removed := true } :=
          if_pos ⟨by simpa using hcount, by rw [hi]; rfl⟩
        have cuts : n.cuts.pool.cuts.set place { c with constraint? := none, removed := true } =
            n.cuts.pool.cuts.modify place Cut.pruned := by
          apply List.ext_getElem?
          intro k
          by_cases hk : place = k
          · subst hk
            rw [List.getElem?_modify_eq, List.getElem?_set_self (List.getElem?_eq_some_iff.1 hc).1,
              hc, Option.map_eq_map, Option.map_some, hpruned]
          · rw [List.getElem?_modify_ne _ _ hk, List.getElem?_set_ne hk]
        exact congrArg (fun cuts => ({ n.cuts.pool with cuts := cuts } : CutPool ℚ ℚ)) cuts
      · refine .pure ?_
        rintro n rfl
        exact ⟨.refl n, unchanged c hc (if_neg fun h => hcount (by simpa using h.1))⟩

theorem triple_prune (n : Node ℚ) :
    Action.Triple (· = n) prune
      (fun _ n' => n.SameShape n' ∧
        n'.cuts.pool = { n.cuts.pool with cuts := n.cuts.pool.cuts.map Cut.pruned })
      fun _ => False := by
  refine .get_bind ?_
  rintro n rfl
  -- the cuts before the one that is next are pruned, the others are as they were
  let I : ℕ → Node ℚ → Prop := fun k n' => n.SameShape n' ∧
    n'.cuts.pool.visited = n.cuts.pool.visited ∧ n'.cuts.pool.seen = n.cuts.pool.seen ∧
    ∀ j : ℕ, n'.cuts.pool.cuts[j]? = (n.cuts.pool.cuts[j]?).map fun c =>
      if j < k then c.pruned else c
  -- the cuts before the one that is next are pruned
  have loop : Action.Triple (· = n) ((List.range n.cuts.pool.cuts.length).mapM pruneCut)
      (fun _ => I n.cuts.pool.cuts.length) fun _ => False := by
    refine (Action.Triple.mapM_range (I := I) fun k hk => ?_).consequence ?_ (fun _ _ => id)
      fun _ => id
    · rintro n' ⟨hshape, hvisited, hseen, hcuts⟩
      refine (triple_pruneCut n' k).consequence (fun _ => id) ?_ (fun _ => id) n' rfl
      rintro - n'' ⟨hshape', hpool⟩
      refine ⟨hshape.trans hshape', by rw [hpool]; exact hvisited, by rw [hpool]; exact hseen, ?_⟩
      intro j
      rw [hpool]
      show (n'.cuts.pool.cuts.modify k Cut.pruned)[j]? = _
      by_cases hj : k = j
      · subst hj
        rw [List.getElem?_modify_eq, hcuts, Option.map_eq_map, Option.map_map]
        congr 1
        funext c
        simp
      · rw [List.getElem?_modify_ne _ _ hj, hcuts]
        congr 1
        funext c
        by_cases hlt : j < k
        · rw [if_pos hlt, if_pos (by omega)]
        · rw [if_neg hlt, if_neg (by omega)]
    · rintro _ rfl
      refine ⟨.refl _, rfl, rfl, fun j => ?_⟩
      simp
  refine .bind loop fun _ => .pure ?_
  rintro n' ⟨hshape, hvisited, hseen, hcuts⟩
  refine ⟨hshape, ?_⟩
  have cuts : n'.cuts.pool.cuts = n.cuts.pool.cuts.map Cut.pruned := by
    apply List.ext_getElem?
    intro j
    rw [hcuts, List.getElem?_map]
    by_cases hj : j < n.cuts.pool.cuts.length
    · simp [hj]
    · simp [List.getElem?_eq_none (Nat.not_lt.1 hj)]
  show (⟨n'.cuts.pool.cuts, n'.cuts.pool.visited, n'.cuts.pool.seen⟩ : CutPool ℚ ℚ) = _
  rw [cuts, hvisited, hseen]

/-! ### The bookkeeping of a node -/

/-- The pool has a ledger of the states, every cut that was ever installed can be installed, cuts
that were taken out at certain positions are nowhere the best, and without a tolerance every cut
was installed. -/
structure Kept (names : List String) (sense : Sense) (states : List (State ℚ)) (done : ℕ → Prop)
    (n : Node ℚ) : Prop where
  ledger : n.cuts.pool.Ledger names sense fun _ _ => True
  visits : n.cuts.pool.frame.Visits states
  expressible : ∀ c ∈ n.cuts.pool.cuts, c.constraint?.isSome = true ∨ c.removed = true →
    ∃ k, n.cutConstraint sense c = .ok k
  restored : ∀ (k : ℕ) (c : Cut ℚ), done k → n.cuts.pool.cuts[k]? = some c → c.removed = true →
    c.count = 0
  skipped : ¬0 < n.cuts.settings.improvement → ∀ c ∈ n.cuts.pool.cuts,
    c.constraint?.isSome = true ∨ c.removed = true

variable {names : List String} {states : List (State ℚ)} {done : ℕ → Prop} {n n' : Node ℚ}

namespace Kept

theorem extend {done' : ℕ → Prop} (K : n.Kept names sense states done)
    (h : ∀ k < n.cuts.pool.cuts.length, done' k → done k) : n.Kept names sense states done' := by
  refine { K with restored := ?_ }
  intro k c hk hc
  exact K.restored k c (h k (List.getElem?_eq_some_iff.1 hc).1 hk) hc

theorem of_cuts_eq (K : n.Kept names sense states done) (hcuts : n'.cuts = n.cuts)
    (hstates : n'.stage.states = n.stage.states)
    (howner : n'.stage.subproblem.owner = n.stage.subproblem.owner) :
    n'.Kept names sense states done := by
  refine ⟨by rw [hcuts]; exact K.ledger, by rw [hcuts]; exact K.visits, ?_,
    by rw [hcuts]; exact K.restored, by rw [hcuts]; exact K.skipped⟩
  intro c hc h
  rw [hcuts] at hc
  obtain ⟨k, hk⟩ := K.expressible c hc h
  refine ⟨k, ?_⟩
  rw [← hk]
  exact cutConstraint_congr sense hstates (by rw [hcuts]) howner rfl rfl

theorem pruned (K : n.Kept names sense states fun _ => True) (hshape : n.SameShape n')
    (hpool : n'.cuts.pool = { n.cuts.pool with cuts := n.cuts.pool.cuts.map Cut.pruned }) :
    n'.Kept names sense states fun _ => True := by
  have bare : n'.cuts.pool.cuts.map Cut.bare = n.cuts.pool.cuts.map Cut.bare := by
    rw [hpool, List.map_map]
    exact List.map_congr_left fun c _ => c.bare_pruned
  have was : ∀ c ∈ n'.cuts.pool.cuts, ∃ d ∈ n.cuts.pool.cuts, d.pruned = c := by
    intro c hc
    rw [hpool] at hc
    exact List.mem_map.1 hc
  refine ⟨K.ledger.of_bare_eq (by rw [hpool]) bare,
    K.visits.of_eq (by rw [hpool]; rfl) (by rw [hpool]; rfl), ?_, ?_, ?_⟩
  · intro c hc h
    obtain ⟨d, hd, rfl⟩ := was c hc
    -- a cut that pruning takes out was installed
    have before : d.constraint?.isSome = true ∨ d.removed = true := by
      unfold Cut.pruned at h
      split at h
      next hp => exact .inl hp.2
      next => exact h
    obtain ⟨k, hk⟩ := K.expressible d hd before
    refine ⟨k, ?_⟩
    rw [← hk, hshape.cutConstraint]
    exact cutConstraint_congr sense rfl rfl rfl (congrArg (·.intercept) d.bare_pruned)
      (congrArg (·.coefficients) d.bare_pruned)
  · intro k c _ hc hremoved
    rw [hpool] at hc
    obtain ⟨d, hd, rfl⟩ := Option.map_eq_some_iff.1 ((List.getElem?_map ..).symm.trans hc)
    rw [Cut.count_pruned]
    unfold Cut.pruned at hremoved
    split at hremoved
    next hp => exact hp.1
    next => exact K.restored k d trivial hd hremoved
  · intro himprove c hc
    obtain ⟨d, hd, rfl⟩ := was c hc
    rw [hshape.settings] at himprove
    have before := K.skipped himprove d hd
    unfold Cut.pruned
    split
    next => exact .inr rfl
    next => exact before

end Kept

theorem kept_prune :
    Action.Triple (Kept names sense states fun _ => True) prune
      (fun _ => Kept names sense states fun _ => True) fun _ => False := by
  intro n K
  refine (triple_prune n).consequence (fun _ => id) ?_ (fun _ => id) n rfl
  rintro - n' ⟨hshape, hpool⟩
  exact K.pruned hshape hpool

/-! ### Refining -/

namespace Kept

/-- A cut that can be installed may be put in the place of one that it equals but for that. -/
theorem reinstalled {place : ℕ} {c c' : Cut ℚ} (K : n.Kept names sense states done)
    (hc : n.cuts.pool.cuts[place]? = some c) (hbare : c'.bare = c.bare)
    (hk : ∃ k, n.cutConstraint sense c = .ok k) (hinstalled : c'.constraint?.isSome = true)
    (hremoved : c'.removed = false) (hshape : n.SameShape n')
    (hpool : n'.cuts.pool = { n.cuts.pool with cuts := n.cuts.pool.cuts.set place c' }) :
    n'.Kept names sense states fun k => done k ∨ k = place := by
  -- a cut of the node is the one that was put back or an old one
  have cut_of : ∀ {k : ℕ} {d : Cut ℚ}, n'.cuts.pool.cuts[k]? = some d →
      k = place ∧ d = c' ∨ k ≠ place ∧ n.cuts.pool.cuts[k]? = some d := by
    intro k d hd
    rw [hpool] at hd
    by_cases h : place = k
    · subst h
      refine .inl ⟨rfl, ?_⟩
      exact (Option.some.inj ((List.getElem?_set_self
        (List.getElem?_eq_some_iff.1 hc).1).symm.trans hd)).symm
    · exact .inr ⟨Ne.symm h, (List.getElem?_set_ne h).symm.trans hd⟩
  have mem_cases : ∀ d ∈ n'.cuts.pool.cuts, d = c' ∨ d ∈ n.cuts.pool.cuts := by
    intro d hd
    obtain ⟨k, hk⟩ := List.getElem?_of_mem hd
    rcases cut_of hk with ⟨-, hd⟩ | ⟨-, hd⟩
    · exact .inl hd
    · exact .inr (List.mem_of_getElem? hd)
  have bare : n'.cuts.pool.cuts.map Cut.bare = n.cuts.pool.cuts.map Cut.bare := by
    rw [hpool, List.map_set, hbare]
    apply List.ext_getElem?
    intro k
    by_cases h : place = k
    · subst h
      have hlt := (List.getElem?_eq_some_iff.1 hc).1
      rw [List.getElem?_set_self (by simpa using hlt), List.getElem?_map, hc]
      rfl
    · rw [List.getElem?_set_ne h]
  refine ⟨K.ledger.of_bare_eq (by rw [hpool]) bare,
    K.visits.of_eq (by rw [hpool]; rfl) (by rw [hpool]; rfl), ?_, ?_, ?_⟩
  · intro d hd h
    rw [hshape.cutConstraint]
    rcases mem_cases d hd with rfl | hd
    · obtain ⟨k, hk⟩ := hk
      refine ⟨k, ?_⟩
      rw [← hk]
      exact cutConstraint_congr sense rfl rfl rfl (congrArg (·.intercept) hbare)
        (congrArg (·.coefficients) hbare)
    · exact K.expressible d hd h
  · intro k d hdone hd h
    rcases cut_of hd with ⟨-, rfl⟩ | ⟨hne, hd⟩
    · rw [hremoved] at h
      cases h
    · rcases hdone with hdone | rfl
      · exact K.restored k d hdone hd h
      · exact absurd rfl hne
  · intro himprove d hd
    rw [hshape.settings] at himprove
    rcases mem_cases d hd with rfl | hd
    · exact .inl hinstalled
    · exact K.skipped himprove d hd

end Kept

/-- A cut that was taken out and is the best somewhere is installed again. -/
theorem kept_reinstall (size place : ℕ) :
    Action.Triple
      (fun n => n.Kept names sense states done ∧ n.cuts.pool.cuts.length = size)
      (reinstall sense place)
      (fun _ n => n.Kept names sense states (fun k => done k ∨ k = place) ∧
        n.cuts.pool.cuts.length = size)
      fun _ => False := by
  refine .get_bind ?_
  rintro n ⟨K, hsize⟩
  cases hc : n.cuts.pool.cuts[place]? with
  | none =>
    refine .pure ?_
    rintro _ rfl
    refine ⟨K.extend fun k hk hdone => ?_, hsize⟩
    rcases hdone with hdone | rfl
    · exact hdone
    · exact absurd (List.getElem?_eq_none_iff.1 hc) (by omega)
  | some c =>
    have hmem : c ∈ n.cuts.pool.cuts := List.mem_of_getElem? hc
    refine .ite (fun h => ?_) fun h => ?_
    · obtain ⟨hremoved, hcount⟩ := Bool.and_eq_true_iff.1 h
      obtain ⟨k, hk⟩ := K.expressible c hmem (.inr hremoved)
      refine .bind ((triple_install sense c n).consequence (fun _ => id) (fun _ _ => id) ?_) ?_
      · rintro _ ⟨-, e, he⟩
        rw [hk] at he
        cases he
      · intro c'
        refine .of_cases ?_ ?_
        · rintro _ ⟨⟩ n' ⟨k', -, rfl, rfl⟩ hrun
          have hrun := (triple_onPool_modify _ _).ok rfl hrun
          subst hrun
          refine ⟨K.reinstalled hc ?_ ⟨k, hk⟩ ?_ ?_ ⟨rfl, rfl, rfl, rfl⟩ rfl,
            List.length_set.trans hsize⟩
          all_goals rfl
        · rintro _ e n' ⟨k', -, rfl, rfl⟩ hrun
          exact (triple_onPool_modify _ _).error rfl hrun
    · refine .pure ?_
      rintro _ rfl
      refine ⟨{ K with restored := ?_ }, hsize⟩
      rintro k d (hdone | rfl) hd hremoved
      · exact K.restored k d hdone hd hremoved
      · rw [hc] at hd
        cases hd
        -- a cut that stays taken out is the best nowhere
        have counted := K.ledger.count_eq _ c hc
        have positive : ¬0 < c.count := fun hpos => h (by simp [hremoved, hpos])
        omega

/-- A cut is new to a pool, and it is installed if it can be and if it has to be. -/
structure Fresh (names : List String) (sense : Sense) (n : Node ℚ) (c : Cut ℚ) : Prop where
  count : c.count = 0
  named : ∀ name ∈ c.coefficients.keys, name ∈ names.map Datum.text
  removed : c.removed = false
  expressible : c.constraint?.isSome = true → ∃ k, n.cutConstraint sense c = .ok k
  installed : ¬0 < n.cuts.settings.improvement → c.constraint?.isSome = true

/-- A fresh cut is recorded with its state. -/
theorem kept_record (hn : names.Nodup) {x : State ℚ} (hx : x.Over names) {c : Cut ℚ}
    (K : n.Kept names sense states done) (hc : n.Fresh names sense c) :
    Action.Triple (· = n) (onPool (CutPool.add sense c x x))
      (fun _ n' => n'.Kept names sense (states ++ [x]) fun _ => False) fun _ => False := by
  have offered : Offer.Over names ⟨c, x⟩ := ⟨hc.count, hc.named, fun _ => hx⟩
  have record : Action.Triple (· = n.cuts.pool) (CutPool.add sense c x x)
      (fun _ pool => pool.Ledger names sense (fun _ _ => True) ∧
        pool.frame.cuts = n.cuts.pool.frame.cuts ++ [c.uncounted] ∧
        pool.frame.Visits (states ++ [x])) fun _ => False := by
    refine (CutPool.ledger_add hn offered).consequence ?_ (fun _ _ => id) fun _ => id
    rintro _ rfl
    exact ⟨K.ledger, rfl, K.visits⟩
  refine (triple_onPool record).consequence (fun _ => id) ?_ ?_
  · rintro - _ ⟨pool, rfl, ledger, hcuts, visits⟩
    have hframe : pool.cuts.map Cut.uncounted =
        n.cuts.pool.cuts.map Cut.uncounted ++ [c.uncounted] := hcuts
    -- the cuts are those from before and the new one, but for their counts
    have was : ∀ d ∈ pool.cuts, d.uncounted = c.uncounted ∨
        ∃ d' ∈ n.cuts.pool.cuts, d.uncounted = d'.uncounted := by
      intro d hd
      have := List.mem_map_of_mem (f := Cut.uncounted) hd
      rw [hframe] at this
      rcases List.mem_append.1 this with h | h
      · obtain ⟨d', hd', h⟩ := List.mem_map.1 h
        exact .inr ⟨d', hd', h.symm⟩
      · exact .inl (List.mem_singleton.1 h)
    refine ⟨ledger, visits, ?_, fun _ _ h => h.elim, ?_⟩
    · intro d hd h
      rcases was d hd with he | ⟨d', hd', he⟩
      · rw [show d.constraint? = c.constraint? from congrArg (·.constraint?) he,
          show d.removed = c.removed from congrArg (·.removed) he, hc.removed] at h
        obtain ⟨k, hk⟩ := hc.expressible (h.resolve_right Bool.false_ne_true)
        refine ⟨k, ?_⟩
        rw [← hk]
        exact cutConstraint_congr sense rfl rfl rfl (congrArg (·.intercept) he)
          (congrArg (·.coefficients) he)
      · rw [show d.constraint? = d'.constraint? from congrArg (·.constraint?) he,
          show d.removed = d'.removed from congrArg (·.removed) he] at h
        obtain ⟨k, hk⟩ := K.expressible d' hd' h
        refine ⟨k, ?_⟩
        rw [← hk]
        exact cutConstraint_congr sense rfl rfl rfl (congrArg (·.intercept) he)
          (congrArg (·.coefficients) he)
    · intro himprove d hd
      rcases was d hd with he | ⟨d', hd', he⟩
      · rw [show d.constraint? = c.constraint? from congrArg (·.constraint?) he]
        exact .inl (hc.installed himprove)
      · rw [show d.constraint? = d'.constraint? from congrArg (·.constraint?) he,
          show d.removed = d'.removed from congrArg (·.removed) he]
        exact K.skipped himprove d' hd'
  · rintro _ ⟨pool, -, h⟩
    exact h

/-- After a fresh cut was recorded, all cuts that were taken out and are the best somewhere are
installed again. -/
theorem kept_restore (hn : names.Nodup) {x : State ℚ} (hx : x.Over names) {c : Cut ℚ}
    (K : n.Kept names sense states done) (hc : n.Fresh names sense c) :
    Action.Triple (· = n)
      (do
        onPool (CutPool.add sense c x x)
        (List.range (← get).cuts.pool.cuts.length).forM (reinstall sense))
      (fun _ n' => n'.Kept names sense (states ++ [x]) fun _ => True) fun _ => False := by
  refine .bind (kept_record hn hx K hc) fun _ => .get_bind ?_
  intro n' K'
  -- up to the position that is next, cuts that are the best somewhere are installed
  let I : ℕ → Node ℚ → Prop := fun k m => m.Kept names sense (states ++ [x]) (· < k) ∧
    m.cuts.pool.cuts.length = n'.cuts.pool.cuts.length
  refine (Action.Triple.forM_range (I := I) fun k _ => ?_).consequence ?_ ?_ fun _ => id
  · refine (kept_reinstall n'.cuts.pool.cuts.length k).consequence (fun _ => id) ?_ fun _ => id
    rintro - m ⟨hm, hlength⟩
    exact ⟨hm.extend fun j _ hj => by omega, hlength⟩
  · rintro _ rfl
    exact ⟨K'.extend fun j _ hj => by omega, rfl⟩
  · rintro - m ⟨hm, hlength⟩
    exact hm.extend fun j hj _ => by omega

/-- A new cut is recorded, also if it is not worth installing; if it cannot be installed nothing
changes. -/
theorem kept_addCut (hn : names.Nodup) {x : State ℚ} (hx : x.Over names) {c : Cut ℚ}
    (hcount : c.count = 0) (hremoved : c.removed = false) (hnone : c.constraint? = none)
    (hover : ∀ name ∈ c.coefficients.keys, name ∈ names.map Datum.text) (height : ℚ) :
    Action.Triple (Kept names sense states fun _ => True) (addCut sense x x c height)
      (fun _ => Kept names sense (states ++ [x]) fun _ => True)
      (Kept names sense states fun _ => True) := by
  refine .get_bind ?_
  intro n K
  -- a cut that is no improvement is recorded all the same
  by_cases himprove : n.isImprovement height = true
  · rw [if_pos himprove]
    refine .bind ((triple_install sense c n).consequence (fun _ => id) (fun _ _ => id) ?_) ?_
    · rintro _ ⟨rfl, -⟩
      exact K
    · refine fun _ => .of_forall ?_
      rintro _ ⟨k, hk, rfl, rfl⟩
      have K' : (n.withSubproblem (n.stage.subproblem.pushConstraint k)).Kept names sense states
          fun _ => True := K.of_cuts_eq rfl rfl rfl
      have fresh : (n.withSubproblem (n.stage.subproblem.pushConstraint k)).Fresh names sense
          { c with constraint? := some n.stage.subproblem.constraints.length } :=
        ⟨hcount, hover, hremoved, fun _ => ⟨k, hk⟩, fun _ => rfl⟩
      exact (kept_restore hn hx K' fresh).consequence (fun _ => id) (fun _ _ => id)
        fun _ h => h.elim
  · rw [if_neg himprove, pure_bind]
    refine (kept_restore hn hx K ⟨hcount, hover, hremoved, ?_, ?_⟩).consequence (fun _ => id)
      (fun _ _ => id) fun _ h => h.elim
    · rw [hnone]
      rintro ⟨⟩
    · intro hzero
      refine absurd ?_ himprove
      unfold isImprovement
      split
      · rw [if_neg]
        simp [hzero]
      · rfl

/-- A refinement records one cut at its state; one that fails changes nothing. -/
theorem kept_refine (hn : names.Nodup) (measure : Measure ℚ) {x : State ℚ} (hx : x.Over names)
    (duals : List (State ℚ)) (probabilities objectives : List ℚ) :
    Action.Triple (Kept names sense states fun _ => True)
      (refine sense measure x duals probabilities objectives)
      (fun _ => Kept names sense (states ++ [x]) fun _ => True)
      (Kept names sense states fun _ => True) := by
  refine .ofExcept_bind (fun q _ => ?_) fun _ => id
  refine .ofExcept_bind (fun rows _ => ?_) fun _ => id
  refine .ofExcept_bind (fun point hpoint => ?_) fun _ => id
  rw [readState_eq] at hpoint
  cases hpoint
  refine .ofExcept_bind (fun cut hcut => ?_) fun _ => id
  obtain ⟨c, height⟩ := cut
  obtain ⟨-, -, -, rfl⟩ := averageCut_eq_ok hcut
  refine kept_addCut hn hx rfl rfl rfl ?_ height
  intro name hname
  have keys := keys_zip x (length_weightedSum x.size q rows)
  have distinct : (⟨x.keys.zip (weightedSum x.size q rows)⟩ : Dict Name ℚ).Distinct := by
    have pairwise : ((x.keys.zip (weightedSum x.size q rows)).map (·.1)).Pairwise
        fun a b => (a == b) = false := by
      rw [keys]
      exact List.pairwise_map.2 (hx.distinct hn)
    exact List.pairwise_map.1 pairwise
  rw [Dict.ofList_of_distinct distinct] at hname
  exact hx.mem_iff.1 (keys ▸ hname)

/-! ### Runs of refinements and prunings -/

/-- The nodes that calls of refine and prune lead to, with the states of the refinements that
succeeded. Between the calls the node may change in all but its cuts and its states: it may be
solved. -/
inductive Reached (names : List String) (sense : Sense) (start : Node ℚ) :
    List (State ℚ) → Node ℚ → Prop
  | start : Reached names sense start [] start
  | refined {states : List (State ℚ)} {n n' : Node ℚ} {measure : Measure ℚ} {x : State ℚ}
      {duals : List (State ℚ)} {probabilities objectives : List ℚ}
      (before : Reached names sense start states n) (named : x.Over names)
      (run : refine sense measure x duals probabilities objectives n = .ok () n') :
      Reached names sense start (states ++ [x]) n'
  | refused {states : List (State ℚ)} {n n' : Node ℚ} {measure : Measure ℚ} {x : State ℚ}
      {duals : List (State ℚ)} {probabilities objectives : List ℚ} {cause : Failure ℚ}
      (before : Reached names sense start states n) (named : x.Over names)
      (run : refine sense measure x duals probabilities objectives n = .error cause n') :
      Reached names sense start states n'
  | pruned {states : List (State ℚ)} {n n' : Node ℚ} {removed : ℕ}
      (before : Reached names sense start states n) (run : prune n = .ok removed n') :
      Reached names sense start states n'
  | between {states : List (State ℚ)} {n n' : Node ℚ}
      (before : Reached names sense start states n) (cuts : n'.cuts = n.cuts)
      (same : n'.stage.states = n.stage.states)
      (owner : n'.stage.subproblem.owner = n.stage.subproblem.owner) :
      Reached names sense start states n'

/-- Solving a node is no call of refine or prune. -/
theorem Reached.of_solve {solver : Solver ℚ} {sense' : Sense} {start : Node ℚ} {x : State ℚ}
    {noise : Datum ℚ} {needsDuals : Bool} {answer : Solution ℚ}
    (h : Reached names sense start states n)
    (hrun : solve solver sense' x noise needsDuals n = .ok answer n') :
    Reached names sense start states n' := by
  have declared : n'.declaration = n.declaration :=
    ((declaration_solve solver sense' x noise needsDuals).ok rfl hrun).1
  exact .between h ((cuts_solve solver sense' x noise needsDuals).ok rfl hrun).1
    (congrArg (·.stage.states) declared) (congrArg (·.stage.subproblem.owner) declared)

theorem Reached.kept (hn : names.Nodup) {start : Node ℚ} (h0 : start.cuts.pool = CutPool.empty)
    (h : Reached names sense start states n) : n.Kept names sense states fun _ => True := by
  induction h with
  | start =>
    refine ⟨by rw [h0]; exact CutPool.ledger_empty names sense _,
      by rw [h0]; exact CutPool.visits_empty, ?_, ?_, ?_⟩
    · rw [h0]
      rintro c ⟨⟩
    · rw [h0]
      rintro k c - ⟨⟩
    · rw [h0]
      rintro - c ⟨⟩
  | refined before named run ih => exact (kept_refine hn _ named _ _ _).ok ih run
  | refused before named run ih => exact (kept_refine hn _ named _ _ _).error ih run
  | pruned before run ih => exact kept_prune.ok ih run
  | between before cuts same owner ih => exact ih.of_cuts_eq cuts same owner

/-! ### Estimates after pruning -/

/-- The cut that is recorded as the best one at a state is installed. -/
def BestInstalled (n : Node ℚ) (x : State ℚ) : Prop :=
  ∀ v ∈ n.cuts.pool.visited, v.state.entries.Perm x.entries →
    ∀ c, n.cuts.pool.cuts[v.bestCut]? = some c → c.constraint?.isSome = true

/-- What a pruned node estimates. -/
theorem estimate_pruned_atMost_iff {t : EReal} {x : Name → ℝ}
    (hsettings : n'.cuts.settings = n.cuts.settings)
    (hpool : n'.cuts.pool = { n.cuts.pool with cuts := n.cuts.pool.cuts.map Cut.pruned }) :
    sense.AtMost (n'.cuts.estimate sense x) t ↔
      sense.AtMost (n.cuts.settings.estimate sense) t ∧
        ∀ c ∈ n.cuts.pool.cuts, c.constraint?.isSome = true → c.count ≠ 0 →
          sense.AtMost ((c.value x : ℝ) : EReal) t := by
  rw [CutModel.estimate_atMost_iff, hsettings, hpool]
  simp only [List.forall_mem_map, Cut.isInstalled_pruned, Cut.value_pruned, and_imp]

namespace Kept

/-- At every state that was refined and has entries, the cut that is recorded as the best one is as
good as all others, and it is counted. -/
theorem exists_best (hn : names.Nodup) (K : n.Kept names sense states fun _ => True) {x : State ℚ}
    (hx : x ∈ states) (hne : x.isEmpty = false) :
    ∃ v ∈ n.cuts.pool.visited, v.state.entries.Perm x.entries ∧
      ∃ best, n.cuts.pool.cuts[v.bestCut]? = some best ∧ best.count ≠ 0 ∧
        ∀ c ∈ n.cuts.pool.cuts, sense.AtMost (c.value x.profile) (best.value x.profile) := by
  obtain ⟨y, hy, hperm⟩ := K.visits.visited x hx hne
  obtain ⟨v, hv, rfl⟩ := List.mem_map.1 hy
  obtain ⟨best, hk, hheight⟩ := K.ledger.best v hv
  have profile : v.state.profile = x.profile :=
    State.profile_eq_of_perm ((K.ledger.state_over v hv).distinct hn) hperm
  have value : ∀ c ∈ n.cuts.pool.cuts, ∃ h : ℚ, c.height v.state = .ok h ∧
      (h : ℝ) = c.value x.profile := by
    intro c hc
    rw [← profile]
    exact Cut.exists_height_of_over (K.ledger.cut_over c hc) (K.ledger.state_over v hv)
  obtain ⟨h, hh, hvalue⟩ := value best (List.mem_of_getElem? hk)
  rw [hheight] at hh
  cases hh
  refine ⟨v, hv, hperm, best, hk, ?_, fun c hc => ?_⟩
  · rw [K.ledger.count_eq _ best hk]
    have : 0 < n.cuts.pool.visited.countP fun w => w.bestCut == v.bestCut :=
      List.countP_pos_iff.2 ⟨v, hv, beq_self_eq_true _⟩
    omega
  · obtain ⟨k, hck⟩ := List.getElem?_of_mem hc
    obtain ⟨l, hl⟩ := List.getElem?_of_mem hv
    obtain ⟨hc', hch, hcvalue⟩ := value c hc
    have settled := K.ledger.settled k l c v hc' trivial hck hl hch
    rw [← hcvalue, ← hvalue]
    cases sense with
    | min => exact Rat.cast_le.2 settled
    | max => exact Rat.cast_le.2 settled

/-- At a visited state whose best cut is installed, that cut stays and is as good as all others. -/
theorem estimate_eq_of_bestInstalled (hn : names.Nodup)
    (K : n.Kept names sense states fun _ => True) (hshape : n.SameShape n')
    (hpool : n'.cuts.pool = { n.cuts.pool with cuts := n.cuts.pool.cuts.map Cut.pruned })
    {x : State ℚ} (hx : x ∈ states) (hne : x.isEmpty = false) (hbest : n.BestInstalled x) :
    n'.cuts.estimate sense x.profile = n.cuts.estimate sense x.profile := by
  obtain ⟨v, hv, hperm, best, hk, counted, ordered⟩ := K.exists_best hn hx hne
  refine Sense.AtMost.antisymm ((estimate_pruned_atMost_iff hshape.settings hpool).2 ?_)
    (CutModel.estimate_atMost_iff.2 ?_)
  · obtain ⟨hbound, hcuts⟩ := CutModel.estimate_atMost_iff.1
      (Sense.AtMost.refl sense (n.cuts.estimate sense x.profile))
    exact ⟨hbound, fun c hc hi _ => hcuts c hc hi⟩
  · obtain ⟨hbound, hcuts⟩ := (estimate_pruned_atMost_iff hshape.settings hpool).1
      (Sense.AtMost.refl sense (n'.cuts.estimate sense x.profile))
    refine ⟨hbound, fun c hc _ => ?_⟩
    have coerced : sense.AtMost ((c.value x.profile : ℝ) : EReal)
        ((best.value x.profile : ℝ) : EReal) := by
      have := ordered c hc
      cases sense with
      | min => exact EReal.coe_le_coe_iff.2 this
      | max => exact EReal.coe_le_coe_iff.2 this
    exact coerced.trans (hcuts best (List.mem_of_getElem? hk) (hbest v hv hperm best hk) counted)

/-- Without a tolerance the best cut at every visited state is installed. -/
theorem bestInstalled (K : n.Kept names sense states fun _ => True)
    (himprove : ¬0 < n.cuts.settings.improvement) (x : State ℚ) : n.BestInstalled x := by
  intro v hv _ c hc
  rcases K.skipped himprove c (List.mem_of_getElem? hc) with h | h
  · exact h
  · have zero := K.restored _ c trivial hc h
    rw [K.ledger.count_eq _ c hc] at zero
    have : 0 < n.cuts.pool.visited.countP fun w => w.bestCut == v.bestCut :=
      List.countP_pos_iff.2 ⟨v, hv, beq_self_eq_true _⟩
    omega

/-- Over no names no state is visited, and no cut is counted. -/
theorem count_eq_zero (K : n.Kept [] sense states fun _ => True) {c : Cut ℚ}
    (hc : c ∈ n.cuts.pool.cuts) : c.count = 0 := by
  have none : n.cuts.pool.visited = [] := by
    rw [List.eq_nil_iff_forall_not_mem]
    intro v hv
    have hover : v.state.keys = [] := (K.ledger.state_over v hv).eq_nil
    have hempty := (K.visits.given v.state (List.mem_map_of_mem hv)).2
    rw [Dict.isEmpty, List.map_eq_nil_iff.1 hover] at hempty
    cases hempty
  obtain ⟨k, hk⟩ := List.getElem?_of_mem hc
  rw [K.ledger.count_eq k c hk, none]
  rfl

end Kept

/-- Pruning succeeds. It keeps the estimate exactly where no cut that is taken out was better than
what is left: so it does at every state that was refined, has entries, and has its best cut
installed, and without a tolerance these are all states with entries. -/
theorem estimate_prune {names : List String} (hn : names.Nodup) {sense : Sense}
    {start n : Node ℚ} {states : List (State ℚ)} (h0 : start.cuts.pool = CutPool.empty)
    (h : Reached names sense start states n) :
    ∃ (removed : ℕ) (n' : Node ℚ), prune n = .ok removed n' ∧
      (∀ x : Name → ℝ, n'.cuts.estimate sense x = n.cuts.estimate sense x ↔
        ∀ c ∈ n.cuts.pool.cuts, c.constraint?.isSome = true → c.count = 0 →
          sense.AtMost ((c.value x : ℝ) : EReal) (n'.cuts.estimate sense x)) ∧
      ∀ x ∈ states, x.isEmpty = false → n.BestInstalled x ∨ ¬0 < n.cuts.settings.improvement →
        n'.cuts.estimate sense x.profile = n.cuts.estimate sense x.profile := by
  have K := h.kept hn h0
  obtain ⟨removed, n', hrun, hshape, hpool⟩ := (triple_prune n).exists_ok rfl
  have left := @estimate_pruned_atMost_iff sense n n'
  refine ⟨removed, n', hrun, fun x => ?_, ?_⟩
  · obtain ⟨hbound, hcuts⟩ := CutModel.estimate_atMost_iff.1
      (Sense.AtMost.refl sense (n.cuts.estimate sense x))
    obtain ⟨hbound', hcuts'⟩ := (left hshape.settings hpool).1
      (Sense.AtMost.refl sense (n'.cuts.estimate sense x))
    constructor
    · intro heq c hc hi _
      rw [heq]
      exact hcuts c hc hi
    · intro hout
      refine Sense.AtMost.antisymm
        ((left hshape.settings hpool).2 ⟨hbound, fun c hc hi _ => hcuts c hc hi⟩)
        (CutModel.estimate_atMost_iff.2 ⟨hbound', fun c hc hi => ?_⟩)
      by_cases hcount : c.count = 0
      · exact hout c hc hi hcount
      · exact hcuts' c hc hi hcount
  · rintro x hx hne (hbest | himprove)
    · exact K.estimate_eq_of_bestInstalled hn hshape hpool hx hne hbest
    · exact K.estimate_eq_of_bestInstalled hn hshape hpool hx hne (K.bestInstalled himprove x)

/-- A node that costs nothing is refined at the state one with a cut of height ten, and solved. With
a tolerance of one, a cut of height nine and a half is then recorded and not installed. A third cut,
of height twelve at the state zero, is better than both at the state one. Pruning takes out the
first, and the estimate is the same at both states. -/
theorem estimate_prune_of_three_refinements :
    ∃ (graph : Graph ℚ) (start n n' : Node ℚ),
      Model.BuiltNode graph ⟨.finite 0, .posInf, 1⟩ ⟨[], carrying 0⟩ (.int 1) start ∧
      Reached ["x"] .min start [⟨[(.text "x", 1)]⟩, ⟨[(.text "x", 1)]⟩, ⟨[(.text "x", 0)]⟩] n ∧
      n.cuts.pool.cuts.map (·.constraint?.isSome) = [true, false, true] ∧ prune n = .ok 1 n' ∧
      ∀ x : State ℚ, x = ⟨[(.text "x", 1)]⟩ ∨ x = ⟨[(.text "x", 0)]⟩ →
        n'.cuts.estimate .min x.profile = n.cuts.estimate .min x.profile := by
  let one : State ℚ := ⟨[(.text "x", 1)]⟩
  let zero : State ℚ := ⟨[(.text "x", 0)]⟩
  have check : (do
      let graph ← Graph.ofEdges (.int 0) [.int 1, .int 2]
        [(.int 0, .int 1, .real 1), (.int 1, .int 2, .real 1)] []
      let stage ← Stage.build (.int 1) 0 (StagePlans.of ⟨[], carrying 0⟩ (.int 1))
      let k ← ofStage ⟨.finite 0, .posInf, 1⟩ (Edge.ofPairs (graph.nodes.getD (.int 1) [])) stage
      let start ← k.observed graph.partition ⟨[]⟩ (.int 1)
      let first ← (refine .min .expectation one [zero] [1] [10]).answer start
      let solved ← (solve carryingSolver .min one .null false).answer first.2
      let second ← (refine .min .expectation one [zero] [1] [19 / 2]).answer solved.2
      let third ← (refine .min .expectation zero [(⟨[(.text "x", 3)]⟩ : State ℚ)] [1] [12]).answer
        second.2
      let pruned ← prune.answer third.2
      if third.2.cuts.pool.cuts.map (·.constraint?.isSome) = [true, false, true] ∧
          (∀ v ∈ third.2.cuts.pool.visited, ∀ c ∈ third.2.cuts.pool.cuts[v.bestCut]?,
            c.constraint?.isSome = true) ∧ pruned.1 = 1 then
        return () else .error .missingKey : Except (Failure ℚ) Unit).toBool = true := by
    decide +kernel
  simp only [Except.toBool_bind, Except.toBool_ite, Action.answer_eq_ok, Prod.exists] at check
  obtain ⟨graph, -, stage, hstage, k, hk, start, hstart, _, n₁, first, _, n₂, solved, _,
      n₃, second, _,
    n, third, removed, n', hprune, hinstalled, hbest, rfl⟩ := check
  have hbuilt : Model.BuiltNode graph ⟨.finite 0, .posInf, 1⟩ ⟨[], carrying 0⟩ (.int 1) start :=
    ⟨0, stage, k, ⟨[]⟩, hstage, hk, hstart⟩
  have named : one.Over ["x"] := .refl _
  have named' : zero.Over ["x"] := .refl _
  have reached : Reached ["x"] .min start [one, one, zero] n :=
    (((Reached.start.refined named first).of_solve solved).refined named second).refined
    named' third
  have installed : ∀ x, n.BestInstalled x := fun x v hv _ c hc => hbest v hv c hc
  obtain ⟨_, _, hrun, -, same⟩ :=
    estimate_prune (List.nodup_singleton _) (Model.blank_of_built hbuilt).1.pool_eq reached
  cases hrun.symm.trans hprune
  refine ⟨graph, start, n, n', hbuilt, reached, hinstalled, hprune, ?_⟩
  rintro x (rfl | rfl)
  · exact same one (by simp) rfl (.inl (installed one))
  · exact same zero (by simp) rfl (.inl (installed zero))

/-- A node that costs nothing is refined with a cut of height ten, and solved. With a tolerance of
one a better cut, of height ten and a half, is then recorded and not installed. Pruning takes out
the first, and the estimate falls from ten to zero at the only state that was ever refined. -/
theorem prune_lowers_estimate :
    ∃ (graph : Graph ℚ) (start n₁ n₂ n n' : Node ℚ) (answer : Solution ℚ) (x : State ℚ),
      Model.BuiltNode graph ⟨.finite 0, .posInf, 1⟩ ⟨[], carrying 0⟩ (.int 1) start ∧
      x.isEmpty = false ∧
      refine .min .expectation x [(⟨[(.text "x", 0)]⟩ : State ℚ)] [1] [10] start = .ok () n₁ ∧
      solve carryingSolver .min x .null false n₁ = .ok answer n₂ ∧ answer.objective = 10 ∧
      refine .min .expectation x [(⟨[(.text "x", 0)]⟩ : State ℚ)] [1] [21 / 2] n₂ = .ok () n ∧
      Reached ["x"] .min start [x, x] n ∧ prune n = .ok 1 n' ∧
      ((10 : ℝ) : EReal) ≤ n.cuts.estimate .min x.profile ∧
      n'.cuts.estimate .min x.profile = ((0 : ℝ) : EReal) := by
  let one : State ℚ := ⟨[(.text "x", 1)]⟩
  let zero : State ℚ := ⟨[(.text "x", 0)]⟩
  have check : (do
      let graph ← Graph.ofEdges (.int 0) [.int 1, .int 2]
        [(.int 0, .int 1, .real 1), (.int 1, .int 2, .real 1)] []
      let stage ← Stage.build (.int 1) 0 (StagePlans.of ⟨[], carrying 0⟩ (.int 1))
      let k ← ofStage ⟨.finite 0, .posInf, 1⟩ (Edge.ofPairs (graph.nodes.getD (.int 1) [])) stage
      let start ← k.observed graph.partition ⟨[]⟩ (.int 1)
      let first ← (refine .min .expectation one [zero] [1] [10]).answer start
      let solved ← (solve carryingSolver .min one .null false).answer first.2
      let second ← (refine .min .expectation one [zero] [1] [21 / 2]).answer solved.2
      let pruned ← prune.answer second.2
      let c ← second.2.cuts.pool.cuts.head?.elim (.error .missingKey) .ok
      if solved.1.objective = 10 ∧ c.intercept = 10 ∧ (∀ e ∈ c.coefficients.entries, e.2 = 0) ∧
          c.constraint?.isSome = true ∧
          (∀ d ∈ pruned.2.cuts.pool.cuts, ¬d.constraint?.isSome = true) ∧
          pruned.2.cuts.settings.lower = .finite 0 ∧ pruned.1 = 1 then
        return () else .error .missingKey : Except (Failure ℚ) Unit).toBool = true := by
    decide +kernel
  simp only [Except.toBool_bind, Except.toBool_ite, Except.elim_eq_ok, Action.answer_eq_ok,
    Prod.exists] at check
  obtain ⟨graph, -, stage, hstage, k, hk, start, hstart, _, n₁, first, answer, n₂, solved,
      _, n, second,
    removed, n', hprune, c, hc, hobjective, hintercept, hflat, hinstalled, hnone, hlower, rfl⟩ :=
      check
  have named : one.Over ["x"] := .refl _
  have reached : Reached ["x"] .min start [one, one] n :=
    ((Reached.start.refined named first).of_solve solved).refined named second
  refine ⟨graph, start, n₁, n₂, n, n', answer, one, ⟨0, stage, k, ⟨[]⟩, hstage, hk, hstart⟩,
    rfl, first,
    solved, hobjective, second, reached, hprune, ?_, ?_⟩
  · -- the first cut is installed until the node is pruned
    have below := (CutModel.estimate_atMost_iff.1
      (Sense.AtMost.refl .min (n.cuts.estimate .min one.profile))).2 c
      (List.mem_of_mem_head? hc) hinstalled
    rw [Cut.value_of_flat hflat, hintercept] at below
    exact_mod_cast below
  · rw [CutModel.estimate_eq_bound hnone, CutSettings.estimate, hlower]
    simp [Extended.toEReal]

/-! ### Nodes without states -/

/-- Pruning a node without states takes out all of its cuts, although only cuts that are best at no
visited state should go: the only state of the node has no entries, and a refinement overlooks
it. -/
theorem estimate_prune_of_stateless {sense : Sense} {start n : Node ℚ} {states : List (State ℚ)}
    (h0 : start.cuts.pool = CutPool.empty) (h : Reached [] sense start states n) :
    ∃ (removed : ℕ) (n' : Node ℚ), prune n = .ok removed n' ∧
      ∀ x : Name → ℝ, n'.cuts.estimate sense x = n.cuts.settings.estimate sense := by
  have K := h.kept List.nodup_nil h0
  obtain ⟨removed, n', hrun, hshape, hpool⟩ := (triple_prune n).exists_ok rfl
  refine ⟨removed, n', hrun, fun x => ?_⟩
  rw [← hshape.settings]
  refine CutModel.estimate_eq_bound (fun c hc hi => ?_) x
  rw [hpool] at hc
  obtain ⟨d, hd, rfl⟩ := List.mem_map.1 hc
  exact (d.isInstalled_pruned.1 hi).2 (K.count_eq_zero hd)

end Node

end Multistage
