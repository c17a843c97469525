import Mathlib.Data.List.Perm.Subperm
import Multistage.Proofs.Graph.Children
import Multistage.Proofs.Linear.Certified
import Multistage.Proofs.Sampling.Drawing

/-!
# Random walks

A random walk takes two draws for every node that it visits, one for the edge and one for the noise
term. It goes along edges of positive probability, and it can be told from its path, the next draw
and its two limits why it ended there.

## Main definitions

- `Model.edgesAfter`: the edges on which a path goes on.
- `Model.Follows`, `Model.Possible`: visits of positive probability, one after the other.
- `Model.Walks`: a path that draws lead along, and the draws that are left.
- `Model.Sampled`: a scenario that a random walk may find, with the reason for its end.

## Main statements

- `Model.walkFrom_ends`: how a walk ends from where it has come to.
- `Scheme.sample_randomWalk`: what the scheme of random walks finds, and when it ends.
-/

namespace Multistage

variable {α : Type} [Scalar α]

namespace Model

/-- The edges on which a path goes on: those of its last node, or those of the root. -/
def edgesAfter (m : Model α) (path : List (Visit α)) : List (Edge α) :=
  match path.getLast? with
  | none => m.rootChildren
  | some visit => ((m.nodes.get? visit.node).map (·.children)).getD []

/-- After a path an edge of positive probability leads to the node of the visit, and the noise that
is met there is a term of positive probability of the node. -/
def Follows (m : Model α) (path : List (Visit α)) (visit : Visit α) : Prop :=
  (∃ e ∈ m.edgesAfter path, e.child = visit.node ∧ 0 < e.probability) ∧
    ∃ n, m.nodes.get? visit.node = some n ∧ ∃ t ∈ n.stage.noise, t.term = visit.noise ∧
      0 < t.probability

/-- Every visit of the path follows those before it. -/
def Possible (m : Model α) (path : List (Visit α)) : Prop :=
  ∀ before visit after, path = before ++ visit :: after → m.Follows before visit

/-- The draws lead along the path, an edge and a noise term by turns, and some are left. -/
inductive Walks (m : Model α) (draws : Draws α) : List (Visit α) → Draws α → Prop
  | start : Walks m draws [] draws
  | visit {path : List (Visit α)} {u v : α} {left : Draws α} {e : Edge α} {n : Node α}
    {t : NoiseTerm α}
      (before : Walks m draws path (u :: v :: left))
      (edges : validWeights (Edge.weights (m.edgesAfter path)) = true)
      (edge : Edge.drawn (m.edgesAfter path) u = some e) (node : m.nodes.get? e.child = some n)
      (terms : validWeights n.noiseWeights = true) (noise : n.drawnNoise v = some t) :
      Walks m draws (path ++ [⟨e.child, t.term⟩]) left

/-- The draws lead along the path, which respects both limits: it is not longer than the depth if
that is positive, and it does not come back to a node if it stops on cycles. -/
structure Within (m : Model α) (depth : ℤ) (stopsOnCycle : Bool) (draws : Draws α)
    (path : List (Visit α)) (left : Draws α) : Prop where
  walks : m.Walks draws path left
  length_le : 0 < depth → path.length ≤ depth
  fresh : stopsOnCycle = true → path.Pairwise fun v w => (v.node == w.node) = false

/-- The walk has not come to its depth. -/
structure Underway (m : Model α) (depth : ℤ) (stopsOnCycle : Bool) (draws : Draws α)
    (path : List (Visit α)) (left : Draws α) :
    Prop extends m.Within depth stopsOnCycle draws path left where
  length_lt : 0 < depth → path.length < depth

/-- The next draw leads to an edge on which the path comes back to one of its nodes. -/
def ComesBack (m : Model α) (path : List (Visit α)) (left : Draws α) : Prop :=
  ∃ u ∈ left.head?, ∃ e ∈ Edge.drawn (m.edgesAfter path) u, path.any (·.node == e.child) = true

/-- What a random walk finds: its path respects the limits, it was cut short iff a limit ended it,
and otherwise it ended where there are no edges or the next draw stopped it. -/
structure Sampled (m : Model α) (depth : ℤ) (stopsOnCycle : Bool) (draws : Draws α) (s : Scenario α)
    (left : Draws α) : Prop extends m.Within depth stopsOnCycle draws s.path left where
  cutShort_iff : s.cutShort = true ↔
    m.edgesAfter s.path ≠ [] ∧ 0 < depth ∧ s.path.length = depth ∨
      stopsOnCycle = true ∧ m.ComesBack s.path left
  ends : s.cutShort = false →
    m.edgesAfter s.path = [] ∨ ∃ u ∈ left.head?, Edge.drawn (m.edgesAfter s.path) u = none

/-- All weights of the model can be drawn from. -/
structure Drawable (m : Model α) : Prop where
  root : m.rootChildren ≠ [] → validWeights (Edge.weights m.rootChildren) = true
  node : ∀ e ∈ m.nodes.entries,
  (e.2.children ≠ [] → validWeights (Edge.weights e.2.children) = true) ∧
    validWeights e.2.noiseWeights = true

variable {m : Model α} {depth : ℤ} {stopsOnCycle : Bool} {draws left : Draws α}
  {path : List (Visit α)}

theorem edgesAfter_append (visit : Visit α) {n : Node α} (hn : m.nodes.get? visit.node = some n) :
    m.edgesAfter (path ++ [visit]) = n.children := by
  rw [edgesAfter, List.getLast?_concat]
  simp only [hn, Option.map_some, Option.getD_some]

theorem possible_nil : m.Possible [] := by
  intro before visit after h
  simp at h

theorem Possible.append {visit : Visit α} (h : m.Possible path) (hvisit : m.Follows path visit) :
    m.Possible (path ++ [visit]) := by
  intro before other after heq
  rcases List.eq_nil_or_concat after with rfl | ⟨more, last, rfl⟩
  · obtain ⟨rfl, hother⟩ := List.append_inj' heq rfl
    cases hother
    exact hvisit
  · rw [List.concat_eq_append, ← List.cons_append, ← List.append_assoc] at heq
    exact h before other more (List.append_inj' heq rfl).1

namespace Walks

theorem length_eq (h : m.Walks draws path left) : draws.length = 2 * path.length + left.length := by
  induction h with
  | start => simp
  | visit _ _ _ _ _ _ ih =>
    rw [ih, List.length_append, List.length_cons, List.length_cons, List.length_singleton]
    omega

theorem suffix (h : m.Walks draws path left) : left <:+ draws := by
  induction h with
  | start => exact List.suffix_rfl
  | @visit _ u v _ _ _ _ _ _ _ _ _ _ ih => exact .trans ⟨[u, v], rfl⟩ ih

/-- If all draws are decisive the path is possible. -/
theorem possible (h : m.Walks draws path left)
    (hdraws : ∀ u ∈ draws, Decisive u) : m.Possible path := by
  induction h with
  | start => exact possible_nil
  | @visit path u v left e n t before edges edge node terms noise ih =>
    have hsub := before.suffix.subset
    obtain ⟨hmem, hpos⟩ := Edge.pos_of_drawn (hdraws u (hsub List.mem_cons_self)) edges edge
    obtain ⟨t', ht, hnoise, htpos⟩ :=
      Node.exists_drawnNoise (hdraws v (hsub (List.mem_cons_of_mem _ List.mem_cons_self))) terms
    cases noise.symm.trans hnoise
    exact ih.append ⟨⟨e, hmem, rfl, hpos⟩, n, node, t, ht, rfl, htpos⟩

theorem exists_node (h : m.Walks draws path left) :
    ∀ visit ∈ path, ∃ n, m.nodes.get? visit.node = some n := by
  induction h with
  | start => exact fun _ hvisit => nomatch hvisit
  | visit _ _ _ node _ _ ih =>
    intro visit hvisit
    rcases List.mem_append.1 hvisit with hvisit | hvisit
    · exact ih visit hvisit
    · cases List.mem_singleton.1 hvisit
      exact ⟨_, node⟩

/-- A walk without repetitions is no longer than there are nodes. -/
theorem length_le (h : m.Walks draws path left)
    (hfresh : path.Pairwise fun v w => (v.node == w.node) = false) : path.length ≤
    m.nodes.size := by
  have nodup : (path.map fun v => v.node.identity).Nodup := by
    refine List.pairwise_map.2 (hfresh.imp fun {v w} hvw heq => ?_)
    rw [Datum.beq_iff_identity_eq.2 heq] at hvw
    cases hvw
  have inside : (path.map fun v => v.node.identity) ⊆ m.nodes.entries.map fun e =>
      e.1.identity := by
    intro i hi
    obtain ⟨visit, hvisit, rfl⟩ := List.mem_map.1 hi
    obtain ⟨n, hn⟩ := h.exists_node visit hvisit
    obtain ⟨e, he, hkey, -⟩ := Dict.exists_mem_of_get? hn
    exact List.mem_map.2 ⟨e, he, Datum.beq_iff_identity_eq.1 hkey⟩
  simpa [Dict.size] using (nodup.subperm inside).length_le

end Walks

variable {graph : Graph α} {settings : CutSettings α} {sense : Datum α} {plans : StagePlans α}

section

variable (hg : graph.Grown) (hm : build graph settings sense plans = .ok m)

include hg hm

/-- The edges on which a path goes on lead to nodes. -/
theorem exists_node_of_edgesAfter : ∀ e ∈ m.edgesAfter path, ∃ n, m.node e.child = .ok n := by
  intro e he
  unfold edgesAfter at he
  split at he
  · exact exists_node_of_rootChild hg hm e he
  next visit _ =>
    cases hn : m.nodes.get? visit.node with
    | none =>
      rw [hn] at he
      cases he
    | some n =>
      rw [hn] at he
      exact (child_of_build hg hm hn e he).2

/-- A walk follows the edges of the graph, from the root on. -/
theorem Walks.along (h : m.Walks draws path left) :
    (∀ visit ∈ path.head?, graph.Leads graph.root visit.node) ∧
      path.IsChain fun v w => graph.Leads v.node w.node := by
  induction h with
  | start => exact ⟨fun _ hvisit => (nomatch hvisit), .nil⟩
  | @visit path u v left e n t before edges edge node terms noise ih =>
    rcases List.eq_nil_or_concat path with rfl | ⟨init, last, rfl⟩
    · refine ⟨fun visit hvisit => ?_, .singleton _⟩
      cases hvisit
      have hmem : e ∈ m.rootChildren := List.mem_of_getElem? edge
      rw [(nodes_of_build hm).2.2.2.2.2] at hmem
      obtain ⟨c, hc, rfl⟩ := List.mem_map.1 hmem
      exact (hg.leads_child c hc).1
    · rw [List.concat_eq_append] at *
      obtain ⟨k, hk⟩ := before.exists_node last (by simp)
      rw [edgesAfter_append last hk] at edge
      refine ⟨fun visit hvisit => ih.1 visit ?_, List.isChain_append.2 ⟨ih.2, .singleton _, ?_⟩⟩
      · rwa [List.head?_append_of_ne_nil _ (by simp)] at hvisit
      · intro v hv w hw
        rw [List.getLast?_concat] at hv
        cases hv
        cases hw
        exact (child_of_build hg hm hk e (List.mem_of_getElem? edge)).1

/-- On an acyclic graph no walk comes back. -/
theorem Walks.fresh (h : m.Walks draws path left) (hacyclic : graph.Acyclic) :
    path.Pairwise fun v w => (v.node == w.node) = false := by
  have later : path.Pairwise fun v w => Relation.TransGen graph.Leads v.node w.node := by
    have : IsTrans (Visit α) fun v w => Relation.TransGen graph.Leads v.node w.node :=
      ⟨fun _ _ _ => .trans⟩
    exact List.isChain_iff_pairwise.1 ((h.along hg hm).2.imp fun _ _ => .single)
  refine later.imp fun {v w} hvw => Bool.eq_false_iff.2 fun heq => ?_
  obtain ⟨b, hvb, hbw⟩ := Relation.TransGen.tail'_iff.1 hvw
  exact hacyclic v.node (.tail' hvb (hbw.congr BEq.rfl (BEq.symm heq)))

end

/-! ### The end of a walk -/

theorem Drawable.edgesAfter (h : m.Drawable) (hedges : m.edgesAfter path ≠ []) :
    validWeights (Edge.weights (m.edgesAfter path)) = true := by
  unfold Model.edgesAfter at hedges ⊢
  split at hedges
  · exact h.root hedges
  next visit _ =>
    cases hn : m.nodes.get? visit.node with
    | none =>
      rw [hn] at hedges
      exact absurd rfl hedges
    | some n =>
      rw [hn] at hedges
      obtain ⟨entry, hentry, -, rfl⟩ := Dict.exists_mem_of_get? hn
      exact (h.node entry hentry).1 hedges

theorem not_comesBack_of_stop (h : m.edgesAfter path = [] ∨
    ∃ u ∈ left.head?, Edge.drawn (m.edgesAfter path) u = none) : ¬m.ComesBack path left := by
  rintro ⟨u, hu, e, he, -⟩
  rcases h with hnone | ⟨u', hu', hnone⟩
  · rw [hnone] at he
    exact List.not_mem_nil (List.mem_of_getElem? he)
  · cases Option.mem_unique hu hu'
    rw [hnone] at he
    cases he

/-- A walk ends where there are no edges. -/
theorem Within.sampled (h : m.Within depth stopsOnCycle draws path left)
    (hedges : m.edgesAfter path = []) :
    m.Sampled depth stopsOnCycle draws ⟨path, false⟩ left := by
  refine ⟨h, ⟨fun hcut => (nomatch hcut), ?_⟩, fun _ => .inl hedges⟩
  rintro (⟨hsome, -⟩ | ⟨-, hback⟩)
  · exact absurd hedges hsome
  · exact absurd hback (not_comesBack_of_stop (.inl hedges))

/-- A walk ends where it is stopped. -/
theorem Underway.sampled (h : m.Underway depth stopsOnCycle draws path left)
    (hstop : ∃ u ∈ left.head?, Edge.drawn (m.edgesAfter path) u = none) :
    m.Sampled depth stopsOnCycle draws ⟨path, false⟩ left := by
  refine ⟨h.toWithin, ⟨fun hcut => (nomatch hcut), ?_⟩, fun _ => .inr hstop⟩
  rintro (⟨-, hdepth, hlength⟩ | ⟨-, hback⟩)
  · exact absurd hlength (h.length_lt hdepth).ne
  · exact absurd hback (not_comesBack_of_stop (.inr hstop))

/-- A walk is cut short by a limit. -/
theorem Within.sampled_cut (h : m.Within depth stopsOnCycle draws path left)
    (hcut : m.edgesAfter path ≠ [] ∧ 0 < depth ∧ path.length = depth ∨
      stopsOnCycle = true ∧ m.ComesBack path left) :
    m.Sampled depth stopsOnCycle draws ⟨path, true⟩ left :=
  ⟨h, ⟨fun _ => hcut, fun _ => rfl⟩, fun hcut => (nomatch hcut)⟩

/-- How a walk ends: it finds a scenario, it meets weights that cannot be drawn from, it is under
way when the draws are used up, or a draw is not decisive. -/
def WalkEnds (m : Model α) (depth : ℤ) (stopsOnCycle : Bool) (draws : Draws α) :
    EStateM.Result (Failure α) (Draws α) (Scenario α) → Prop
  | .ok s _ => ∃ left, m.Sampled depth stopsOnCycle draws s left
  | .error .invalidWeights _ => ¬m.Drawable
  | .error .drawsExhausted _ =>
    ∃ path left, m.Underway depth stopsOnCycle draws path left ∧ left.length ≤ 1
  | .error .indexOutOfRange _ => ∃ u ∈ draws, ¬Decisive u
  | .error _ _ => False

/-- One more visit. -/
theorem Underway.visit {u v : α} {e : Edge α} {t : NoiseTerm α}
    (h : m.Underway depth stopsOnCycle draws path (u :: v :: left))
    (hwalks : m.Walks draws (path ++ [⟨e.child, t.term⟩]) left)
    (hfresh : stopsOnCycle = true → path.any (·.node == e.child) = false) :
    m.Within depth stopsOnCycle draws (path ++ [⟨e.child, t.term⟩]) left := by
  refine ⟨hwalks, fun hdepth => ?_, fun hstops => ?_⟩
  · have := h.length_lt hdepth
    rw [List.length_append, List.length_singleton]
    omega
  · refine List.pairwise_append.2 ⟨h.fresh hstops, List.pairwise_singleton _ _, fun w hw x hx => ?_⟩
    cases List.mem_singleton.1 hx
    exact Bool.eq_false_iff.2 (List.any_eq_false.1 (hfresh hstops) w hw)

/-- Go on with the walk from a node that was entered, unless it has no children or the walk has come
to its depth. -/
def goOn (m : Model α) (depth : ℤ) (stopsOnCycle : Bool) (steps : ℕ) (n : Node α)
    (path : List (Visit α)) :
    Action α (Draws α) (Scenario α) := do
  if n.children.isEmpty then return ⟨path, false⟩
  if 0 < depth && depth ≤ path.length then return ⟨path, true⟩
  walkFrom m depth stopsOnCycle steps n.children path

/-- Meet the noise of a node that is entered, and go on with the walk. -/
def enter (m : Model α) (depth : ℤ) (stopsOnCycle : Bool) (steps : ℕ) (path : List (Visit α))
    (index : Datum α) (n : Node α) : Action α (Draws α) (Scenario α) := do
  let noise ← chooseNoise n
  m.goOn depth stopsOnCycle steps n (path ++ [⟨index, noise⟩])

theorem walkFrom_succ (steps : ℕ) (edges : List (Edge α)) :
    walkFrom m depth stopsOnCycle (steps + 1) edges path =
      if edges.isEmpty then pure ⟨path, false⟩ else
        chooseEdge edges >>= fun choice => match choice with
          | none => pure ⟨path, false⟩
          | some index =>
            if stopsOnCycle && path.any (·.node == index) then pure ⟨path, true⟩ else
              Action.ofExcept (m.node index) >>= m.enter depth stopsOnCycle steps path index := rfl

/-- From a node that was entered the walk goes on until it ends, if it does so as long as it is
under way. -/
theorem Within.goOn_ends {steps : ℕ} {n : Node α} (h : m.Within depth stopsOnCycle draws path left)
    (hchildren : m.edgesAfter path = n.children)
    (hrest : m.Underway depth stopsOnCycle draws path left → m.WalkEnds depth stopsOnCycle draws
      (walkFrom m depth stopsOnCycle steps (m.edgesAfter path) path left)) :
    m.WalkEnds depth stopsOnCycle draws (m.goOn depth stopsOnCycle steps n path left) := by
  unfold goOn
  by_cases hleaf : n.children.isEmpty = true
  · rw [if_pos hleaf]
    exact ⟨left, h.sampled (hchildren.trans (List.isEmpty_iff.1 hleaf))⟩
  rw [if_neg hleaf]
  by_cases hdepth : 0 < depth ∧ depth ≤ path.length
  · rw [if_pos (by simpa using hdepth)]
    have reached := (h.length_le hdepth.1).antisymm hdepth.2
    refine ⟨left, h.sampled_cut (.inl ⟨?_, hdepth.1, reached⟩)⟩
    rw [hchildren]
    exact mt List.isEmpty_iff.2 hleaf
  · rw [if_neg (by simpa using hdepth), ← hchildren]
    exact hrest ⟨h, fun hpos => not_le.1 fun hle => hdepth ⟨hpos, hle⟩⟩

/-- After a node is entered the walk goes on until it ends, if it does so after further visits. -/
theorem Underway.enter_ends {steps : ℕ} {u : α} {e : Edge α} {n : Node α}
    (h : m.Underway depth stopsOnCycle draws path (u :: left))
    (hedges : validWeights (Edge.weights (m.edgesAfter path)) = true)
    (hedge : Edge.drawn (m.edgesAfter path) u = some e) (hn : m.nodes.get? e.child = some n)
    (hfresh : stopsOnCycle = true → path.any (·.node == e.child) = false)
    (hrest : ∀ {path left'},
      m.Underway depth stopsOnCycle draws path left' → left'.length ≤ left.length →
      m.WalkEnds depth stopsOnCycle draws
        (walkFrom m depth stopsOnCycle steps (m.edgesAfter path) path left')) :
    m.WalkEnds depth stopsOnCycle draws (m.enter depth stopsOnCycle steps path e.child n left) := by
  have choice := chooseNoise_eq n left
  cases hterms : validWeights n.noiseWeights with
  | false =>
    rw [hterms] at choice
    rw [enter, Action.bind_eq_error.2 (.inl choice)]
    intro hdrawable
    obtain ⟨entry, hentry, -, rfl⟩ := Dict.exists_mem_of_get? hn
    rw [(hdrawable.node entry hentry).2] at hterms
    cases hterms
  | true =>
    rw [hterms, if_pos rfl] at choice
    cases left with
    | nil =>
      rw [enter, Action.bind_eq_error.2 (.inl choice)]
      exact ⟨path, [u], h, le_rfl⟩
    | cons v rest =>
      cases hdrawn : n.drawnNoise v with
      | none =>
        simp only [hdrawn] at choice
        rw [enter, Action.bind_eq_error.2 (.inl choice)]
        refine ⟨v, h.walks.suffix.subset (List.mem_cons_of_mem _ List.mem_cons_self), fun hv => ?_⟩
        obtain ⟨t, -, hsome, -⟩ := Node.exists_drawnNoise hv hterms
        cases hdrawn.symm.trans hsome
      | some t =>
        simp only [hdrawn] at choice
        rw [enter, Action.bind_of_ok choice]
        have within := h.visit (.visit h.walks hedges hedge hn hterms hdrawn) hfresh
        exact within.goOn_ends (edgesAfter_append _ hn) fun underway =>
          hrest underway (Nat.le_succ _)

section

variable (hg : graph.Grown) (hm : build graph settings sense plans = .ok m)

include hg hm

/-- From where it has come to, a walk goes on until it ends. -/
theorem walkFrom_ends {steps : ℕ} (h : m.Underway depth stopsOnCycle draws path left)
    (hsteps : left.length < steps) :
    m.WalkEnds depth stopsOnCycle draws
      (walkFrom m depth stopsOnCycle steps (m.edgesAfter path) path left) := by
  induction steps generalizing path left with
  | zero => exact absurd hsteps (Nat.not_lt_zero _)
  | succ steps ih =>
    rw [walkFrom_succ]
    by_cases hedges : m.edgesAfter path = []
    · rw [if_pos (List.isEmpty_iff.2 hedges)]
      exact ⟨left, h.toWithin.sampled hedges⟩
    rw [if_neg (mt List.isEmpty_iff.1 hedges)]
    have choice := chooseEdge_eq (m.edgesAfter path) left
    cases hvalid : validWeights (Edge.weights (m.edgesAfter path)) with
    | false =>
      rw [hvalid] at choice
      rw [Action.bind_eq_error.2 (.inl choice)]
      intro hdrawable
      rw [hdrawable.edgesAfter hedges] at hvalid
      cases hvalid
    | true =>
      rw [hvalid, if_pos rfl] at choice
      cases left with
      | nil =>
        rw [Action.bind_eq_error.2 (.inl choice)]
        exact ⟨path, [], h, Nat.zero_le _⟩
      | cons u left =>
        rw [Action.bind_of_ok choice]
        cases hedge : Edge.drawn (m.edgesAfter path) u with
        | none => exact ⟨u :: left, h.sampled ⟨u, rfl, hedge⟩⟩
        | some e =>
          simp only [Option.map_some]
          cases hback : stopsOnCycle && path.any (·.node == e.child) with
          | true =>
            obtain ⟨hstops, hback⟩ := Bool.and_eq_true_iff.1 hback
            exact ⟨u :: left, h.sampled_cut (.inr ⟨hstops, u, rfl, e, hedge, hback⟩)⟩
          | false =>
            obtain ⟨n, hn⟩ := exists_node_of_edgesAfter hg hm e (List.mem_of_getElem? hedge)
            rw [if_neg Bool.false_ne_true, Action.bind_of_ok (Action.ofExcept_eq_ok.2 ⟨hn, rfl⟩)]
            refine h.enter_ends hvalid hedge (node_eq_ok.1 hn).2 (fun hstops => ?_) fun hpath hle =>
              ih hpath (hle.trans_lt (Nat.lt_of_succ_lt_succ hsteps))
            rwa [hstops] at hback

/-- With a limit, or without cycles, walks have a bound. -/
theorem Underway.length_le_bound (h : m.Underway depth stopsOnCycle draws path left)
    (hlimit : 0 < depth ∨ stopsOnCycle = true ∨ graph.Acyclic) :
    path.length ≤ max depth.toNat m.nodes.size := by
  rcases hlimit with hdepth | hstops | hacyclic
  · have := h.length_lt hdepth
    exact le_max_of_le_left (by omega)
  · exact le_max_of_le_right (h.walks.length_le (h.fresh hstops))
  · exact le_max_of_le_right (h.walks.length_le (h.walks.fresh hg hm hacyclic))

end

end Model

/-- The scheme of random walks finds what a walk finds. -/
theorem Scheme.sample_randomWalk_eq (m : Model α) (depth : ℤ) (stopsOnCycle : Datum α)
    (draws : Draws α) :
    (randomWalk depth stopsOnCycle).sample m draws =
      match walk m depth stopsOnCycle.truth draws with
      | .ok s rest => .ok (s, randomWalk depth stopsOnCycle) rest
      | .error e rest => .error e rest := by
  show EStateM.bind (walk m depth stopsOnCycle.truth) _ draws = _
  rw [EStateM.bind]
  cases walk m depth stopsOnCycle.truth draws with
  | ok s rest => rfl
  | error e rest => rfl

/-- What the scheme of random walks finds, whatever the draws are. It fails only when it runs out of
draws or meets weights that cannot be drawn from: every node on the way is found. With a limit, or
on an acyclic graph, it ends within a number of draws that depends on the model and the limits
alone. -/
theorem Scheme.sample_randomWalk {graph : Graph α} {settings : CutSettings α} {sense : Datum α}
    {plans : StagePlans α} {m : Model α} (hg : graph.Grown)
    (hm : Model.build graph settings sense plans = .ok m) (depth : ℤ) (stopsOnCycle : Datum α) :
    (∀ draws : Draws α, (∀ u ∈ draws, Decisive u) →
      match (randomWalk depth stopsOnCycle).sample m draws with
      | .ok (s, _) _ => m.Possible s.path ∧ ∃ left, m.Sampled depth stopsOnCycle.truth draws s left
      | .error e _ => e = .drawsExhausted ∨ e = .invalidWeights ∧ ¬m.Drawable) ∧
    (0 < depth ∨ stopsOnCycle.truth = true ∨ graph.Acyclic → ∃ bound : ℕ, ∀ draws : Draws α,
      (∀ u ∈ draws, Decisive u) → bound ≤ draws.length →
        (∃ answer rest, (randomWalk depth stopsOnCycle).sample m draws = .ok answer rest) ∨
        ∃ rest, (randomWalk depth stopsOnCycle).sample m draws = .error .invalidWeights rest ∧
          ¬m.Drawable) := by
  have ends : ∀ draws : Draws α,
      m.WalkEnds depth stopsOnCycle.truth draws (walk m depth stopsOnCycle.truth draws) := by
    intro draws
    have begun : m.Underway depth stopsOnCycle.truth draws [] draws :=
      ⟨⟨.start, fun hdepth => hdepth.le, fun _ => .nil⟩, fun hdepth => hdepth⟩
    exact Model.walkFrom_ends hg hm begun (Nat.lt_succ_self _)
  have decided : ∀ {draws : Draws α}, (∀ u ∈ draws, Decisive u) → ¬∃ u ∈ draws, ¬Decisive u :=
    fun hdraws ⟨u, hu, hnot⟩ => hnot (hdraws u hu)
  refine ⟨fun draws hdraws => ?_, fun hlimit => ⟨2 * max depth.toNat m.nodes.size + 2,
    fun draws hdraws hbound => ?_⟩⟩
  · have ended := ends draws
    rw [sample_randomWalk_eq]
    unfold Model.WalkEnds at ended
    split at ended
    next heq =>
      obtain ⟨left, finds⟩ := ended
      rw [heq]
      exact ⟨finds.walks.possible hdraws, left, finds⟩
    next heq => rw [heq]; exact .inr ⟨rfl, ended⟩
    next heq => rw [heq]; exact .inl rfl
    next => exact absurd ended (decided hdraws)
    next => exact ended.elim
  · have ended := ends draws
    rw [sample_randomWalk_eq]
    unfold Model.WalkEnds at ended
    split at ended
    next heq => rw [heq]; exact .inl ⟨_, _, rfl⟩
    next heq => rw [heq]; exact .inr ⟨_, rfl, ended⟩
    next =>
      obtain ⟨path, left, underway, hleft⟩ := ended
      have := underway.length_le_bound hg hm hlimit
      have := underway.walks.length_eq
      omega
    next => exact absurd ended (decided hdraws)
    next => exact ended.elim

/-- A walk on two nodes that lead to each other, which stops on cycles: it goes to both of them, and
is cut short when it is about to come back to the first. -/
theorem Scheme.sample_of_cycle :
    ∃ (graph : Graph ℚ) (m : Model ℚ) (s : Scenario ℚ) (scheme : Scheme ℚ) (rest left : Draws ℚ),
      Graph.ofEdges (.int 0) [.int 1, .int 2]
        [(.int 0, .int 1, .real 1), (.int 1, .int 2, .real 1), (.int 2, .int 1, .real (1 / 2))] [] =
        .ok graph ∧
      Model.build graph ⟨.finite 0, .posInf, 0⟩ (.text "min") ⟨[], carrying 10⟩ = .ok m ∧
      (∀ u ∈ ([0, 0, 0, 0, 0] : Draws ℚ), Decisive u) ∧
      (randomWalk 0 (.bool true)).sample m [0, 0, 0, 0, 0] = .ok (s, scheme) rest ∧
      s.path.length = 2 ∧ s.cutShort = true ∧
      m.Possible s.path ∧ m.Sampled 0 true [0, 0, 0, 0, 0] s left ∧ m.ComesBack s.path left := by
  have check : (do
      let graph ← Graph.ofEdges (.int 0) [.int 1, .int 2]
        [(.int 0, .int 1, .real 1), (.int 1, .int 2, .real 1), (.int 2, .int 1, .real (1 / 2))] []
      let m ← Model.build graph ⟨.finite 0, .posInf, 0⟩ (.text "min") ⟨[], carrying 10⟩
      let found ← ((randomWalk 0 (.bool true)).sample m).answer [0, 0, 0, 0, 0]
      if found.1.1.path.length = 2 ∧
          found.1.1.cutShort = true then return () else .error .missingKey
      : Except (Failure ℚ) Unit).toBool = true := by
    decide +kernel
  simp only [Except.toBool_bind, Except.toBool_ite, Action.answer_eq_ok] at check
  obtain ⟨graph, hgraph, m, hm, ⟨⟨s, scheme⟩, rest⟩, answered, h⟩ := check
  have decisive : ∀ u ∈ ([0, 0, 0, 0, 0] : Draws ℚ), Decisive u := fun u hu =>
    decisive_of_nonneg (show u = 0 by simpa using hu).ge
  have finds := (sample_randomWalk (Graph.Grown.ofEdges hgraph) hm 0 (.bool true)).1 _ decisive
  rw [answered] at finds
  obtain ⟨possible, left, finds⟩ := finds
  rcases finds.cutShort_iff.1 h.2 with ⟨-, hdepth, -⟩ | ⟨-, hback⟩
  · exact absurd hdepth (lt_irrefl 0)
  · exact ⟨graph, m, s, scheme, rest, left, hgraph, hm, decisive, answered, h.1, h.2, possible,
      finds, hback⟩

end Multistage
