import Mathlib.Data.List.Infix
import Multistage.Proofs.Belief.Update

/-!
# Filtering

If a single block covers all nodes, then an observation is a noise term alone, and an update divides
by the probability of just what was seen. Beliefs that are updated along a sequence of noise terms
are then those of the forward recursion, which never divides: the masses `F` of the nodes go over to

  `F' i = Ω i noise * ∑ j, F j * Φ j i`

and the belief in a node is at any time its mass, divided by the mass of all nodes. The updates fail
at the first noise term that leaves no mass.

## Main definitions

- `Edge.Single`: a node has no parallel edges.
- `Model.forwardMass`: the forward recursion.
- `BeliefUpdater.updateAll`: the updates along a sequence of noise terms.
- `Filtered`: a belief is the masses of the nodes, divided by their sum.

## Main statements

- `Filtered.update_eq`, `Filtered.posterior`: what one update does.
- `Filtered.updateAll`: what a sequence of updates does.
- `BeliefUpdater.updateAll_filters`: which sequences are answered, and how.
-/

namespace Multistage

/-! ### Single edges -/

/-- No two edges lead to the same child. -/
def Edge.Single (edges : List (Edge ℚ)) : Prop :=
    edges.Pairwise fun e f => (e.child == f.child) = false

instance (edges : List (Edge ℚ)) : Decidable (Edge.Single edges) :=
  inferInstanceAs (Decidable (List.Pairwise _ _))

theorem Edge.Single.countTo_le {edges : List (Edge ℚ)} (h : Single edges) (c : Datum ℚ) :
    countTo edges c ≤ 1 := by
  have led : ∀ e ∈ leadingTo edges c, (e.child == c) = true := fun e he => (List.mem_filter.1 he).2
  have single : Single (leadingTo edges c) := h.sublist List.filter_sublist
  unfold countTo
  match hl : leadingTo edges c with
  | [] => exact Nat.zero_le 1
  | [_] => exact le_rfl
  | e :: f :: rest =>
    rw [hl] at led single
    have same := BEq.trans (led e (by simp)) (BEq.symm (led f (by simp)))
    rw [(List.pairwise_cons.1 single).1 f (by simp)] at same
    cases same

/-! ### The forward recursion -/

namespace Model

variable (m : Model ℚ)

/-- The probability to move from one node to another along any of the edges. -/
def totalEdge (j i : Datum ℚ) : ℚ :=
  ((m.nodes.get? j).map fun n => Edge.totalTo n.children i).getD 0

/-- The mass of all nodes. -/
def mass (F : Datum ℚ → ℚ) : ℚ := (m.nodes.keys.map F).sum

/-- The mass of a node after the next noise term was seen. -/
def forwardStep (F : Datum ℚ → ℚ) (noise i : Datum ℚ) : ℚ :=
  NoiseTerm.massOf noise (m.noiseOf i) * m.mass fun j => F j * m.totalEdge j i

/-- The masses of the nodes after a sequence of noise terms was seen. -/
def forwardMass (F : Datum ℚ → ℚ) (seen : List (Datum ℚ)) : Datum ℚ → ℚ :=
  seen.foldl m.forwardStep F

variable {m} {F : Datum ℚ → ℚ} {noise : Datum ℚ}

theorem mass_div (a : ℚ) : (m.mass fun i => F i / a) = m.mass F / a := by
  simp only [mass, div_eq_mul_inv, List.sum_map_mul_right]

theorem totalEdge_eq_lastEdge (hsingle : ∀ e ∈ m.nodes.entries, Edge.Single e.2.children)
    (j i : Datum ℚ) : m.totalEdge j i = m.lastEdge j i := by
  unfold totalEdge lastEdge
  cases hn : m.nodes.get? j with
  | none => rfl
  | some n =>
    obtain ⟨e, he, -, rfl⟩ := Dict.exists_mem_of_get? hn
    exact Edge.totalTo_eq_lastTo ((hsingle e he).countTo_le i)

theorem totalEdge_congr_left {j j' : Datum ℚ} (h : (j == j') = true) (i : Datum ℚ) :
    m.totalEdge j i = m.totalEdge j' i := by
  rw [totalEdge, totalEdge, Dict.get?_congr h]

theorem totalEdge_congr_right {i i' : Datum ℚ} (h : (i == i') = true) (j : Datum ℚ) :
    m.totalEdge j i = m.totalEdge j i' := by
  unfold totalEdge
  simp only [Edge.totalTo_congr h]

theorem forwardStep_congr {i i' : Datum ℚ} (h : (i == i') = true) :
    m.forwardStep F noise i = m.forwardStep F noise i' := by
  unfold forwardStep
  simp only [totalEdge_congr_right h, m.noiseOf_congr h]

end Model

/-- The updates of a belief along a sequence of noise terms that are seen in one block. -/
def BeliefUpdater.updateAll (u : BeliefUpdater ℚ) (belief : Belief ℚ) (observed : Datum ℚ)
    (seen : List (Datum ℚ)) : Except (Failure ℚ) (Belief ℚ) :=
  seen.foldlM (u.update · observed ·) belief

/-- What a noise term that cannot be seen is refused with: it is impossible, unless it cannot be a
key at all. -/
def BeliefUpdater.refusal (observed noise : Datum ℚ) : Failure ℚ :=
  if noise.isKey then .impossibleObservation noise observed else .wrongKind

/-! ### Beliefs and masses -/

/-- A belief over the nodes of a model is their masses, divided by the mass of all. -/
structure Filtered (m : Model ℚ) (F : Datum ℚ → ℚ) (belief : Belief ℚ) : Prop where
  distinct : belief.Distinct
  covers : ∀ c, belief.keys.contains c = m.nodes.keys.contains c
  alike : ∀ i i', (i == i') = true → F i = F i'
  nonneg : ∀ i, 0 ≤ F i
  mass_pos : 0 < m.mass F
  divided : ∀ e ∈ belief.entries, e.2 = F e.1 / m.mass F

namespace Filtered

/-- A distribution over the nodes is its own masses. -/
theorem of_distribution {m : Model ℚ} (hd : m.nodes.Distinct) {belief : Belief ℚ}
    (hdistinct : belief.Distinct) (hover : ∀ c, belief.keys.contains c = m.nodes.keys.contains c)
    (hbelief : ∀ e ∈ belief.entries, 0 ≤ e.2) (hsum : belief.values.sum = 1) :
    Filtered m (belief.getD · 0) belief := by
  have alike : ∀ i i', (i == i') = true → belief.getD i 0 = belief.getD i' 0 := fun i i' h => by
    rw [Dict.getD, Dict.getD, Dict.get?_congr h]
  have mass : m.mass (belief.getD · 0) = 1 := by
    rw [Model.mass, ← sum_map_eq_of_contains_eq alike (Dict.distinct_iff_keys.1 hdistinct)
      (Dict.distinct_iff_keys.1 hd) hover, ← Dict.sum_entries hdistinct 0 fun _ p => p]
    exact hsum
  refine ⟨hdistinct, hover, alike, fun i => ?_, mass ▸ one_pos, fun e he => ?_⟩
  · rw [Dict.getD]
    cases h : belief.get? i with
    | none => exact le_rfl
    | some p =>
      obtain ⟨e, he, -, rfl⟩ := Dict.exists_mem_of_get? h
      exact hbelief e he
  · rw [mass, div_one, Dict.getD, (Dict.get?_eq_some_iff hdistinct).2 ⟨e, he, BEq.rfl, rfl⟩]
    rfl

theorem entries_ne_nil {m : Model ℚ} {F : Datum ℚ → ℚ} {belief : Belief ℚ}
    (h : Filtered m F belief) : belief.entries ≠ [] := by
  intro hnil
  have none : m.nodes.keys = [] := by
    refine List.eq_nil_iff_forall_not_mem.2 fun k hk => ?_
    have held : m.nodes.keys.contains k = true := List.elem_eq_true_of_mem hk
    rw [← h.covers, Dict.keys, hnil] at held
    cases held
  refine h.mass_pos.ne' ?_
  rw [Model.mass, none]
  rfl

section Step

variable {graph : Graph ℚ} {cuts : CutSettings ℚ} {sense : Datum ℚ} {plans : StagePlans ℚ}
  {m : Model ℚ} (hg : graph.Grown) (hm : Model.build graph cuts sense plans = .ok m)
  (hsingle : ∀ e ∈ m.nodes.entries, Edge.Single e.2.children)
  (hnoise : ∀ e ∈ m.nodes.entries, ∀ t ∈ e.2.stage.noise, 0 ≤ t.probability)
  {block : List (Datum ℚ)} {u : BeliefUpdater ℚ} (hu : m.updater [block] = .ok u)
  (hcover : ∀ c, block.contains c = m.nodes.keys.contains c)
  {observed : Datum ℚ} (hblock : Datum.itemAt [block] observed = .ok block)
  {F : Datum ℚ → ℚ} {belief : Belief ℚ} (h : Filtered m F belief)

include hg hm hsingle h

/-- The joint probability of a node is its next mass, divided by the mass that there is. -/
theorem jointMass_eq (noise i : Datum ℚ) :
    m.jointMass belief noise i = m.forwardStep F noise i / m.mass F := by
  have hd := Model.distinct_of_build hg hm
  have arrival : (belief.entries.map fun e => e.2 * m.lastEdge e.1 i).sum =
      (m.mass fun j => F j * m.totalEdge j i) / m.mass F :=
    calc (belief.entries.map fun e => e.2 * m.lastEdge e.1 i).sum
      _ = (belief.keys.map fun j => F j * m.totalEdge j i / m.mass F).sum := by
        rw [Dict.keys, List.map_map]
        refine congrArg List.sum (List.map_congr_left fun e he => ?_)
        rw [h.divided e he, ← Model.totalEdge_eq_lastEdge hsingle, div_mul_eq_mul_div]
        rfl
      _ = (m.nodes.keys.map fun j => F j * m.totalEdge j i / m.mass F).sum := by
        refine sum_map_eq_of_contains_eq (fun a b hab => ?_) (Dict.distinct_iff_keys.1 h.distinct)
          (Dict.distinct_iff_keys.1 hd) h.covers
        rw [h.alike a b hab, Model.totalEdge_congr_left hab]
      _ = (m.mass fun j => F j * m.totalEdge j i) / m.mass F := Model.mass_div _
  rw [Model.jointMass, Model.forwardStep, arrival, mul_div_assoc]

theorem seenMass_eq (noise : Datum ℚ) :
    m.seenMass belief noise = m.mass (m.forwardStep F noise) / m.mass F := by
  rw [Model.seenMass, funext (h.jointMass_eq hg hm hsingle noise)]
  exact Model.mass_div _

include hnoise in
theorem forwardStep_nonneg (noise i : Datum ℚ) : 0 ≤ m.forwardStep F noise i := by
  have hbelief : ∀ e ∈ belief.entries, 0 ≤ e.2 := fun e he =>
    h.divided e he ▸ div_nonneg (h.nonneg e.1) h.mass_pos.le
  have joint : 0 ≤ m.jointMass belief noise i :=
    Model.jointMass_nonneg (Model.edges_nonneg hm).1 hnoise hbelief i
  rw [h.jointMass_eq hg hm hsingle] at joint
  simpa [div_mul_cancel₀ _ h.mass_pos.ne'] using mul_nonneg joint h.mass_pos.le

include hu hblock in
/-- An update is refused iff it leaves no mass. -/
theorem update_eq (noise : Datum ℚ) : u.update belief observed noise =
    if m.mass (m.forwardStep F noise) ≤ 0 then .error (BeliefUpdater.refusal observed noise)
    else .ok (m.posterior block belief noise) := by
  have seen := h.seenMass_eq hg hm hsingle noise
  rw [BeliefUpdater.update_eq (Model.distinct_of_build hg hm) hu hblock h.entries_ne_nil fun i hi =>
    h.covers i ▸ List.elem_eq_true_of_mem hi, BeliefUpdater.refusal]
  cases hkey : noise.isKey with
  | true => simp [seen, div_le_iff₀ h.mass_pos]
  | false =>
    have none : m.seenMass belief noise = 0 :=
      Model.seenMass_of_not_isKey (BeliefUpdater.termsAreKeys_of_updater hu) hkey
    rw [seen, div_eq_zero_iff, or_iff_left h.mass_pos.ne'] at none
    simp [none]

include hnoise hcover in
/-- The posterior is the next masses, divided by the mass of all. -/
theorem posterior {noise : Datum ℚ} (hpos : 0 < m.mass (m.forwardStep F noise)) :
    Filtered m (m.forwardStep F noise) (m.posterior block belief noise) := by
  refine ⟨h.distinct.of_keys_eq Model.keys_posterior, fun c => ?_,
    fun _ _ => Model.forwardStep_congr,
    h.forwardStep_nonneg hg hm hsingle hnoise noise, hpos, fun e he => ?_⟩
  · rw [Model.keys_posterior]
    exact h.covers c
  · obtain ⟨i, hi, rfl⟩ := List.mem_map.1 he
    have covered : block.contains i = true := by
      rw [hcover, ← h.covers]
      exact List.elem_eq_true_of_mem hi
    rw [if_pos covered, h.jointMass_eq hg hm hsingle, h.seenMass_eq hg hm hsingle,
      div_div_div_cancel_right₀ h.mass_pos.ne']

include hnoise hu hcover hblock in
/-- Updates along a sequence of noise terms, each of which leaves some mass. -/
theorem updateAll {seen : List (Datum ℚ)}
    (hrun : ∀ part, part <+: seen → m.mass (m.forwardMass F part) ≠ 0) :
    ∃ posterior, u.updateAll belief observed seen = .ok posterior ∧ posterior.keys = belief.keys ∧
      Filtered m (m.forwardMass F seen) posterior := by
  induction seen generalizing F belief with
  | nil => exact ⟨belief, rfl, rfl, h⟩
  | cons noise rest ih =>
    have mass_nonneg : 0 ≤ m.mass (m.forwardStep F noise) :=
      sum_map_nonneg fun i _ => h.forwardStep_nonneg hg hm hsingle hnoise noise i
    have mass_pos := mass_nonneg.lt_of_ne' (hrun [noise] ⟨rest, rfl⟩)
    have next := h.update_eq hg hm hsingle hu hblock noise
    rw [if_neg mass_pos.not_ge] at next
    obtain ⟨last, hlast, hkeys, hfiltered⟩ := ih (h.posterior hg hm hsingle hnoise hcover mass_pos)
      fun part hpart => hrun (noise :: part) (List.cons_prefix_cons.2 ⟨rfl, hpart⟩)
    refine ⟨last, ?_, hkeys.trans Model.keys_posterior, hfiltered⟩
    rw [BeliefUpdater.updateAll, List.foldlM_cons, next]
    exact hlast

end Step

end Filtered

/-- **Filtering.** For every model that was built without parallel edges and with non-negative
probabilities of noise terms, a partition of one block that covers all nodes, and every distribution
over all nodes: along a sequence of noise terms that leaves some mass at every time, the updates
answer the masses of the nodes in the forward recursion, divided by the mass of all. If a noise term
is the first that leaves no mass, then all updates before it answer, and the update with it is
refused. -/
theorem BeliefUpdater.updateAll_filters {graph : Graph ℚ} {cuts : CutSettings ℚ} {sense : Datum ℚ}
    {plans : StagePlans ℚ} {m : Model ℚ} (hg : graph.Grown)
    (hm : Model.build graph cuts sense plans = .ok m)
    (hsingle : ∀ e ∈ m.nodes.entries, Edge.Single e.2.children)
    (hnoise : ∀ e ∈ m.nodes.entries, ∀ t ∈ e.2.stage.noise, 0 ≤ t.probability)
    {block : List (Datum ℚ)} {u : BeliefUpdater ℚ} (hu : m.updater [block] = .ok u)
    (hcover : ∀ c, block.contains c = m.nodes.keys.contains c)
    {observed : Datum ℚ} (hblock : Datum.itemAt [block] observed = .ok block)
    {belief : Belief ℚ} (hdistinct : belief.Distinct)
    (hover : ∀ c, belief.keys.contains c = m.nodes.keys.contains c)
    (hbelief : ∀ e ∈ belief.entries, 0 ≤ e.2) (hsum : belief.values.sum = 1)
    (seen : List (Datum ℚ)) :
    ((∀ part, part <+: seen → m.mass (m.forwardMass (belief.getD · 0) part) ≠ 0) →
      ∃ posterior, u.updateAll belief observed seen = .ok posterior ∧ posterior.keys = belief.keys ∧
        ∀ e ∈ posterior.entries, e.2 =
          m.forwardMass (belief.getD · 0) seen e.1 / m.mass
            (m.forwardMass (belief.getD · 0) seen)) ∧
    (∀ before noise after, seen = before ++ noise :: after →
      (∀ part, part <+: before → m.mass (m.forwardMass (belief.getD · 0) part) ≠ 0) →
      m.mass (m.forwardMass (belief.getD · 0) (before ++ [noise])) = 0 →
      ∃ prior, u.updateAll belief observed before = .ok prior ∧
        u.update prior observed noise = .error (refusal observed noise) ∧
        u.updateAll belief observed seen = .error (refusal observed noise)) := by
  have start : Filtered m (belief.getD · 0) belief :=
    .of_distribution (Model.distinct_of_build hg hm) hdistinct hover hbelief hsum
  constructor
  · intro hrun
    obtain ⟨posterior, hposterior, hkeys, hfiltered⟩ :=
      start.updateAll hg hm hsingle hnoise hu hcover hblock hrun
    exact ⟨posterior, hposterior, hkeys, hfiltered.divided⟩
  · rintro before noise after rfl hrun hzero
    obtain ⟨prior, hprior, -, hfiltered⟩ :=
      start.updateAll hg hm hsingle hnoise hu hcover hblock hrun
    rw [Model.forwardMass, List.foldl_append] at hzero
    have refused : u.update prior observed noise = .error (refusal observed noise) :=
      (hfiltered.update_eq hg hm hsingle hu hblock noise).trans (if_pos hzero.le)
    refine ⟨prior, hprior, refused, ?_⟩
    rw [updateAll, List.foldlM_append]
    show (u.updateAll belief observed before >>= _) = _
    rw [hprior]
    show (u.update prior observed noise >>= _) = _
    rw [refused]
    rfl

/-- The process stays at the first of two nodes or goes on to the second, from which no edge leads.
Only the second emits B, so that after A and B the process is there, and no noise term can
follow. -/
theorem BeliefUpdater.updateAll_of_two_nodes :
    ∃ (graph : Graph ℚ) (m : Model ℚ) (u : BeliefUpdater ℚ) (posterior : Belief ℚ),
      Graph.ofEdges (.int 0) [.int 1, .int 2]
        [(.int 0, .int 1, .real 1), (.int 1, .int 1, .real (1 / 2)),
          (.int 1, .int 2, .real (1 / 2))] [] = .ok graph ∧
      Model.build graph .unbounded (.text "min")
        ⟨[([.int 2], { noise := [([.text "A", .text "B"], none)] })],
          { noise := [([.text "A"], none)] }⟩ = .ok m ∧
      m.updater [[.int 1, .int 2]] = .ok u ∧
      u.updateAll ⟨[(.int 1, 1), (.int 2, 0)]⟩ (.int 0) [.text "A", .text "B"] = .ok posterior ∧
      posterior.values = [0, 1] ∧
      u.updateAll ⟨[(.int 1, 1), (.int 2, 0)]⟩ (.int 0) [.text "A", .text "B", .text "A"] =
        .error (.impossibleObservation (.text "A") (.int 0)) := by
  have check : (do
      let graph ← Graph.ofEdges (.int 0) [.int 1, .int 2]
        [(.int 0, .int 1, .real 1), (.int 1, .int 1, .real (1 / 2)),
          (.int 1, .int 2, .real (1 / 2))] []
      let m ← Model.build graph .unbounded (.text "min")
        ⟨[([.int 2], { noise := [([.text "A", .text "B"], none)] })],
          { noise := [([.text "A"], none)] }⟩
      let _ ← m.updater [[.int 1, .int 2]]
      let start : Belief ℚ := ⟨[(.int 1, 1), (.int 2, 0)]⟩
      let masses := m.forwardMass (start.getD · 0)
      if (∀ e ∈ m.nodes.entries, Edge.Single e.2.children) ∧
        (∀ e ∈ m.nodes.entries, ∀ t ∈ e.2.stage.noise, 0 ≤ t.probability) ∧
        m.nodes.keys.map Datum.identity = [(.int 1 : Datum ℚ), .int 2].map Datum.identity ∧
        (∀ part ∈ [(.text "A" : Datum ℚ), .text "B"].inits, m.mass (masses part) ≠ 0) ∧
        m.mass (masses [.text "A", .text "B", .text "A"]) = 0 ∧
        start.keys.map
          (fun i => masses [.text "A", .text "B"] i / m.mass (masses [.text "A", .text "B"])) =
          [0, 1]
      then return () else .error .missingKey : Except (Failure ℚ) Unit).toBool = true := by
    decide +kernel
  simp only [Except.toBool_bind, Except.toBool_ite] at check
  obtain ⟨graph, hgraph, m, hm, u, hu, hsingle, hnoise, hkeys, hrun, hzero, hvalues⟩ := check
  have hcover : ∀ c, [(.int 1 : Datum ℚ), .int 2].contains c = m.nodes.keys.contains c :=
    Datum.contains_eq_of_identities hkeys.symm
  have hdistinct : Dict.Distinct (⟨[(.int 1, 1), (.int 2, 0)]⟩ : Belief ℚ) :=
    .cons (fun e he => by rw [List.mem_singleton.1 he]; decide +kernel)
      (List.pairwise_singleton _ _)
  have hblock : Datum.itemAt [[(.int 1 : Datum ℚ), .int 2]] (.int 0 : Datum ℚ) =
      .ok [.int 1, .int 2] := rfl
  have filters := updateAll_filters (.ofEdges hgraph) hm hsingle hnoise hu hcover hblock hdistinct
    hcover (by simp) (by simp [Dict.values])
  have hrun' : ∀ part, part <+: [.text "A", .text "B"] →
      m.mass (m.forwardMass ((⟨[(.int 1, 1), (.int 2, 0)]⟩ : Belief ℚ).getD · 0) part) ≠ 0 :=
    fun part hpart => hrun part ((List.mem_inits _ _).2 hpart)
  obtain ⟨posterior, hposterior, hposteriorKeys, hentries⟩ :=
    (filters [.text "A", .text "B"]).1 hrun'
  obtain ⟨-, -, -, hfails⟩ := (filters [.text "A", .text "B", .text "A"]).2
    [.text "A", .text "B"] (.text "A") [] rfl hrun' hzero
  refine ⟨graph, m, u, posterior, hgraph, hm, hu, hposterior, ?_, hfails⟩
  rw [Dict.values, List.map_congr_left hentries, ← hvalues, ← hposteriorKeys, Dict.keys,
    List.map_map]
  rfl

end Multistage
