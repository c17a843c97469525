import Multistage.Proofs.Belief.Posterior
import Multistage.Proofs.Keys

/-!
# Impossible observations

An update of a belief over all nodes of a model fails iff the noise term cannot be seen at any node,
in the observed block or not. If it does not fail, then it answers a belief, which is zero
everywhere iff the noise term cannot be seen in the block. So an observation that is impossible only
because of its block is not refused.

## Main definitions

- `Model.seenMass`, `Model.blockMass`: the probability to see a noise term at some node, or in a
  block.
- `Model.posterior`: the joint probabilities of the nodes of a block, divided by that.

## Main statements

- `BeliefUpdater.update_eq`: an update by cases.
- `BeliefUpdater.update_fails_iff`: when it fails, and when an impossible observation is refused.
-/

namespace Multistage

/-- What cannot be a key is none of the terms that can. -/
theorem NoiseTerm.massOf_of_not_isKey {terms : List (NoiseTerm ℚ)} {noise : Datum ℚ}
    (hterms : terms.all (·.term.isKey) = true) (hnoise : noise.isKey = false) :
    massOf noise terms = 0 := by
  have none : terms.filter (·.term == noise) = [] := by
    refine List.filter_eq_nil_iff.2 fun t ht heq => ?_
    have := List.all_eq_true.1 hterms t ht
    rw [Datum.isKey_congr heq, hnoise] at this
    cases this
  rw [massOf, none]
  rfl

/-! ### The update by cases -/

namespace Model

variable (m : Model ℚ)

/-- The probability, under a belief, to see a noise term at some node. -/
def seenMass (belief : Belief ℚ) (noise : Datum ℚ) : ℚ :=
  (m.nodes.keys.map (m.jointMass belief noise)).sum

/-- The probability, under a belief, to see a noise term at some node of a block. -/
def blockMass (block : List (Datum ℚ)) (belief : Belief ℚ) (noise : Datum ℚ) : ℚ :=
  ((m.nodes.keys.filter block.contains).map (m.jointMass belief noise)).sum

/-- The joint probabilities of the nodes of a block, divided by the probability to see the noise
term at some node; all other nodes have none. -/
def posterior (block : List (Datum ℚ)) (belief : Belief ℚ) (noise : Datum ℚ) : Belief ℚ :=
  ⟨belief.keys.map fun i =>
    (i, (if block.contains i then m.jointMass belief noise i else 0) / m.seenMass belief noise)⟩

variable {m} {block : List (Datum ℚ)} {belief : Belief ℚ} {noise : Datum ℚ}

theorem keys_posterior : (m.posterior block belief noise).keys = belief.keys := by
  rw [posterior, Dict.keys, List.map_map]
  exact List.map_id' _

/-- The posterior is zero everywhere iff the noise term cannot be seen at a node of the block. -/
theorem posterior_eq_zero_iff (hover : ∀ c, belief.keys.contains c = m.nodes.keys.contains c)
    (hseen : m.seenMass belief noise ≠ 0) :
    (∀ e ∈ (m.posterior block belief noise).entries, e.2 = 0) ↔
      ∀ i ∈ m.nodes.keys, block.contains i = true → m.jointMass belief noise i = 0 := by
  have alike : ∀ i k, (i == k) = true → (block.contains k = true → m.jointMass belief noise k = 0) →
      block.contains i = true → m.jointMass belief noise i = 0 := by
    intro i k hik hk hblock
    rw [jointMass_congr hik]
    exact hk (contains_congr hik ▸ hblock)
  rw [← forall_mem_iff_of_contains_eq alike hover]
  simp only [posterior, List.forall_mem_map, div_eq_zero_iff, hseen, or_false, ite_eq_right_iff]

/-- A noise term cannot be seen at any node iff it cannot be seen in a block and cannot be seen
outside. -/
theorem seenMass_eq_zero_iff (hnonneg : ∀ i, 0 ≤ m.jointMass belief noise i) :
    m.seenMass belief noise = 0 ↔ m.blockMass block belief noise = 0 ∧
      ∀ i ∈ m.nodes.keys, block.contains i = false → m.jointMass belief noise i = 0 := by
  rw [seenMass, blockMass, sum_map_eq_zero_iff hnonneg, sum_map_eq_zero_iff hnonneg]
  simp only [List.mem_filter, and_imp]
  constructor
  · intro h
    exact ⟨fun i hi _ => h i hi, fun i hi _ => h i hi⟩
  · rintro ⟨inside, outside⟩ i hi
    cases hblock : block.contains i with
    | true => exact inside i hi hblock
    | false => exact outside i hi hblock

theorem seenMass_of_not_isKey (hterms : termsAreKeys m.nodes = true)
    (hnoise : noise.isKey = false) :
    m.seenMass belief noise = 0 := by
  refine List.sum_eq_zero fun x hx => ?_
  obtain ⟨i, -, rfl⟩ := List.mem_map.1 hx
  rw [jointMass, noiseOf]
  cases hn : m.nodes.get? i with
  | none => exact zero_mul _
  | some n =>
    obtain ⟨e, he, -, rfl⟩ := Dict.exists_mem_of_get? hn
    have keys := List.all_eq_true.1 hterms e.2 (List.mem_map_of_mem he)
    rw [Option.map_some, Option.getD_some, NoiseTerm.massOf_of_not_isKey keys hnoise, zero_mul]

end Model

namespace BeliefUpdater

variable {m : Model ℚ} {partition : List (List (Datum ℚ))} {u : BeliefUpdater ℚ}
  {belief : Belief ℚ} {observed noise : Datum ℚ} {block : List (Datum ℚ)}

theorem termsAreKeys_of_updater (hu : m.updater partition = .ok u) :
    termsAreKeys m.nodes = true := by
  unfold Model.updater at hu
  split at hu
  next h => exact (Bool.and_eq_true_iff.1 h).2
  next => cases hu

/-- The likelihood of a node of the model is there. -/
theorem exists_likelihood (hd : m.nodes.Distinct) (hu : m.updater partition = .ok u)
    (block : List (Datum ℚ)) (noise : Datum ℚ) {i : Datum ℚ}
    (hi : m.nodes.keys.contains i = true) : ∃ l, u.likelihood block noise i = .ok l := by
  obtain ⟨-, hemissions, -⟩ := laws_of_updater hd hu
  obtain ⟨k, hk, hik⟩ := List.contains_iff_exists_mem_beq.1 hi
  obtain ⟨n, hn⟩ := Dict.exists_get?_of_mem_keys hk
  unfold likelihood
  rw [hemissions, emissionMap, Dict.get?_mapValues (fun n : Node ℚ => emission n.stage.noise),
    Dict.get?_congr hik, hn]
  split
  · exact ⟨_, rfl⟩
  · exact ⟨_, rfl⟩

/-- **An update by cases.** For a belief over nodes of a model that is not empty, and a block of the
partition: what cannot be a key is refused as a noise term; a noise term that cannot be seen at any
node is an impossible observation; and for all others there is the posterior of the model. -/
theorem update_eq (hd : m.nodes.Distinct) (hu : m.updater partition = .ok u)
    (hblock : Datum.itemAt partition observed = .ok block) (hne : belief.entries ≠ [])
    (hover : ∀ i ∈ belief.keys, m.nodes.keys.contains i = true) (noise : Datum ℚ) :
    u.update belief observed noise =
      if noise.isKey = false then .error .wrongKind
      else if m.seenMass belief noise ≤ 0 then .error (.impossibleObservation noise observed)
      else .ok (m.posterior block belief noise) := by
  obtain ⟨hpartition, hemissions, -⟩ := laws_of_updater hd hu
  have belief_nonempty : belief.isEmpty = false := by
    simpa [Dict.isEmpty] using hne
  have nodes_nonempty : u.emissions.isEmpty = false := by
    obtain ⟨e, rest, he⟩ := List.exists_cons_of_ne_nil hne
    obtain ⟨k, hk, -⟩ := List.contains_iff_exists_mem_beq.1
      (hover e.1 (List.mem_map_of_mem (he ▸ List.mem_cons_self)))
    obtain ⟨f, hf, -⟩ := List.mem_map.1 hk
    rw [hemissions]
    simpa [emissionMap, Dict.isEmpty, Dict.mapValues] using List.ne_nil_of_mem hf
  have entries : (belief.keys.mapM fun i => do
      return (i, (← u.likelihood block noise i) *
        u.arrivalMass belief i / m.seenMass belief noise) :
        Except (Failure ℚ) _) = .ok (m.posterior block belief noise).entries := by
    rw [Except.mapM_eq_ok, Model.posterior, List.forall₂_map_right_iff, List.forall₂_same]
    intro i hi
    obtain ⟨l, hl⟩ := exists_likelihood hd hu block noise (hover i hi)
    rw [hl, ← likelihood_mul_arrivalMass hd hu belief noise hl]
    rfl
  have mass : u.observationMass belief noise = m.seenMass belief noise :=
    observationMass_eq hd hu belief noise
  unfold update
  rw [hpartition, hblock]
  simp only [belief_nonempty, nodes_nonempty, mass]
  cases hkey : noise.isKey with
  | false =>
    rw [Datum.requireKey_of_not_isKey hkey]
    rfl
  | true =>
    rw [Datum.requireKey_of_isKey hkey, if_neg (by decide)]
    show (if m.seenMass belief noise ≤ 0 then _ else (_ >>= _ : Except (Failure ℚ) (Belief ℚ))) = _
    rw [entries]
    rfl

/-- **When an update fails.** For every model that was built and every distribution over all of its
nodes: what can be a key is refused as an impossible observation iff it cannot be seen at any node.
What can be seen at some node has the posterior of the model, which is zero everywhere iff the noise
term cannot be seen at a node of the block. So where noise terms have no negative probabilities, an
observation is refused iff it is impossible and its noise term cannot be seen outside of the block
either. -/
theorem update_fails_iff {graph : Graph ℚ} {cuts : CutSettings ℚ} {sense : Datum ℚ}
    {plans : StagePlans ℚ} (hg : graph.Grown) (hm : Model.build graph cuts sense plans = .ok m)
    (hu : m.updater partition = .ok u) (hblock : Datum.itemAt partition observed = .ok block)
    (hover : ∀ c, belief.keys.contains c = m.nodes.keys.contains c)
    (hbelief : ∀ e ∈ belief.entries, 0 ≤ e.2) (hsum : belief.values.sum = 1) :
    (u.update belief observed noise = .error (.impossibleObservation noise observed) ↔
      noise.isKey = true ∧ m.seenMass belief noise ≤ 0) ∧
    (0 < m.seenMass belief noise →
      u.update belief observed noise = .ok (m.posterior block belief noise) ∧
        ((∀ e ∈ (m.posterior block belief noise).entries, e.2 = 0) ↔
          ∀ i ∈ m.nodes.keys, block.contains i = true → m.jointMass belief noise i = 0)) ∧
    ((∀ e ∈ m.nodes.entries, ∀ t ∈ e.2.stage.noise, 0 ≤ t.probability) → noise.isKey = true →
      (u.update belief observed noise = .error (.impossibleObservation noise observed) ↔
        m.blockMass block belief noise = 0 ∧
          ∀ i ∈ m.nodes.keys, block.contains i = false → m.jointMass belief noise i = 0)) := by
  have hne : belief.entries ≠ [] := by
    intro h
    simp [Dict.values, h] at hsum
  have run := update_eq (Model.distinct_of_build hg hm) hu hblock hne
    (fun i hi => hover i ▸ List.elem_eq_true_of_mem hi) noise
  have fails : u.update belief observed noise = .error (.impossibleObservation noise observed) ↔
      noise.isKey = true ∧ m.seenMass belief noise ≤ 0 := by
    rw [run]
    split
    next hkey => simp [hkey]
    next hkey =>
      split
      next hmass => simp [hkey, hmass]
      next hmass => simp [hmass]
  refine ⟨fails, fun hseen => ⟨?_, Model.posterior_eq_zero_iff hover hseen.ne'⟩,
    fun hnoise hkey => ?_⟩
  · have hkey : noise.isKey ≠ false := fun hkey =>
      hseen.ne' (Model.seenMass_of_not_isKey (termsAreKeys_of_updater hu) hkey)
    rw [run, if_neg hkey, if_neg (not_le.2 hseen)]
  · have nonneg : ∀ i, 0 ≤ m.jointMass belief noise i :=
      Model.jointMass_nonneg (Model.edges_nonneg hm).1 hnoise hbelief
    have seen_nonneg : 0 ≤ m.seenMass belief noise := sum_map_nonneg fun i _ => nonneg i
    rw [fails, ← Model.seenMass_eq_zero_iff nonneg, seen_nonneg.ge_iff_eq']
    exact and_iff_right hkey

/-- The process stays at the first of two nodes, which emit the same noise term: that it is seen at
the second is impossible, but not refused. -/
theorem update_of_impossible_block :
    ∃ (graph : Graph ℚ) (m : Model ℚ) (u : BeliefUpdater ℚ) (posterior : Belief ℚ),
      Graph.ofEdges (.int 0) [.int 1, .int 2] [(.int 0, .int 1, .real 1), (.int 1, .int 1, .real 1)]
        [[.int 1], [.int 2]] = .ok graph ∧
      Model.build graph .unbounded (.text "min") ⟨[], { noise := [([.text "A"], none)] }⟩ = .ok m ∧
      m.updater graph.partition = .ok u ∧
      m.blockMass [.int 2] ⟨[(.int 1, 1), (.int 2, 0)]⟩ (.text "A") = 0 ∧
      u.update ⟨[(.int 1, 1), (.int 2, 0)]⟩ (.int 1) (.text "A") = .ok posterior ∧
      ∀ e ∈ posterior.entries, e.2 = 0 := by
  have check : (do
      let graph ← Graph.ofEdges (.int 0) [.int 1, .int 2]
        [(.int 0, .int 1, .real 1), (.int 1, .int 1, .real 1)] [[.int 1], [.int 2]]
      let m ← Model.build graph .unbounded (.text "min") ⟨[], { noise := [([.text "A"], none)] }⟩
      let _ ← m.updater graph.partition
      let block ← Datum.itemAt graph.partition (.int 1)
      if m.nodes.keys.map Datum.identity = [(.int 1 : Datum ℚ), .int 2].map Datum.identity ∧
        block.map Datum.identity = [(.int 2 : Datum ℚ)].map Datum.identity ∧
        0 < m.seenMass ⟨[(.int 1, 1), (.int 2, 0)]⟩ (.text "A") ∧
        ∀ i ∈ m.nodes.keys, [(.int 2 : Datum ℚ)].contains i = true →
          m.jointMass ⟨[(.int 1, 1), (.int 2, 0)]⟩ (.text "A") i = 0
      then return () else .error .missingKey : Except (Failure ℚ) Unit).toBool = true := by
    decide +kernel
  simp only [Except.toBool_bind, Except.toBool_ite] at check
  obtain ⟨graph, hgraph, m, hm, u, hu, block, hblock, hkeys, hitems, hseen, hzero⟩ := check
  have hover : ∀ c, (⟨[(.int 1, 1), (.int 2, 0)]⟩ : Belief ℚ).keys.contains c =
      m.nodes.keys.contains c := Datum.contains_eq_of_identities hkeys.symm
  obtain ⟨-, hanswer, -⟩ := update_fails_iff (.ofEdges hgraph) hm hu hblock hover (by simp)
    (by simp [Dict.values])
  obtain ⟨hposterior, hall⟩ := hanswer hseen
  refine ⟨graph, m, u, _, hgraph, hm, hu, ?_, hposterior, hall.2 fun i hi hin => hzero i hi ?_⟩
  · refine List.sum_eq_zero fun x hx => ?_
    obtain ⟨i, hi, rfl⟩ := List.mem_map.1 hx
    exact hzero i (List.mem_filter.1 hi).1 (List.mem_filter.1 hi).2
  · rw [← Datum.contains_eq_of_identities hitems]
    exact hin

end BeliefUpdater

end Multistage
