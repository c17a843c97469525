import Multistage.Proofs.Model.Edges
import Multistage.Proofs.Sums
import Multistage.Proofs.Training.Similar

/-!
# The mass of a posterior

An observation is a block together with a noise term. The posterior gives the nodes of the block
their joint probability of being reached and emitting the noise term, divided by the probability of
the noise term alone. It is therefore a distribution only where no node outside of the block can be
reached and emit the noise term.

## Main definitions

- `NoiseTerm.massOf`: the probability of a noise term in a distribution.
- `Model.jointMass`: the probability to reach a node and see a noise term there.

## Main statements

- `BeliefUpdater.mass_update`: the mass of the posterior, and when it is one.
-/

namespace Multistage

/-! ### Emissions -/

/-- The probability of a noise term in a distribution: equal terms add up. -/
def NoiseTerm.massOf (noise : Datum ℚ) (terms : List (NoiseTerm ℚ)) : ℚ :=
  ((terms.filter (·.term == noise)).map (·.probability)).sum

theorem NoiseTerm.massOf_nonneg {noise : Datum ℚ} {terms : List (NoiseTerm ℚ)}
    (h : ∀ t ∈ terms, 0 ≤ t.probability) : 0 ≤ massOf noise terms :=
  sum_map_nonneg fun t ht => h t (List.mem_filter.1 ht).1

/-- The emission distribution has the mass of every noise term. -/
theorem emission_getD (terms : List (NoiseTerm ℚ)) (noise : Datum ℚ) :
    (emission terms).getD noise 0 = NoiseTerm.massOf noise terms := by
  have added : ∀ (terms : List (NoiseTerm ℚ)) (d : Dict (Datum ℚ) ℚ),
      (terms.foldl (fun d t => d.insert t.term (d.getD t.term 0 + t.probability)) d).getD noise 0 =
        d.getD noise 0 + NoiseTerm.massOf noise terms := by
    intro terms
    induction terms with
    | nil => intro d; simp [NoiseTerm.massOf]
    | cons t rest ih =>
      intro d
      rw [List.foldl_cons, ih]
      unfold Dict.getD NoiseTerm.massOf
      rw [Dict.get?_insert]
      by_cases ht : (t.term == noise) = true
      · rw [if_pos ht, List.filter_cons_of_pos (p := fun x : NoiseTerm ℚ => x.term == noise) ht,
          List.map_cons, List.sum_cons, Dict.get?_congr ht, Option.getD_some, add_assoc]
      · rw [if_neg ht, List.filter_cons_of_neg (p := fun x : NoiseTerm ℚ => x.term == noise) ht]
  have := added terms Dict.empty
  simpa [emission, Dict.getD] using this

namespace Model

variable (m : Model ℚ)

/-- The probability of the last edge between two nodes. -/
def lastEdge (j i : Datum ℚ) : ℚ :=
  ((m.nodes.get? j).map fun n => Edge.lastTo n.children i).getD 0

/-- The probability, under a belief, to reach a node and see a noise term there. Of several edges
between the same two nodes the last one counts. -/
def jointMass (belief : Belief ℚ) (noise i : Datum ℚ) : ℚ :=
  NoiseTerm.massOf noise (m.noiseOf i) * (belief.entries.map fun e => e.2 * m.lastEdge e.1 i).sum

variable {m} {belief : Belief ℚ} {noise : Datum ℚ}

theorem lastEdge_congr {i i' : Datum ℚ} (h : (i == i') = true) (j : Datum ℚ) :
    m.lastEdge j i = m.lastEdge j i' := by
  unfold lastEdge
  simp only [Edge.lastTo_congr h]

theorem jointMass_congr {i i' : Datum ℚ} (h : (i == i') = true) :
    m.jointMass belief noise i = m.jointMass belief noise i' := by
  unfold jointMass
  simp only [lastEdge_congr h, m.noiseOf_congr h]

theorem jointMass_nonneg (hedges : ∀ e ∈ m.nodes.entries, ∀ f ∈ e.2.children, 0 ≤ f.probability)
    (hnoise : ∀ e ∈ m.nodes.entries, ∀ t ∈ e.2.stage.noise, 0 ≤ t.probability)
    (hbelief : ∀ e ∈ belief.entries, 0 ≤ e.2) (i : Datum ℚ) : 0 ≤ m.jointMass belief noise i := by
  refine mul_nonneg (NoiseTerm.massOf_nonneg fun t ht => ?_) (sum_map_nonneg fun e he => ?_)
  · unfold noiseOf at ht
    cases hn : m.nodes.get? i with
    | none => simp [hn] at ht
    | some n =>
      obtain ⟨e, he, -, rfl⟩ := Dict.exists_mem_of_get? hn
      exact hnoise e he t (by simpa [hn] using ht)
  · refine mul_nonneg (hbelief e he) ?_
    unfold lastEdge
    cases hn : m.nodes.get? e.1 with
    | none => simp
    | some n =>
      obtain ⟨k, hk, -, rfl⟩ := Dict.exists_mem_of_get? hn
      simp only [Option.map_some, Option.getD_some]
      unfold Edge.lastTo
      cases hlast : (Edge.leadingTo k.2.children i).getLast? with
      | none => simp
      | some f =>
        have hf := List.mem_of_getLast? hlast
        simpa using hedges k hk f (List.mem_filter.1 hf).1

end Model

namespace BeliefUpdater

variable {m : Model ℚ} {partition : List (List (Datum ℚ))} {u : BeliefUpdater ℚ}

theorem laws_of_updater (hd : m.nodes.Distinct) (hu : m.updater partition = .ok u) :
    u.partition = partition ∧ u.emissions = emissionMap m.nodes ∧
      ∀ j i, u.transition j i = m.lastEdge j i := by
  unfold Model.updater at hu
  split at hu
  · cases hu
    refine ⟨rfl, rfl, fun j i => ?_⟩
    unfold transition Model.lastEdge
    cases hj : m.nodes.get? j with
    | some n => exact transitionMap_getD hd hj i
    | none =>
      -- a node that is not in the model has no edges
      unfold Dict.getD transitionMap
      rw [Dict.get?_ofList]
      have none : (m.nodes.entries.flatMap fun e => e.2.children.map fun f =>
          ((e.1, f.child), f.probability)).filter (·.1 == (j, i)) = [] := by
        refine List.filter_eq_nil_iff.2 fun x hx hkey => ?_
        obtain ⟨e, he, hx⟩ := List.mem_flatMap.1 hx
        obtain ⟨f, -, rfl⟩ := List.mem_map.1 hx
        rw [(Dict.get?_eq_some_iff hd).2 ⟨e, he, (Bool.and_eq_true_iff.1 hkey).1, rfl⟩] at hj
        cases hj
      rw [none]
      rfl
  · cases hu

/-- The posterior has the nodes of the belief, each with its likelihood times the probability to
arrive there, divided by the mass of the noise term. -/
theorem update_eq_ok {belief posterior : Belief ℚ} {observed noise : Datum ℚ}
    (h : u.update belief observed noise = .ok posterior) :
    ∃ block, Datum.itemAt u.partition observed = .ok block ∧ 0 < u.observationMass belief noise ∧
      List.Forall₂ (fun i e => ∃ l, u.likelihood block noise i = .ok l ∧
        e = (i, l * u.arrivalMass belief i / u.observationMass belief noise))
        belief.keys posterior.entries := by
  obtain ⟨block, hblock, h⟩ := Except.bind_eq_ok.1 h
  -- whether the noise term was checked to be a key does not matter
  have rest : (if u.observationMass belief noise ≤ 0 then
        .error (.impossibleObservation noise observed) else do
      let entries ← belief.keys.mapM fun i => do
        return (i, (← u.likelihood block noise i) * u.arrivalMass belief i /
          u.observationMass belief noise)
      return ⟨entries⟩ : Except (Failure ℚ) (Belief ℚ)) = .ok posterior := by
    simp only at h
    split at h
    · exact (Except.bind_eq_ok.1 h).choose_spec.2
    · exact h
  split at rest
  · cases rest
  next hmass =>
    obtain ⟨entries, hentries, rest⟩ := Except.bind_eq_ok.1 rest
    cases rest
    refine ⟨block, hblock, not_le.1 hmass, (Except.mapM_eq_ok.1 hentries).imp fun i e he => ?_⟩
    obtain ⟨l, hl, he⟩ := Except.bind_eq_ok.1 he
    cases he
    exact ⟨l, hl, rfl⟩

section Laws

variable (hd : m.nodes.Distinct) (hu : m.updater partition = .ok u) (belief : Belief ℚ)
  (noise : Datum ℚ)

include hd hu

/-- The likelihood of a node of the block times the probability to arrive there is its joint
probability. -/
theorem likelihood_mul_arrivalMass {block : List (Datum ℚ)} {i : Datum ℚ} {l : ℚ}
    (hl : u.likelihood block noise i = .ok l) :
    l * u.arrivalMass belief i = if block.contains i then m.jointMass belief noise i else 0 := by
  obtain ⟨-, hemissions, htransition⟩ := laws_of_updater hd hu
  unfold likelihood at hl
  split at hl
  next hblock =>
    rw [hemissions, emissionMap,
      Dict.get?_mapValues (fun n : Node ℚ => emission n.stage.noise)] at hl
    cases hn : m.nodes.get? i with
    | none => rw [hn] at hl; cases hl
    | some n =>
      rw [hn] at hl
      cases hl
      rw [if_pos hblock, emission_getD, arrivalMass, Model.jointMass, Model.noiseOf, hn]
      simp only [htransition, Scalar.sum_eq_listSum]
      rfl
  next hblock =>
    cases hl
    rw [if_neg hblock, zero_mul]

/-- The mass of the noise term alone is the sum of the joint probabilities of all nodes. -/
theorem observationMass_eq :
    u.observationMass belief noise = (m.nodes.keys.map (m.jointMass belief noise)).sum := by
  obtain ⟨-, hemissions, htransition⟩ := laws_of_updater hd hu
  have entry : ∀ e ∈ m.nodes.entries,
      m.jointMass belief noise e.1 = (belief.entries.map fun b =>
        b.2 * (m.lastEdge b.1 e.1 * NoiseTerm.massOf noise e.2.stage.noise)).sum := by
    intro e he
    have hn : m.nodes.get? e.1 = some e.2 := (Dict.get?_eq_some_iff hd).2 ⟨e, he, BEq.rfl, rfl⟩
    rw [Model.jointMass, Model.noiseOf, hn, ← List.sum_map_mul_left]
    refine congrArg List.sum (List.map_congr_left fun b _ => ?_)
    simp only [Option.map_some, Option.getD_some]
    ring
  rw [Dict.keys, List.map_map]
  simp only [Function.comp_def]
  rw [List.map_congr_left entry, ← sum_map_sum_comm, observationMass, Scalar.sum_eq_listSum]
  refine congrArg List.sum (List.map_congr_left fun b _ => ?_)
  show b.2 * u.noiseMass b.1 noise = _
  rw [List.sum_map_mul_left, noiseMass, Scalar.sum_eq_listSum, hemissions, emissionMap,
    Dict.mapValues, List.map_map]
  simp only [Function.comp_def, htransition, emission_getD]

end Laws

/-- **The mass of the posterior.** Whenever an updater of a model that was built answers, for a
belief over all nodes of the model: the posterior is non-negative and zero outside of the observed
block, and its mass is the probability to reach the block and see the noise term there, divided by
the probability to see the noise term anywhere. The mass is one iff no node outside of the block can
be reached and emit the noise term. -/
theorem mass_update {graph : Graph ℚ} {cuts : CutSettings ℚ} {sense : Datum ℚ}
    {plans : StagePlans ℚ} {m : Model ℚ} (hg : graph.Grown)
    (hm : Model.build graph cuts sense plans = .ok m)
    (hnoise : ∀ e ∈ m.nodes.entries, ∀ t ∈ e.2.stage.noise, 0 ≤ t.probability)
    {partition : List (List (Datum ℚ))} {u : BeliefUpdater ℚ}
    (hu : m.updater partition = .ok u) {belief posterior : Belief ℚ} (hdistinct : belief.Distinct)
    (hover : ∀ c, belief.keys.contains c = m.nodes.keys.contains c)
    (hbelief : ∀ e ∈ belief.entries, 0 ≤ e.2) {observed noise : Datum ℚ}
    (hrun : u.update belief observed noise = .ok posterior) :
    ∃ block, Datum.itemAt partition observed = .ok block ∧ posterior.keys = belief.keys ∧
      (∀ e ∈ posterior.entries, 0 ≤ e.2 ∧ (block.contains e.1 = false → e.2 = 0)) ∧
      0 < (m.nodes.keys.map (m.jointMass belief noise)).sum ∧
      posterior.values.sum =
        ((m.nodes.keys.filter block.contains).map (m.jointMass belief noise)).sum /
          (m.nodes.keys.map (m.jointMass belief noise)).sum ∧
      (posterior.values.sum = 1 ↔
        ∀ i ∈ m.nodes.keys, block.contains i = false → m.jointMass belief noise i = 0) := by
  have hd := Model.distinct_of_build hg hm
  have nonneg : ∀ i, 0 ≤ m.jointMass belief noise i :=
    Model.jointMass_nonneg (Model.edges_nonneg hm).1 hnoise hbelief
  obtain ⟨block, hblock, hmass, hentries⟩ := update_eq_ok hrun
  rw [(laws_of_updater hd hu).1] at hblock
  rw [observationMass_eq hd hu] at hmass hentries
  generalize htotal : (m.nodes.keys.map (m.jointMass belief noise)).sum = total at hmass hentries ⊢
  let part (i : Datum ℚ) : ℚ := if block.contains i then m.jointMass belief noise i else 0
  have entries : posterior.entries = belief.keys.map fun i => (i, part i / total) := by
    rw [← List.forall₂_eq_eq_eq, List.forall₂_map_right_iff]
    refine hentries.flip.imp fun e i he => ?_
    obtain ⟨l, hl, rfl⟩ := he
    rw [likelihood_mul_arrivalMass hd hu belief noise hl]
  have part_congr : ∀ i i', (i == i') = true → part i = part i' := by
    intro i i' h
    have hc : block.contains i = block.contains i' := by
      rw [Bool.eq_iff_iff, List.contains_iff_exists_mem_beq, List.contains_iff_exists_mem_beq]
      exact ⟨fun ⟨c, hc, hic⟩ => ⟨c, hc, BEq.trans (BEq.symm h) hic⟩,
        fun ⟨c, hc, hic⟩ => ⟨c, hc, BEq.trans h hic⟩⟩
    simp only [part, Model.jointMass_congr h, hc]
  have sum_eq : posterior.values.sum = (m.nodes.keys.map part).sum / total := by
    rw [Dict.values, entries, List.map_map, ← sum_map_eq_of_contains_eq part_congr
      (Dict.distinct_iff_keys.1 hdistinct) (Dict.distinct_iff_keys.1 hd) hover, div_eq_mul_inv,
      ← List.sum_map_mul_right]
    rfl
  refine ⟨block, hblock, ?_, ?_, hmass, ?_, ?_⟩
  · rw [Dict.keys, entries, List.map_map]
    exact List.map_id' _
  · intro e he
    rw [entries] at he
    obtain ⟨i, -, rfl⟩ := List.mem_map.1 he
    by_cases hi : block.contains i = true
    · simp [part, hi, div_nonneg (nonneg i) hmass.le]
    · simp [part, hi]
  · rw [sum_eq, sum_map_ite]
  · -- what the block lacks to the whole is the joint mass of the nodes outside
    have rest : total - (m.nodes.keys.map part).sum = ((m.nodes.keys.filter fun i =>
        !block.contains i).map (m.jointMass belief noise)).sum := by
      rw [← htotal, sub_eq_iff_eq_add, ← sum_map_ite, ← List.sum_map_add]
      refine congrArg List.sum (List.map_congr_left fun i _ => ?_)
      by_cases hi : block.contains i = true
      · simp [part, hi]
      · simp [part, hi]
    rw [sum_eq, div_eq_one_iff_eq hmass.ne', eq_comm, ← sub_eq_zero, rest,
      sum_map_eq_zero_iff nonneg]
    simp only [List.mem_filter, Bool.not_eq_true', and_imp]

/-- Two nodes emit the same noise term, and the process may stay at the first or go on to the
second: the posterior of the observation that it stayed has mass one half. -/
theorem mass_update_of_shared_noise :
    ∃ (graph : Graph ℚ) (m : Model ℚ) (u : BeliefUpdater ℚ) (posterior : Belief ℚ),
      Graph.ofEdges (.int 0) [.int 1, .int 2]
        [(.int 0, .int 1, .real 1), (.int 1, .int 1, .real (1 / 2)),
          (.int 1, .int 2, .real (1 / 2))] [[.int 1], [.int 2]] = .ok graph ∧
      Model.build graph .unbounded (.text "min")
        ⟨[], { noise := [([.text "A"], none)] }⟩ = .ok m ∧
      m.updater graph.partition = .ok u ∧
      u.update ⟨[(.int 1, 1), (.int 2, 0)]⟩ (.int 0) (.text "A") = .ok posterior ∧
      (∀ e ∈ posterior.entries, 0 ≤ e.2) ∧ posterior.values.sum = 1 / 2 := by
  have check : (do
      let graph ← Graph.ofEdges (.int 0) [.int 1, .int 2]
        [(.int 0, .int 1, .real 1), (.int 1, .int 1, .real (1 / 2)),
          (.int 1, .int 2, .real (1 / 2))] [[.int 1], [.int 2]]
      let m ← Model.build graph .unbounded (.text "min") ⟨[], { noise := [([.text "A"], none)] }⟩
      let u ← m.updater graph.partition
      let posterior ← u.update ⟨[(.int 1, 1), (.int 2, 0)]⟩ (.int 0) (.text "A")
      if (∀ e ∈ m.nodes.entries, ∀ t ∈ e.2.stage.noise, 0 ≤ t.probability) ∧
        m.nodes.keys.map Datum.identity = [(.int 1 : Datum ℚ), .int 2].map Datum.identity ∧
        posterior.values.sum = 1 / 2 then return () else .error .missingKey :
        Except (Failure ℚ) Unit).toBool = true := by
    decide +kernel
  simp only [Except.toBool_bind, Except.toBool_ite] at check
  obtain ⟨graph, hgraph, m, hm, u, hu, posterior, hposterior, hnoise, hkeys, hsum⟩ := check
  have hover : ∀ c, [(.int 1 : Datum ℚ), .int 2].contains c = m.nodes.keys.contains c := by
    -- membership up to equality is membership of what keys stand for
    have identities : ∀ (xs : List (Datum ℚ)) c,
        xs.contains c = (xs.map Datum.identity).contains c.identity := by
      intro xs c
      rw [Bool.eq_iff_iff, List.contains_iff_exists_mem_beq]
      simp only [Datum.beq_iff_identity_eq, List.contains_iff_mem, List.mem_map]
      constructor
      · rintro ⟨d, hd, h⟩
        exact ⟨d, hd, h.symm⟩
      · rintro ⟨d, hd, h⟩
        exact ⟨d, hd, h.symm⟩
    intro c
    rw [identities, identities, hkeys]
  have hdistinct : Dict.Distinct (⟨[(.int 1, 1), (.int 2, 0)]⟩ : Belief ℚ) :=
    .cons (fun e he => by rw [List.mem_singleton.1 he]; decide +kernel)
      (List.pairwise_singleton _ _)
  obtain ⟨_, -, -, hall, -⟩ := mass_update (.ofEdges hgraph) hm hnoise hu hdistinct hover
    (by simp) hposterior
  exact ⟨graph, m, u, posterior, hgraph, hm, hu, hposterior, fun e he => (hall e he).1, hsum⟩

end BeliefUpdater

end Multistage
