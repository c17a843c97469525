import Multistage.Proofs.Model.Mirror
import Multistage.Proofs.Node.Blank
import Multistage.Proofs.Stage.Opposite

/-!
# Building models of the other sense

From the plans of the other sense, with bounds of the value terms exchanged and negated, the model
of the other sense is built. Its value terms are reserved as soon as all objectives have negatives.

## Main definitions

- `StagePlans.mirror`: the plans of the other sense.
- `Node.Opposable`, `Model.Opposable`: what has to be known of the nodes of a model.

## Main statements

- `Model.build_mirror`: the model that the plans of the other sense describe.
- `Model.reserves_of_build`: its value terms are reserved.
-/

namespace Multistage

open Multistage.Action (Ensures Twin)

/-- The plans of the other sense. -/
def StagePlans.mirror (plans : StagePlans ℚ) : StagePlans ℚ :=
  ⟨plans.listed.map fun e => (e.1, e.2.mirror), plans.rest.mirror⟩

theorem StagePlans.of_mirror (plans : StagePlans ℚ) (index : Datum ℚ) :
    plans.mirror.of index = (plans.of index).mirror := by
  unfold StagePlans.of mirror
  rw [List.find?_map]
  show (((plans.listed.find? fun e => e.1.contains index).map _).map _).getD _ = _
  cases plans.listed.find? fun e => e.1.contains index <;> rfl

/-- The objective of the node and those that the noise assigns have negatives, its noise terms may
be met, and the solvers correspond if its value term is exchanged for its negative. -/
structure Node.Opposable (o : Opposites) (met : Datum ℚ → Prop) (n : Node ℚ) : Prop where
  negatable : n.stage.objective.Negatable
  edits : ∀ value, .objective value ∈ n.stage.edits → ∀ noise, met noise → ∀ s : Stage ℚ,
    s.subproblem.registry = n.stage.subproblem.registry → ∀ a, value.eval (s.scope noise) = .ok a →
    a.Negatable
  noise : ∀ t ∈ n.stage.noise, met t.term
  reflects : o.solver.Reflects o.opposite n.cuts.term.index

/-- All nodes of the model can be turned to the other sense. -/
def Model.Opposable (o : Opposites) (m : Model ℚ) : Prop :=
  ∀ e ∈ m.nodes.entries, e.2.Opposable o (o.met e.1)

/-! ### Nodes -/

namespace Node

variable {o : Opposites} {met : Datum ℚ → Prop} {n k : Node ℚ} {settings : CutSettings ℚ}
  {children : List (Edge ℚ)} {stage : Stage ℚ} {partition : List (List (Datum ℚ))}
  {belief : Belief ℚ}
  {index : Datum ℚ}

/-- The value term of a node that was built is reserved. -/
theorem Blank.reserves (hn : n.Blank) (h : n.Opposable o met) :
    ∃ r, n.Reserves met r ∧ o.solver.Reflects o.opposite r.term.index := by
  have owner : n.stage.subproblem.owner = n.cuts.term.owner := hn.term_owner.symm
  have within := hn.tidy.registered
  have free : ∀ c ∈ n.stage.subproblem.constraints, c.coefficients.contains n.cuts.term.index =
      false := by
    intro c hc
    rw [Dict.contains_eq_isSome_get?, Option.isSome_eq_false_iff, Option.isNone_iff_eq_none,
      Option.eq_none_iff_forall_ne_some]
    exact fun a ha => lt_irrefl _ (hn.tidy.coefficients c hc _ a ha)
  rw [owner] at within
  refine ⟨⟨n.cuts.term, n.stage.subproblem.constraints.length, n.stage.subproblem.registry, within⟩,
    ⟨?_, rfl⟩,
    h.reflects⟩
  refine ⟨?_, fun e he => owner ▸ hn.tidy.copies e he, owner ▸ hn.tidy.objective, h.negatable,
    h.edits, h.noise⟩
  exact {
    lower_length := hn.tidy.lower_length
    upper_length := hn.tidy.upper_length
    lt := hn.term_lt
    fixed := by rw [hn.tidy.fixed_eq]; rfl
    relation := fun c hc hcontains => absurd ((free c hc).symm.trans hcontains) Bool.false_ne_true
    owner_eq := owner
    registry_eq := rfl
    row := fun i hi => ⟨_, List.getElem?_eq_getElem hi, free _ (List.getElem_mem hi)⟩
    mentions := fun h => absurd (hn.tidy.installed.symm.trans h) Bool.false_ne_true }

/-- The bounds of the value term of the other sense. -/
theorem bounds_mirror (settings : CutSettings ℚ) (children : List (Edge ℚ)) :
    settings.mirror.bounds children =
      ((settings.bounds children).2.neg, (settings.bounds children).1.neg) := by
  unfold CutSettings.bounds
  split
  · exact Prod.ext (congrArg Extended.finite neg_zero.symm) (congrArg Extended.finite neg_zero.symm)
  · rfl

/-- The node of a stage is built whatever its bounds are. -/
theorem ofStage_eq (settings : CutSettings ℚ) (children : List (Edge ℚ)) (stage : Stage ℚ) :
    ofStage settings children stage =
      .ok ⟨{ stage with subproblem := { stage.subproblem with
          names := stage.subproblem.names ++ [.null]
          lower := stage.subproblem.lower ++ [(settings.bounds children).1]
          upper := stage.subproblem.upper ++ [(settings.bounds children).2] } }, children,
        ⟨settings, ⟨stage.subproblem.owner, stage.subproblem.names.length, .ofName .null⟩,
          CutPool.empty⟩,
        none⟩ := by
  unfold ofStage CutSettings.bounds
  split <;> rfl

/-- The node of the stage with negated objectives is the node of the other sense. -/
theorem ofStage_mirror (hs : stage.Declared) (h : ofStage settings children stage = .ok k) :
    ofStage settings.mirror children stage.negated = .ok k.mirror := by
  rw [ofStage_eq] at h ⊢
  cases h
  rw [bounds_mirror]
  obtain ⟨l, u⟩ := settings.bounds children
  have rows : stage.subproblem.constraints.map (Constraint.mirror stage.subproblem.names.length) =
      stage.subproblem.constraints := by
    refine (List.map_congr_left fun c hc => Subproblem.mirror_of_not_contains ?_).trans
      (List.map_id _)
    rw [Dict.contains_eq_isSome_get?, Option.isSome_eq_false_iff, Option.isNone_iff_eq_none,
      Option.eq_none_iff_forall_ne_some]
    exact fun a ha => lt_irrefl _ (hs.coefficients c hc _ a ha)
  have last : ∀ (side : List (Extended ℚ)) (b b' : Extended ℚ),
      side.length = stage.subproblem.names.length →
      (side ++ [b]).set stage.subproblem.names.length b' = side ++ [b'] := by
    intro side b b' hside
    rw [List.set_append_right _ _ hside.le, hside, Nat.sub_self]
    rfl
  have own : ∀ (side : List (Extended ℚ)) (b other : Extended ℚ),
      side.length = stage.subproblem.names.length →
      (side ++ [b]).getD stage.subproblem.names.length other = b := by
    intro side b other hside
    rw [List.getD_eq_getElem?_getD, List.getElem?_append_right hside.le, hside, Nat.sub_self]
    rfl
  simp only [mirror, CutModel.mirror, Stage.mirror, Stage.negated, Subproblem.mirror,
    Subproblem.mentions, rows,
    last _ _ _ hs.lower_length, last _ _ _ hs.upper_length, own _ _ _ hs.lower_length,
    own _ _ _ hs.upper_length, hs.cost_eq, hs.point_eq, hs.optimum_eq, hs.duals_eq]
  rfl

/-- Multipliers are added to the node of the other sense in the same way. -/
theorem twin_addMultiplier (l u : Extended ℚ) :
    Twin mirror id Blank (fun _ => True)
      (onSubproblem (Subproblem.addVariable .null (.ok l) (.ok u)))
      (onSubproblem (Subproblem.addVariable .null (.ok l) (.ok u))) := by
  have added : ∀ n : Node ℚ, onSubproblem (Subproblem.addVariable .null (.ok l) (.ok u)) n =
      .ok ⟨n.stage.subproblem.owner, n.stage.subproblem.names.length, .ofName .null⟩
        (n.withSubproblem { n.stage.subproblem with
          names := n.stage.subproblem.names ++ [.null]
          lower := n.stage.subproblem.lower ++ [l]
          upper := n.stage.subproblem.upper ++ [u] }) := fun _ => rfl
  refine ⟨.of_cases (fun n v n' hn hr => ?_) fun n e n' _ hr => ?_, fun n hn => ?_⟩
  · cases (added n).symm.trans hr
    exact ⟨hn.push l u, trivial⟩
  · cases (added n).symm.trans hr
  · have lower := hn.tidy.lower_length
    have upper := hn.tidy.upper_length
    have lt := hn.term_lt
    rw [added, added, Action.imageOf]
    refine congrArg (EStateM.Result.ok _) ?_
    simp only [mirror, CutModel.mirror, Stage.mirror, Subproblem.mirror, withSubproblem,
      Subproblem.mentions,
      List.set_append_left _ _ (lower ▸ lt), List.set_append_left _ _ (upper ▸ lt),
      List.getD_append _ _ _ _ (lower ▸ lt), List.getD_append _ _ _ _ (upper ▸ lt)]
    rfl

theorem twin_addMultipliers (position : ℕ) (members : List (Datum ℚ)) (belief : Belief ℚ) :
    Twin mirror id Blank (fun _ => True) (addMultipliers position members belief)
      (addMultipliers position members belief) := by
  have each : Twin mirror (List.map id) Blank (fun answers => ∀ a ∈ answers, True)
      (members.mapM fun member => do
        return (member, ← onSubproblem
          (Subproblem.addVariable .null (.ok (.finite 0)) (.ok (.finite multiplierBound)))))
      (members.mapM fun member => do
        return (member, ← onSubproblem
          (Subproblem.addVariable .null (.ok (.finite 0)) (.ok (.finite multiplierBound))))) :=
    .mapM fun _ _ => .bind (twin_addMultiplier _ _) fun _ _ => .pure (h := id) trivial
  rw [List.map_id_fun] at each
  exact .bind each fun _ _ => .modify (fun _ hn => { hn with }) fun _ _ => rfl

theorem observed_mirror (hk : k.Blank) (h : k.observed partition belief index = .ok n) :
    k.mirror.observed partition belief index = .ok n.mirror := by
  unfold observed at h ⊢
  split at h
  · cases h
    rfl
  next members position _ =>
    rw [(twin_addMultipliers position members belief).mirrors k hk]
    split at h
    next hrun =>
      cases h
      rw [hrun]
      rfl
    next => cases h

theorem objective_observed (h : k.observed partition belief index = .ok n) :
    n.stage.objective = k.stage.objective := by
  have added : ∀ position members, Ensures (fun n : Node ℚ => n.stage.objective = k.stage.objective)
      (addMultipliers position members belief) fun _ => True := by
    refine fun position members => .bind (.mapM (S := fun _ _ => True) fun _ _ => ?_) fun _ _ =>
      .modify fun _ => id
    refine .bind (R := fun _ => True) ?_ fun _ _ => .pure trivial
    show Ensures _ (onStage (Stage.onSubproblem _)) _
    refine .focus (J := fun s : Stage ℚ => s.objective = k.stage.objective) ?_ (fun _ => id)
      fun _ _ _ => id
    exact .elsewhere _ fun _ _ => id
  unfold observed at h
  split at h
  · cases h
    rfl
  · split at h
    next hrun =>
      cases h
      exact ((added _ _).ok rfl hrun).1
    next => cases h

end Node

/-! ### Models -/

namespace Model

variable {o : Opposites} {graph : Graph ℚ} {settings : CutSettings ℚ} {plans : StagePlans ℚ}
  {m : Model ℚ}

/-- The value terms of a model that was built are reserved, if all its nodes can be turned. -/
theorem reserves_of_build {sense : Datum ℚ} (h : build graph settings sense plans = .ok m)
    (hm : m.Opposable o) : m.Reserves o := by
  intro index n hn
  obtain ⟨blank, -⟩ := blank_of_build h hn
  obtain ⟨e, he, hindex, rfl⟩ := Dict.exists_mem_of_get? hn
  exact blank.reserves (o.met_congr _ _ hindex ▸ hm e he)

theorem senseOf_word (sense : Sense) : senseOf (.text sense.word : Datum ℚ) = .ok sense := by
  cases sense <;> rfl

/-- From the plans of the other sense, with the bounds exchanged and negated, the model of the other
sense is built. -/
theorem build_mirror {sense : Sense} (h : build graph settings (.text sense.word) plans = .ok m)
    (hm : ∀ e ∈ m.nodes.entries, e.2.stage.objective.Negatable) :
    build graph settings.mirror (.text sense.flip.word) plans.mirror = .ok m.mirror := by
  unfold build at h
  obtain ⟨_, hvalid, h⟩ := Except.bind_eq_ok.1 h
  obtain ⟨_, hsense, h⟩ := Except.bind_eq_ok.1 h
  cases (senseOf_word sense).symm.trans hsense
  obtain ⟨stages, hstages, h⟩ := Except.bind_eq_ok.1 h
  obtain ⟨nodes, hnodes, h⟩ := Except.bind_eq_ok.1 h
  simp only at h
  split at h
  · cases h
  next hkeys =>
  obtain ⟨observed, hobserved, h⟩ := Except.bind_eq_ok.1 h
  cases h
  -- the objectives of the stages are those of the nodes
  have negatable : ∀ e ∈ stages, e.2.objective.Negatable := by
    intro e he
    obtain ⟨k, hk, hek⟩ := Except.exists_of_mem_items hnodes he
    obtain ⟨n, hn, hkn⟩ := Except.exists_of_mem_items hobserved hk
    obtain ⟨_, hadded, hek⟩ := Except.bind_eq_ok.1 hek
    obtain ⟨_, hwatched, hkn⟩ := Except.bind_eq_ok.1 hkn
    cases hek
    cases hkn
    have same := Node.objective_observed hwatched
    rw [Node.ofStage_eq] at hadded
    cases hadded
    exact same ▸ hm _ hn
  have declared : ∀ e ∈ stages, e.2.Declared := by
    intro e he
    obtain ⟨a, -, ha⟩ := Except.exists_of_mem_mapM hstages he
    obtain ⟨_, hs, ha⟩ := Except.bind_eq_ok.1 ha
    cases ha
    exact Stage.declared_build hs
  have stages' : buildStages graph plans.mirror = .ok (stages.map fun e => (e.1, e.2.negated)) := by
    refine (congrArg (List.mapM _) (List.map_id _).symm).trans (Except.mapM_map_of_ok hstages ?_)
    rintro ⟨index, owner⟩ - e he hbuilt
    obtain ⟨s, hs, hbuilt⟩ := Except.bind_eq_ok.1 hbuilt
    cases hbuilt
    refine Except.bind_eq_ok.2 ⟨_, ?_, rfl⟩
    rw [StagePlans.of_mirror]
    exact Stage.build_mirror hs (negatable _ he)
  have nodes' : (stages.map fun e => (e.1, e.2.negated)).mapM (fun (index, stage) => do
      let children := Edge.ofPairs (graph.nodes.getD index [])
      return (index, ← Node.ofStage settings.mirror children stage)) =
      .ok (nodes.map fun e => (e.1, e.2.mirror)) := by
    refine Except.mapM_map_of_ok hnodes ?_
    rintro ⟨index, stage⟩ he k - hadded
    obtain ⟨n, hn, hadded⟩ := Except.bind_eq_ok.1 hadded
    cases hadded
    exact Except.bind_eq_ok.2 ⟨_, Node.ofStage_mirror (declared _ he) hn, rfl⟩
  have beliefs : (nodes.map fun e => (e.1, e.2.mirror)).map (fun (index, _) => (index, (0 : ℚ))) =
      nodes.map fun (index, _) => (index, 0) := List.map_map ..
  have observed' : (nodes.map fun e => (e.1, e.2.mirror)).mapM (fun (index, (n : Node ℚ)) => do
      return (index, ← n.observed graph.partition ⟨nodes.map fun (index, _) => (index, 0)⟩ index)) =
      (.ok (observed.map fun e => (e.1, e.2.mirror)) : Except (Failure ℚ) _) := by
    refine Except.mapM_map_of_ok hobserved ?_
    rintro ⟨index, k⟩ he n - hwatched
    obtain ⟨n, hn, hwatched⟩ := Except.bind_eq_ok.1 hwatched
    cases hwatched
    obtain ⟨a, ha, hadded⟩ := Except.exists_of_mem_mapM hnodes he
    obtain ⟨k, hk, hadded⟩ := Except.bind_eq_ok.1 hadded
    cases hadded
    exact Except.bind_eq_ok.2
      ⟨_, Node.observed_mirror (Node.blank_ofStage (declared _ ha) hk).1 hn, rfl⟩
  have keys : termsAreKeys (⟨nodes.map fun e => (e.1, e.2.mirror)⟩ : Dict (Datum ℚ) (Node ℚ)) =
      termsAreKeys ⟨nodes⟩ := by
    unfold termsAreKeys Dict.values
    rw [List.map_map, List.all_map, List.all_map]
    rfl
  unfold build
  refine Except.bind_eq_ok.2 ⟨(), hvalid, Except.bind_eq_ok.2 ⟨_, senseOf_word _,
    Except.bind_eq_ok.2 ⟨_, stages', Except.bind_eq_ok.2 ⟨_, nodes', ?_⟩⟩⟩⟩
  simp only [beliefs, keys]
  rw [if_neg hkeys]
  refine Except.bind_eq_ok.2 ⟨_, observed', ?_⟩
  have initial : (stages.map fun e => (e.1, e.2.negated)).map (·.2) =
      (stages.map (·.2)).map Stage.negated := by
    rw [List.map_map, List.map_map]
    rfl
  rw [initial, initialState, List.foldl_map]
  rfl

end Model

end Multistage
