import Mathlib.Algebra.Order.Ring.Rat
import Multistage.Proofs.Model.Edges
import Multistage.Proofs.Node.Install
import Multistage.Proofs.Stage.Tidy

/-!
# Nodes as they are built

A node starts with the variables of its stage, then the value term, then multipliers. It has no
cuts, and none of its variables is fixed.

## Main definitions

- `Node.Blank`: a node that was built.
- `CutSettings.bounds`: the bounds of the value term.

## Main statements

- `Model.blank_of_built`, `Model.blank_of_build`: the nodes of a model that was built are blank.
-/

namespace Multistage

/-- The bounds of the value term of a node with or without children. -/
def CutSettings.bounds (s : CutSettings ℚ) (children : List (Edge ℚ)) : Extended ℚ × Extended ℚ :=
  if children.isEmpty then (.finite 0, .finite 0) else (s.lower, s.upper)

namespace Node

/-- All that the stage refers to comes before the value term, which has the bounds of the settings,
and there are no cuts yet. -/
structure Blank (n : Node ℚ) : Prop where
  tidy : n.stage.Tidy n.cuts.term.index
  term_owner : n.cuts.term.owner = n.stage.subproblem.owner
  term_lt : n.cuts.term.index < n.stage.subproblem.names.length
  pool_eq : n.cuts.pool = CutPool.empty
  lower_term : n.stage.subproblem.lower[n.cuts.term.index]? =
    some (n.cuts.settings.bounds n.children).1
  upper_term : n.stage.subproblem.upper[n.cuts.term.index]? =
    some (n.cuts.settings.bounds n.children).2

variable {settings : CutSettings ℚ} {children : List (Edge ℚ)} {stage : Stage ℚ} {k n : Node ℚ}
  {partition : List (List (Datum ℚ))} {belief : Belief ℚ} {index : Datum ℚ}

theorem blank_ofStage (hs : stage.Declared) (h : ofStage settings children stage = .ok k) :
    k.Blank ∧ k.cuts.settings = settings ∧ k.children = children ∧
      k.stage.states = stage.states := by
  have children_eq := children_ofStage h
  unfold ofStage at h
  simp only at h
  split at h
  next term s hrun =>
    cases h
    have added := Action.Triple.ok (Action.Triple.focus
      (Subproblem.triple_addVariable stage.subproblem (.ok (settings.bounds children).1)
        (.ok (settings.bounds children).2))) rfl (by
          rw [← hrun]
          unfold CutSettings.bounds
          split <;> rfl)
    obtain ⟨p', rfl, l, u, registry, hl, hu, rfl, hregistry, rfl⟩ := added
    cases hl
    cases hu
    have same : registry = stage.subproblem.registry := hregistry.resolve_right fun h => h.1 rfl
    subst same
    have tidy := hs.pushVariable le_rfl (Nat.le_succ _) .null (settings.bounds children).1
      (settings.bounds children).2 stage.subproblem.registry fun _ _ => .inl
    refine ⟨⟨tidy, rfl, by simp, rfl, ?_, ?_⟩, rfl, rfl, rfl⟩
    · show (stage.subproblem.lower ++ [_])[stage.subproblem.names.length]? = _
      rw [← hs.lower_length, List.getElem?_append_right le_rfl, Nat.sub_self]
      rfl
    · show (stage.subproblem.upper ++ [_])[stage.subproblem.names.length]? = _
      rw [← hs.upper_length, List.getElem?_append_right le_rfl, Nat.sub_self]
      rfl
  next => cases h

theorem Blank.push (hk : k.Blank) (l u : Extended ℚ) :
    (k.withSubproblem { k.stage.subproblem with
      names := k.stage.subproblem.names ++ [.null]
      lower := k.stage.subproblem.lower ++ [l]
      upper := k.stage.subproblem.upper ++ [u] }).Blank where
  tidy := hk.tidy.pushVariable le_rfl (by have := hk.tidy.count_le; omega) .null l u
    k.stage.subproblem.registry fun _ _ => .inl
  term_owner := hk.term_owner
  term_lt := by
    show k.cuts.term.index < (k.stage.subproblem.names ++ [_]).length
    rw [List.length_append]
    exact Nat.lt_add_right _ hk.term_lt
  pool_eq := hk.pool_eq
  lower_term := by
    show (k.stage.subproblem.lower ++ [l])[k.cuts.term.index]? = _
    rw [List.getElem?_append_left (by rw [hk.tidy.lower_length]; exact hk.term_lt)]
    exact hk.lower_term
  upper_term := by
    show (k.stage.subproblem.upper ++ [u])[k.cuts.term.index]? = _
    rw [List.getElem?_append_left (by rw [hk.tidy.upper_length]; exact hk.term_lt)]
    exact hk.upper_term

/-- Multipliers come after all else. -/
theorem blank_observed (hk : k.Blank) (h : k.observed partition belief index = .ok n) :
    n.Blank ∧ n.cuts.settings = k.cuts.settings ∧ n.stage.states = k.stage.states := by
  let I : Node ℚ → Prop := fun n => n.Blank ∧ n.cuts.settings = k.cuts.settings ∧
    n.stage.states = k.stage.states
  have pushed : Action.Triple I (onSubproblem (Subproblem.addVariable .null (.ok (.finite 0))
      (.ok (.finite multiplierBound)))) (fun _ => I) fun _ => True := by
    refine .of_forall fun n hn => ?_
    refine (triple_onSubproblem (Subproblem.triple_addVariable n.stage.subproblem
      (.ok (.finite 0)) (.ok (.finite multiplierBound)))).consequence (fun _ => id) ?_
      fun _ _ => trivial
    rintro _ _ ⟨_, rfl, l, u, registry, -, -, -, hregistry, rfl⟩
    obtain rfl : registry = n.stage.subproblem.registry := hregistry.resolve_right fun h => h.1 rfl
    exact ⟨hn.1.push l u, hn.2⟩
  have added : ∀ (position : ℕ) (members : List (Datum ℚ)),
      Action.Triple I (addMultipliers position members belief) (fun _ => I) fun _ => True := by
    intro position members
    refine .bind (Action.Triple.mapM_prefix (I := fun _ => I) fun _ _ _ _ => ?_) fun _ =>
      .modify fun _ h => ⟨{ h.1 with }, h.2⟩
    exact .bind pushed fun _ => .pure fun _ => id
  unfold observed at h
  split at h
  · cases h
    exact ⟨hk, rfl, rfl⟩
  · split at h
    next hrun =>
      cases h
      exact (added _ _).ok ⟨hk, rfl, rfl⟩ hrun
    next => cases h

end Node

/-- The nodes of a model that was built are blank. -/
theorem Model.blank_of_built {graph : Graph ℚ} {settings : CutSettings ℚ} {plans : StagePlans ℚ}
    {index : Datum ℚ} {n : Node ℚ} (h : BuiltNode graph settings plans index n) :
    n.Blank ∧ n.cuts.settings = settings := by
  obtain ⟨_, stage, k, belief, hstage, hk, hn⟩ := h
  obtain ⟨blank, hsettings, -⟩ := Node.blank_ofStage (Stage.declared_build hstage) hk
  obtain ⟨blank', hsettings', -⟩ := Node.blank_observed blank hn
  exact ⟨blank', hsettings'.trans hsettings⟩

theorem Model.blank_of_build {graph : Graph ℚ} {settings : CutSettings ℚ} {sense : Datum ℚ}
    {plans : StagePlans ℚ} {m : Model ℚ} (h : build graph settings sense plans = .ok m)
    {index : Datum ℚ} {n : Node ℚ} (hn : m.nodes.get? index = some n) :
    n.Blank ∧ n.cuts.settings = settings := by
  obtain ⟨-, hbuilt, -⟩ := nodes_of_build h
  obtain ⟨e, he, -, rfl⟩ := Dict.exists_mem_of_get? hn
  exact blank_of_built (hbuilt e he)

end Multistage
