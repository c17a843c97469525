import Multistage.Proofs.Node.Below
import Multistage.Proofs.Node.Optimum

/-!
# Nodes that succeed earlier ones

A node to which cuts were added, but of which none was taken out, has the constraints and the cuts
that it had before. Its objective is installed only if it can be.

## Main definitions

- `Node.planes`: the recorded cuts as functions of the state.
- `Node.Succeeds`: the node has what it had earlier.
- `Node.Finds`: what a solve finds that answers.

## Main statements

- `Node.completes_solve`, `Node.triple_refine_planes`: the two operations.
- `Node.triple_refine_recorded`, `Node.recorded_refine`: the cut that a refinement records, and
  those before it.
-/

namespace Multistage

/-- A state is not moved to itself. -/
theorem State.moved_self {x : State ℚ} (hx : x.Distinct) (duals : State ℚ) :
    x.moved duals x.profile = 0 := by
  refine List.sum_eq_zero fun a ha => ?_
  obtain ⟨e, he, rfl⟩ := List.mem_map.1 ha
  have own : x.getD e.1 0 = e.2 := by
    rw [Dict.getD, (Dict.get?_eq_some_iff hx).2 ⟨e, he, BEq.rfl, rfl⟩, Option.getD_some]
  rw [profile, own, sub_self, mul_zero]

namespace Node

/-- The recorded cuts as functions of the state. -/
noncomputable def planes (n : Node ℚ) : List ((Name → ℝ) → ℝ) := n.cuts.pool.cuts.map Cut.value

/-- The node has the constraints and the cuts that it had earlier, and no others unless it may grow.
Its objective is installed only if it can be. -/
structure Succeeds (sense : Sense) (start n₁ : Node ℚ) (grows : Prop) (n : Node ℚ) : Prop where
  used : Used sense start (start.later n₁) n
  planes : n₁.planes <+: n.planes
  still : ¬grows → start.later n = start.later n₁ ∧ n.planes = n₁.planes
  posed : n.stage.objectiveInstalled = true → start.Poses

/-- What a solve finds that answers, with the constraints of the node as it was earlier. -/
structure Finds (solver : Solver ℚ) (sense : Sense) (start n₁ : Node ℚ) (x : State ℚ)
    (noise : Datum ℚ) (needsDuals : Bool) (s : Solution ℚ) : Prop where
  poses : start.Poses
  outgoing : s.outgoing.Distinct
  solved : ∃ m n', Ready sense start (start.later n₁) x noise m ∧
    start.later m = start.later n₁ ∧ Solved solver needsDuals m s n'

variable {sense : Sense} {start n n₁ n₂ : Node ℚ} {grows grows' : Prop} {solver : Solver ℚ}
  {x : State ℚ} {noise : Datum ℚ}

namespace Succeeds

theorem of_blank (h : start.Blank) : Succeeds sense start start grows start := by
  refine ⟨?_, List.prefix_rfl, fun _ => ⟨rfl, rfl⟩, fun hi => ?_⟩
  · rw [later, rowCount, List.drop_length]
    exact used_of_blank h
  · rw [h.tidy.installed] at hi
    cases hi

/-- A node that has succeeded an earlier one succeeds itself. -/
theorem self (h : Succeeds sense start n₁ grows n) : Succeeds sense start n grows' n :=
  ⟨h.used.now, List.prefix_rfl, fun _ => ⟨rfl, rfl⟩, h.posed⟩

theorem trans (h : Succeeds sense start n₁ grows n₂) (h' : Succeeds sense start n₂ grows' n) :
    Succeeds sense start n₁ (grows ∨ grows') n where
  used := { h'.used with rows := h.used.rows.trans h'.used.rows }
  planes := h.planes.trans h'.planes
  still hstill := by
    obtain ⟨hrows, hplanes⟩ := h.still fun hgrows => hstill (.inl hgrows)
    obtain ⟨hrows', hplanes'⟩ := h'.still fun hgrows => hstill (.inr hgrows)
    exact ⟨hrows'.trans hrows, hplanes'.trans hplanes⟩
  posed := h'.posed

theorem mono (h : Succeeds sense start n₁ grows n) (hgrows : grows → grows') :
    Succeeds sense start n₁ grows' n :=
  { h with still := fun hstill => h.still (mt hgrows hstill) }

end Succeeds

/-- A solve changes neither constraints nor cuts, and it answers only if the node poses. -/
theorem completes_solve (hb : start.Blank) (x : State ℚ) (noise : Datum ℚ) (needsDuals : Bool) :
    Action.Completes (Succeeds sense start n₁ False) (solve solver sense x noise needsDuals)
      (Finds solver sense start n₁ x noise needsDuals) := by
  refine .of_ok fun n s n' h hrun => ?_
  rw [solve_eq] at hrun
  obtain ⟨_, m, posed, hrun⟩ := Action.bind_eq_ok.1 hrun
  have poses := poses_of_pose hb h.used h.posed posed
  obtain ⟨ready, same⟩ := (triple_pose hb h.used).ok rfl posed
  obtain ⟨⟨used, same'⟩, solved⟩ := (triple_conclude ready.toUsed needsDuals).ok rfl hrun
  obtain ⟨hrows, hplanes⟩ := h.still id
  have cuts : n'.planes = n₁.planes := by
    rw [Node.planes, (same.trans same').cuts]
    exact hplanes
  refine ⟨⟨used, cuts ▸ List.prefix_rfl, fun _ => ⟨(same.trans same').rows.trans hrows, cuts⟩,
    fun _ => poses⟩, poses, ?_, m, n', ready, same.rows.trans hrows, solved⟩
  refine hb.tidy.distinct.of_keys_eq ((keys_outgoing solved.outgoing).trans ?_)
  rw [used.states_eq]

section

variable {τ : Type} {f : Cut ℚ → τ}
  (hf : ∀ c d : Cut ℚ, c.intercept = d.intercept → c.coefficients = d.coefficients → f c = f d)

include hf

/-- A recorded cut is one more, but for its counts. -/
theorem Records.map_eq {c : Cut ℚ} {pool : CutPool ℚ ℚ} (h : n.Records c pool) :
    pool.cuts.map f = n.cuts.pool.cuts.map f ++ [f c] := by
  have uncounted : f ∘ Cut.uncounted = f := funext fun c => hf _ _ rfl rfl
  have recorded := congrArg (List.map f) h
  rw [List.map_append, List.map_map, List.map_map, uncounted] at recorded
  exact recorded.trans (congrArg (_ ++ [·]) (congrFun uncounted c))

/-- A refinement that answers records its cut, which keeps its intercept and its coefficients. So
does one that fails later, if the cut can be installed. -/
theorem triple_refine_recorded (measure : Measure ℚ) (x : State ℚ) (duals : List (State ℚ))
    (probabilities objectives : List ℚ) :
    Action.Triple (· = n) (refine sense measure x duals probabilities objectives)
      (fun _ n' => (∃ c height,
          newCut sense measure x duals probabilities objectives = .ok (c, height) ∧
            n'.cuts.pool.cuts.map f = n.cuts.pool.cuts.map f ++ [f c]) ∧
        n'.stage.objectiveInstalled = n.stage.objectiveInstalled)
      fun n' => (∀ cut, newCut sense measure x duals probabilities objectives = .ok cut →
          ∃ k, n.cutConstraint sense cut.1 = .ok k) →
        n'.cuts.pool.cuts.map f = n.cuts.pool.cuts.map f ++
          ((newCut sense measure x duals probabilities objectives).toOption.map fun cut =>
            f cut.1).toList := by
  rw [refine_eq]
  cases hcut : newCut sense measure x duals probabilities objectives with
  | error e =>
    rintro _ rfl -
    exact (List.append_nil _).symm
  | ok cut =>
    let I : Node ℚ → Prop := fun m => m.cuts.pool.cuts.map f = n.cuts.pool.cuts.map f ++ [f cut.1] ∧
      m.stage.objectiveInstalled = n.stage.objectiveInstalled
    have installed : f (n.next cut.1) = f cut.1 := hf _ _ rfl rfl
    refine .answered_bind rfl ((triple_addCut (I := I)
      (E := fun m => (∃ e, n.cutConstraint sense cut.1 = .error e) ∨ I m) (fun _ => .inr) .inl
      (fun k pool _ _ hpool => ⟨installed ▸ hpool.map_eq hf, rfl⟩)
      (fun pool _ hpool => ⟨hpool.map_eq hf, rfl⟩)
      fun m place d k hm hd _ _ => ⟨?_, hm.2⟩).consequence (fun _ => id) ?_ ?_)
    · rw [← hm.1]
      exact map_set_of_eq hd (hf _ _ rfl rfl)
    · rintro _ n' ⟨hrecorded, hinstalled⟩
      exact ⟨⟨cut.1, cut.2, rfl, hrecorded⟩, hinstalled⟩
    · rintro n' (⟨e, he⟩ | hrecorded) hall
      · obtain ⟨k, hk⟩ := hall cut rfl
        cases he.symm.trans hk
      · exact hrecorded.1

/-- What was recorded stays where it is. -/
theorem recorded_refine (before : List τ) (measure : Measure ℚ) (x : State ℚ)
    (duals : List (State ℚ)) (probabilities objectives : List ℚ) :
    Action.Ensures (fun n : Node ℚ => before <+: n.cuts.pool.cuts.map f)
      (refine sense measure x duals probabilities objectives) fun _ => True := by
  have recorded :
      ∀ {n : Node ℚ} {c : Cut ℚ} {pool : CutPool ℚ ℚ}, before <+: n.cuts.pool.cuts.map f →
      n.Records c pool → before <+: pool.cuts.map f := fun h hpool => by
    rw [hpool.map_eq hf]
    exact h.trans (List.prefix_append _ _)
  refine ensures_refine fun c height _ => ensures_addCut (fun _ _ _ h _ hpool => recorded h hpool)
    (fun _ _ h hpool => recorded h hpool) fun m place d k h hd _ _ => ?_
  have same : (m.cuts.pool.cuts.set place { m.next d with removed := false }).map f =
      m.cuts.pool.cuts.map f :=
    map_set_of_eq hd (hf _ _ rfl rfl)
  exact same ▸ h

end

/-- A refinement that answers records its cut. -/
theorem triple_refine_planes (measure : Measure ℚ) (x : State ℚ) (duals : List (State ℚ))
    (probabilities objectives : List ℚ) :
    Action.Triple (· = n) (refine sense measure x duals probabilities objectives)
      (fun _ n' => (∃ c height,
          newCut sense measure x duals probabilities objectives = .ok (c, height) ∧
            n'.planes = n.planes ++ [c.value]) ∧
        n'.stage.objectiveInstalled = n.stage.objectiveInstalled) fun _ => True :=
  (triple_refine_recorded (fun c d hintercept hcoefficients => by
    funext y
    rw [Cut.value, Cut.value, hintercept, hcoefficients]) measure x duals probabilities
      objectives).consequence
      (fun _ => id) (fun _ _ => id) fun _ _ => trivial

/-- A node that is refined succeeds itself. -/
theorem Succeeds.refine (h : Succeeds sense start n₁ grows n) (measure : Measure ℚ) (x : State ℚ)
    (duals : List (State ℚ)) (probabilities objectives : List ℚ) :
    Action.Triple (· = n) (refine sense measure x duals probabilities objectives)
      (fun _ n' => Succeeds sense start n True n' ∧ ∃ c height,
        newCut sense measure x duals probabilities objectives = .ok (c, height) ∧
          n'.planes = n.planes ++ [c.value]) fun _ => True := by
  refine .of_cases ?_ fun _ _ _ _ _ => trivial
  rintro n _ n' rfl hrun
  obtain ⟨⟨c, height, hcut, hplanes⟩, hinstalled⟩ :=
    (triple_refine_planes measure x duals probabilities
    objectives).ok rfl hrun
  refine ⟨⟨((used_refine measure x duals probabilities objectives).ok h.used.now hrun).1, ?_,
    fun hstill => absurd trivial hstill, fun hi => h.posed (hinstalled ▸ hi)⟩, c, height,
      hcut, hplanes⟩
  rw [hplanes]
  exact List.prefix_append _ _

end Node

end Multistage
