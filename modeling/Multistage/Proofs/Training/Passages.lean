import Multistage.Proofs.Session.Passages
import Multistage.Training

/-!
# The passages of a forward pass

A forward pass enters every node of its path, perhaps in exchange for a starting state, and solves
it. It keeps the states in which the nodes were left, and the sum of the objectives of their stages.
If its walk was cut short, the state in which it ended is offered to the starting states of the last
node.

## Main definitions

- `Run.step`: the step of a forward pass.
- `Run.offerLast`: what is done with the state in which a walk ended.

## Main statements

- `Run.follow_eq_travel`, `Run.forward_of_travel`: a forward pass in terms of its passages.
-/

namespace Multistage

variable {α : Type} [Scalar α] {solver : Solver α}

namespace Run

/-- The step of a forward pass: the node is entered, perhaps in exchange for a starting state, and
solved. -/
def step (solver : Solver α) (visit : Visit α) (state : State α) :
    Action α (Run α) (State α × Solution α) := do
  let _ ← Action.ofExcept ((← get).session.model.node visit.node)
  let entering ← enteringState visit.node state
  return (entering, ← solve solver visit.node entering visit.noise false)

theorem follow_cons (visit : Visit α) (rest : List (Visit α)) (state : State α)
    (states : List (State α)) (value : α) : follow solver (visit :: rest) state states value =
      step solver visit state >>= fun found =>
        follow solver rest found.2.outgoing (states ++ [found.2.outgoing])
          (value + found.2.stageObjective) := by
  simp only [follow, step, bind_assoc, pure_bind]

/-- A forward pass keeps the states in which nodes were left, and adds up the objectives of the
stages. -/
theorem follow_eq_travel (path : List (Visit α)) (state : State α) (states : List (State α))
    (value : α) (r : Run α) :
    follow solver path state states value r =
      match (travel (step solver) path state r).2 with
      | .ok _ r' => .ok
          (states ++ (travel (step solver) path state r).1.map (·.solution.outgoing),
            ((travel (step solver) path state r).1.map (·.solution.stageObjective)).foldl
            (· + ·) value) r'
      | .error e r' => .error e r' := by
  induction path generalizing state states value r with
  | nil =>
    simp only [travel, List.map_nil, List.append_nil, List.foldl_nil]
    rfl
  | cons visit rest ih =>
    rw [follow_cons]
    cases hstep : step solver visit state r with
    | ok found r' =>
      obtain ⟨entering, s⟩ := found
      rw [Action.bind_of_ok hstep, ih, travel_of_ok hstep]
      simp only [List.map_cons, List.foldl_cons, List.append_assoc, List.singleton_append]
    | error e r' =>
      rw [travel_of_error hstep]
      exact Action.bind_eq_error.2 (.inl hstep)

section

variable {path : List (Visit α)} {state : State α} {passages : List (Passage α)} {r r' : Run α}

theorem follow_of_ok (h : travel (step solver) path state r = (passages, .ok ⟨⟩ r')) :
    follow solver path state [] 0 r =
      .ok (passages.map (·.solution.outgoing),
        Scalar.sum (passages.map (·.solution.stageObjective))) r' := by
  rw [follow_eq_travel, h]
  rfl

theorem follow_of_error {e : Failure α}
    (h : travel (step solver) path state r = (passages, .error e r')) :
    follow solver path state [] 0 r = .error e r' := by
  rw [follow_eq_travel, h]

end

/-- Offer the state in which a walk ended to the starting states of its last node, if it was cut
short. -/
def offerLast : (cutShort : Bool) → (last? : Option (Passage α)) → Action α (Run α) Unit
  | true, some p => addStarting p.visit.node p.solution.outgoing
  | _, _ => pure ()

section

variable {scenario : Scenario α} {passages : List (Passage α)} {r r₁ r₂ r' : Run α}
  (sampled : sampleScenario r = .ok scenario r₁)

include sampled

/-- A forward pass goes along the path of the scenario that is sampled, and offers the state in
which it ends. -/
theorem forward_of_travel
    (h : travel (step solver) scenario.path r₁.settings.initial r₁ = (passages, .ok ⟨⟩ r₂)) :
    forward solver r = (offerLast scenario.cutShort passages.getLast? >>= fun _ =>
      pure ⟨scenario.path, passages.map (·.solution.outgoing),
        Scalar.sum (passages.map (·.solution.stageObjective))⟩) r₂ := by
  rw [forward, Action.bind_of_ok sampled, Action.get_bind_eq, Action.bind_of_ok (follow_of_ok h)]
  simp only [← visits_of_travel h, List.getLast?_map]
  cases scenario.cutShort with
  | false => rfl
  | true => cases passages.getLast? <;> rfl

theorem forward_of_travel_error {e : Failure α}
    (h : travel (step solver) scenario.path r₁.settings.initial r₁ = (passages, .error e r')) :
    forward solver r = .error e r' := by
  rw [forward, Action.bind_of_ok sampled, Action.get_bind_eq]
  exact Action.bind_eq_error.2 (.inl (follow_of_error h))

end

end Run

end Multistage
