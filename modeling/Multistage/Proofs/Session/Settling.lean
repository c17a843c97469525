import Multistage.Proofs.Risk.Laws
import Multistage.Proofs.Session.Echoing
import Multistage.Proofs.Session.Observing
import Multistage.Proofs.Session.Steps
import Multistage.Proofs.Settles

/-!
# What solves find is settled

A solve that answers leaves its node with the same cuts, so that from then on every solve finds what
it found before. The solutions of all children, and the bound, are therefore those that the solves
of the model find one by one, each on its own.

## Main definitions

- `Model.solutionOf`: what solving a child finds.
- `Session.foundChildren`: the solutions for the outcomes of a step, each found on its own.

## Main statements

- `Model.settles_solve`: the solves of a model in use.
- `Session.settles_solveChildren`, `Session.settles_bound`: what is made of them.
- `Session.found_bound`: the bound of a model in use.
-/

namespace Multistage

open Multistage.Action (Settles)

namespace Model

/-- What solving a child from a state finds in a model. -/
def solutionOf (solver : Solver ℚ) (m : Model ℚ) (x : State ℚ) (child noise : Datum ℚ) :
    Option (Solution ℚ) :=
  (Model.solve solver child x noise true).found m

variable {m₀ m : Model ℚ} {solver : Solver ℚ}

/-- A solve finds what solving the node of the index finds. -/
theorem found_solve (m : Model ℚ) (solver : Solver ℚ) (index : Datum ℚ) (x : State ℚ)
    (noise : Datum ℚ) (needsDuals : Bool) :
    (Model.solve solver index x noise needsDuals).found m =
      (m.node index).toOption.bind (Node.solve solver m.sense x noise needsDuals).found := by
  show (onNode index (Node.solve solver m.sense x noise needsDuals)).found m = _
  unfold Action.found onNode
  cases m.node index with
  | error e => rfl
  | ok n =>
    simp only [Except.toOption, Option.bind_some]
    cases Node.solve solver m.sense x noise needsDuals n <;> rfl

section Operating

variable (hblank : ∀ index start, m₀.nodes.get? index = some start → start.Blank)
  (hm : m₀.Throughout (fun _ start n => Node.Operating solver m₀.sense start n) m)

include hblank hm

theorem inspected_of_operating : m₀.Inspected m m :=
  inspected_self ⟨hm.declaration, fun index start n hs hn =>
    ((hm.node index start n hs hn).used_backed (hblank index start hs)).1⟩

/-- However often nodes of a model in use were solved, a solve finds the same as before, or fails as
before. -/
theorem settles_solve (hsolver : solver.IgnoresOrder) (index : Datum ℚ) (x : State ℚ)
    (noise : Datum ℚ) (needsDuals : Bool) :
    Settles (m₀.Inspected m) (Model.solve solver index x noise needsDuals)
      ((Model.solve solver index x noise needsDuals).found m) := by
  refine .of_completes (completes_inspected solver hblank m index noise x needsDuals) fun t ht => ?_
  have related : m₀.Related (fun _ => Node.Paired m₀.sense) m t := by
    refine ⟨hm.declaration, ht.declaration, fun index start n n' hs hn hn' => ?_⟩
    obtain ⟨used, backed⟩ := (hm.node index start n hs hn).used_backed (hblank index start hs)
    have abreast : Node.Abreast m₀.sense start False n n' :=
      (ht.node index start n' hs hn' n hn).abreast used backed False.elim
    exact abreast.paired
  exact ((echo_paired hblank hsolver).solve index x noise needsDuals).found_eq
    (fun _ _ _ _ => And.left) related

end Operating

end Model

namespace Session

variable {m₀ : Model ℚ} {edges : List (Edge ℚ)} {solver : Solver ℚ}
  {find : Datum ℚ → Datum ℚ → Option (Solution ℚ)}

/-- The solutions for the outcomes of a step, if all of them are found. -/
def foundChildren (m : Model ℚ) (edges : List (Edge ℚ))
    (find : Datum ℚ → Datum ℚ → Option (Solution ℚ)) :
    Option (List (ChildSolution ℚ)) :=
  (outcomes m edges).toOption.bind fun steps => steps.mapM fun step =>
    (find step.1 step.2.1.term).bind fun s => some ⟨step.1, step.2.1, step.2.2, s⟩

/-- Solving all children finds what the solves find one by one. -/
theorem settles_solveChildren {σ : Type} {I : σ → Prop} {model : σ → Model ℚ}
    {solve : Datum ℚ → Datum ℚ → Action ℚ σ (Solution ℚ)}
    (hdecl : ∀ s, I s → (model s).declaration = m₀.declaration)
    (hsolve : ∀ child noise, Settles I (solve child noise) (find child noise)) :
    Settles I (solveChildren edges model solve) (foundChildren m₀ edges find) := by
  refine .get_bind fun s hs => ?_
  rw [foundChildren, ← Model.outcomes_declaration (model s), hdecl s hs, Model.outcomes_declaration]
  exact .bind (.ofExcept _) fun steps _ => .mapM fun step _ => .bind (hsolve _ _) fun _ _ => .pure

/-- The bound weighs what the solves of the children of the root find one by one. -/
theorem settles_bound {I : Model ℚ → Prop} (hdecl : ∀ m, I m → m.declaration = m₀.declaration)
    {x : State ℚ}
    (hsolve : ∀ child noise, Settles I (Model.solve solver child x noise true) (find child noise))
    (measure : Measure ℚ) :
    Settles (fun s : Session ℚ => I s.model) (bound solver x measure)
      ((foundChildren m₀ m₀.rootChildren find).bind fun results =>
        (measure.value m₀.sense (results.map (·.probability))
          (results.map (·.solution.objective))).toOption) := by
  refine .get_bind fun s hs => ?_
  simp only [Model.rootChildren_of_declaration_eq (hdecl _ hs),
    Model.sense_of_declaration_eq (hdecl _ hs)]
  refine .bind (settles_solveChildren (fun s hs => hdecl _ hs) fun child noise =>
    .focus (hsolve child noise) (fun _ => id) fun _ _ _ => id) fun results _ => ?_
  have weighed : ∀ x : Except (Failure ℚ) (List ℚ), ∀ f : List ℚ,
      (x >>= fun q => pure (Scalar.dot q f)).toOption = x.toOption.bind fun q =>
      some (Scalar.dotInLanes f q) := by
    intro x f
    cases x with
    | error e => rfl
    | ok q => exact congrArg some (by rw [Scalar.dotInLanes_eq_dot, Scalar.dot_comm])
  rw [Measure.value, weighed]
  exact .bind (.ofExcept _) fun q _ => .pure

/-- The bound of a model in use. -/
theorem found_bound (hblank : ∀ index start, m₀.nodes.get? index = some start → start.Blank)
    {s : Session ℚ}
    (hs : m₀.Throughout (fun _ start n => Node.Operating solver m₀.sense start n) s.model)
    (hsolver : solver.IgnoresOrder) (x : State ℚ) (measure : Measure ℚ) :
    (bound solver x measure).found s =
      (foundChildren m₀ m₀.rootChildren (s.model.solutionOf solver x)).bind fun results =>
        (measure.value m₀.sense (results.map (·.probability))
          (results.map (·.solution.objective))).toOption :=
  (settles_bound (fun u (hu : m₀.Inspected s.model u) => hu.declaration)
    (fun child noise => Model.settles_solve hblank hs hsolver child x noise true) measure).found_eq
      (Model.inspected_of_operating hblank hs)

end Session

end Multistage
