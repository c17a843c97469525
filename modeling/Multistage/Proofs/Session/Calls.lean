import Multistage.Proofs.Training.Keeping

/-!
# The calls of a session

A model is used by training it, by asking for bounds, by simulating and by pruning nodes, in any
order. Calls that fail leave what they have done so far.

## Main definitions

- `Call`: a call.
- `Session.after`: the session after a call, and after a list of calls.

## Main statements

- `Session.after_keeps`, `Session.afterAll_keeps`: what solving, pruning and the refinement of
  visited nodes keep is kept by all calls.
-/

namespace Multistage

/-- A call of a session. -/
inductive Call (α : Type) where
  | train (budget : ℕ) (request : TrainingRequest α)
  | bound (state : State α) (measure : Measure α)
  | simulate (names : List Name) (recorders : List (Name × Recorder α)) (replications : ℕ)
      (scheme : Scheme α)
  | prune (index : Datum α)

namespace Session

variable {α : Type} [Scalar α] {solver : Solver α} {I : Model α → Prop}
  {R : Bool → Datum α → Datum α → State α → Solution α → Prop} {P : State α → Prop}

/-- The session after a call. -/
def after (solver : Solver α) (s : Session α) : Call α → Session α
  | .train budget request => (train solver budget request s).session
  | .bound state measure => (bound solver state measure).final s
  | .simulate names recorders replications scheme =>
    (simulate solver names recorders replications scheme).final s
  | .prune index => (onModel (Model.onNode index Node.prune)).final s

/-- The session after calls. -/
def afterAll (solver : Solver α) (s : Session α) (calls : List (Call α)) : Session α :=
  calls.foldl (after solver) s

/-- Training from a session keeps a property of the model, where visited nodes are refined at states
with a property. -/
def TrainingKeeps (solver : Solver α) (I : Model α → Prop) (P : State α → Prop)
    (request : TrainingRequest α) : Prop :=
  ∀ session options run, I session.model → TrainingOptions.check request = .ok options →
    Run.start session options = .ok run → ∀ index state, P state →
      Action.Ensures (Run.Keeping I run.settings) (Run.refineAt solver index (state : State α))
        fun _ => True

theorem after_keeps (hsolve : Model.Keeps solver I R)
    (hleft : ∀ index noise state s, R false index noise state s → P s.outgoing)
    {s : Session α} (h : I s.model) (call : Call α)
    (hprune : ∀ index, call = .prune index →
      Action.Ensures I (Model.onNode index Node.prune) fun _ => True)
    (htrain : ∀ budget request, call = .train budget request → TrainingKeeps solver I P request) :
    I (after solver s call).model := by
  cases call with
  | train budget request =>
    exact train_keeps h hsolve hleft (htrain budget request rfl s · · h)
  | bound state measure => exact (ensures_bound hsolve state measure).final h
  | simulate names recorders replications scheme =>
    exact (ensures_simulate hsolve names recorders replications scheme).final h
  | prune index =>
    have pruned : Action.Ensures (fun s : Session α => I s.model)
        (onModel (Model.onNode index Node.prune)) fun _ => True :=
      .focus (hprune index rfl) (fun _ => id) fun _ _ _ => id
    exact pruned.final h

/-- What a call keeps is kept by all calls. -/
theorem afterAll_keeps (hsolve : Model.Keeps solver I R)
    (hleft : ∀ index noise state s, R false index noise state s → P s.outgoing)
    {calls : List (Call α)}
    (hprune : ∀ index, .prune index ∈ calls →
      Action.Ensures I (Model.onNode index Node.prune) fun _ => True)
    (htrain : ∀ budget request, .train budget request ∈ calls → TrainingKeeps solver I P request)
    {s : Session α} (h : I s.model) : I (afterAll solver s calls).model := by
  induction calls generalizing s with
  | nil => exact h
  | cons call rest ih =>
    refine ih (fun index hmem => hprune index (List.mem_cons_of_mem _ hmem))
      (fun budget request hmem => htrain budget request (List.mem_cons_of_mem _ hmem)) ?_
    refine after_keeps hsolve hleft h call ?_ ?_
    · rintro index rfl
      exact hprune index List.mem_cons_self
    · rintro budget request rfl
      exact htrain budget request List.mem_cons_self

end Session

end Multistage
