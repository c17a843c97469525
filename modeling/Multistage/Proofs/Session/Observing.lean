import Multistage.Proofs.Model.Throughout
import Multistage.Proofs.Node.Abreast
import Multistage.Proofs.Session.Related
import Multistage.Proofs.Training.Completion

/-!
# Calls that observe

Bounds and simulations solve the nodes of a model and change no cut. A model on which they answered
goes on like the model before that, but for the last optimal values of its nodes.

## Main definitions

- `Model.Abreast`: models whose nodes are abreast.
- `Session.Observes`: bounds and simulations that answer.

## Main statements

- `Model.lockstep_abreast`: what is done to models that are abreast is done alike.
- `Session.Observes.abreast`: the models before and after calls that observe.
-/

namespace Multistage

open Multistage.Action (InStep Parallel)

namespace Model

/-- Models with nodes that are abreast, and that are judged alike on a set of nodes. -/
structure Abreast (m₀ : Model ℚ) (S : Set (Datum ℚ)) (m m' : Model ℚ) : Prop where
  left : m.declaration = m₀.declaration
  right : m'.declaration = m₀.declaration
  node : ∀ index start n n', m₀.nodes.get? index = some start → m.nodes.get? index = some n →
    m'.nodes.get? index = some n' → Node.Abreast m₀.sense start (index ∈ S) n n'

variable {m₀ m m' : Model ℚ} {S S' : Set (Datum ℚ)} {index : Datum ℚ} {solver : Solver ℚ}

theorem hereditary_abreast (m₀ : Model ℚ) : Action.Hereditary m₀.Abreast := fun _ _ hS _ _ h =>
  { h with
    node := fun index start n n' hs hn hn' => (h.node index start n n' hs hn hn').mono
      fun hi => hS hi }

theorem abreast_iff_related : m₀.Abreast S m m' ↔
    m₀.Related (fun index start => Node.Abreast m₀.sense start (index ∈ S)) m m' :=
  ⟨fun h => ⟨h.left, h.right, h.node⟩, fun h => ⟨h.left, h.right, h.node⟩⟩

/-- Acting alike on the nodes of an index. -/
theorem parallel_onNode {τ : Type} {act : Action ℚ (Node ℚ) τ} (h : m₀.Abreast S m m')
    (hact : ∀ start n n',
      m₀.nodes.get? index = some start → Node.Abreast m₀.sense start (index ∈ S) n n' →
      Parallel (fun a b => a = n ∧ b = n') act act
        (fun b b' r r' => b = b' ∧ Node.Abreast m₀.sense start True r r')
        fun e e' r r' => e.Alike e' ∧ Node.Abreast m₀.sense start False r r') :
    Parallel (fun a b => a = m ∧ b = m') (onNode index act) (onNode index act)
      (fun b b' t t' => b = b' ∧ m₀.Abreast (insert index S) t t')
      fun e e' t t' => e.Alike e' ∧ m₀.Abreast ∅ t t' := by
  have others : ∀ j start k k', (index == j) = false → Node.Abreast m₀.sense start (j ∈ S) k k' →
      Node.Abreast m₀.sense start (j ∈ insert index S) k k' := by
    intro j start k k' hij hk
    refine hk.mono fun hj => hj.resolve_left ?_
    rintro rfl
    exact absurd BEq.rfl (Bool.eq_false_iff.1 hij)
  simp only [abreast_iff_related] at h ⊢
  refine h.parallel_onNode .refl (fun _ _ _ _ hk => hk.mono False.elim) others
    fun start n n' hs hn => ?_
  refine (hact start n n' hs hn).consequence (fun _ _ => id) (fun b b' r r' hr => ?_)
    fun e e' r r' hr => ?_
  · exact ⟨hr.1, hr.2.left.declaration.trans hn.left.declaration.symm,
      hr.2.right.declaration.trans hn.right.declaration.symm, fun _ _ => hr.2.mono fun _ => trivial⟩
  · exact ⟨hr.1, hr.2.left.declaration.trans hn.left.declaration.symm,
      hr.2.right.declaration.trans hn.right.declaration.symm, fun _ _ => hr.2.mono False.elim⟩

/-- What is done to models that are abreast is done alike. -/
theorem lockstep_abreast (hblank : ∀ index start, m₀.nodes.get? index = some start → start.Blank)
    (hsolver : solver.IgnoresOrder) : Lockstep solver m₀.Abreast Failure.Alike where
  hereditary := hereditary_abreast m₀
  refl := .refl
  declaration h := h.right.trans h.left.symm
  solve S index state noise needsDuals := by
    refine Parallel.get_bind fun m m' h => ?_
    rw [sense_of_declaration_eq h.left, sense_of_declaration_eq h.right]
    exact parallel_onNode h fun start n n' hs hn =>
      hn.parallel_solve hsolver (hblank index start hs) state noise needsDuals
  refine S index hindex sense measure state duals probabilities objectives := by
    refine Parallel.of_forall ?_
    rintro m m' ⟨h, rfl⟩
    rw [sense_of_declaration_eq h.left]
    refine (parallel_onNode h fun start n n' hs hn => ?_).consequence (fun _ _ => id) ?_
      fun _ _ _ _ => id
    · refine (hn.parallel_refine hindex measure state duals probabilities objectives).consequence
        (fun _ _ => id) ?_ ?_
      · exact fun _ _ r r' hr => ⟨rfl, hr.mono fun _ => hindex⟩
      · rintro e e' r r' ⟨rfl, hr⟩
        exact ⟨.refl e, hr.mono False.elim⟩
    · rintro _ _ t t' ⟨-, ht⟩
      rwa [Set.insert_eq_of_mem hindex] at ht

/-! ### Solves that answer -/

/-- Every node was solved since it was a node of the model `m₁`, and nothing else. -/
def Inspected (m₀ m₁ : Model ℚ) : Model ℚ → Prop :=
  m₀.Throughout fun index start n => ∀ n₁, m₁.nodes.get? index = some n₁ →
  Node.Inspected m₀.sense start n₁ n

variable (solver) in
theorem completes_inspected (hblank : ∀ index start, m₀.nodes.get? index = some start → start.Blank)
    (m₁ : Model ℚ) :
    Completes solver (m₀.Inspected m₁) fun _ _ _ _ _ => True := by
  refine fun index noise x needsDuals => Action.Triple.get_bind fun m hm => ?_
  rw [sense_of_declaration_eq hm.declaration]
  refine (completes_onNode (fun _ => Node.declaration_solve solver _ x noise _) fun j start _ hs =>
    .of_ok fun n answer n' hn hrun => ⟨fun n₁ hn₁ => ?_, trivial⟩).startingAt hm
  exact ((Node.completes_inspected (hblank j start hs) x noise needsDuals).ok (hn n₁ hn₁) hrun).1

/-- A model in use to which nothing was done. -/
theorem inspected_self (hm : m₀.Throughout (fun _ start n => Node.Used m₀.sense start [] n) m) :
    m₀.Inspected m m := by
  refine ⟨hm.declaration, fun index start n hs hn n₁ hn₁ => ?_⟩
  cases hn.symm.trans hn₁
  exact ⟨hm.node index start n hs hn, .refl start n, fun _ => rfl⟩

end Model

namespace Session

variable {solver : Solver ℚ} {m₀ : Model ℚ} {s s' : Session ℚ}

/-- Bounds and simulations that answer lead from one session to the other. -/
inductive Observes (solver : Solver ℚ) (s : Session ℚ) : Session ℚ → Prop
  | start : Observes solver s s
  | bound {t u : Session ℚ} {state : State ℚ} {measure : Measure ℚ} {v : ℚ}
    (before : Observes solver s t)
      (run : Session.bound solver state measure t = .ok v u) : Observes solver s u
  | simulate {t u : Session ℚ} {names : List Name} {recorders : List (Name × Recorder ℚ)}
    {replications : ℕ}
      {scheme : Scheme ℚ} {records : List (List (VisitRecord ℚ))} (before : Observes solver s t)
      (run : Session.simulate solver names recorders replications scheme t = .ok records u) :
      Observes solver s u

/-- Observing a model in use solves its nodes, and does nothing else to them. -/
theorem Observes.inspected (hblank : ∀ index start, m₀.nodes.get? index = some start → start.Blank)
    (hs : m₀.Throughout (fun _ start n => Node.Used m₀.sense start [] n) s.model)
    (h : Observes solver s s') :
    m₀.Inspected s.model s'.model := by
  have solved := Model.completes_inspected solver hblank s.model
  induction h with
  | start => exact Model.inspected_self hs
  | bound before run ih => exact ((completes_bound solved _ _).ok ih run).1
  | simulate before run ih => exact ((completes_simulate solved _ _ _ _).ok ih run).1

/-- The models before and after calls that observe are abreast. They are judged alike on nodes
without a tolerance, and on those whose last optimal value is still the same. -/
theorem Observes.abreast (hblank : ∀ index start, m₀.nodes.get? index = some start → start.Blank)
    (hs : m₀.Throughout (fun _ start n =>
      Node.Used m₀.sense start [] n ∧ Node.Backed m₀.sense start.rowCount n) s.model)
    (h : Observes solver s s') {S : Set (Datum ℚ)}
    (hS : ∀ index ∈ S, ∀ n n',
      s.model.nodes.get? index = some n → s'.model.nodes.get? index = some n' →
      n.cuts.settings.improvement ≤ 0 ∨
      n'.stage.subproblem.optimum? = n.stage.subproblem.optimum?) :
    m₀.Abreast S s.model s'.model := by
  have used : m₀.Throughout (fun _ start n => Node.Used m₀.sense start [] n) s.model :=
    ⟨hs.declaration, fun index start n hstart hn => (hs.node index start n hstart hn).1⟩
  have inspected := h.inspected hblank used
  refine ⟨hs.declaration, inspected.declaration, fun index start n n' hstart hn hn' => ?_⟩
  obtain ⟨used, backed⟩ := hs.node index start n hstart hn
  exact (inspected.node index start n' hstart hn' n hn).abreast used backed fun hi =>
    hS index hi n n' hn hn'

end Session

end Multistage
