import Multistage.Proofs.Sampling.Drawing
import Multistage.Proofs.Training.Passages
import Multistage.Proofs.Training.Resuming

/-!
# Starting states

A forward pass changes the starting states of nodes in two ways: when it enters a node that has
some, its own state is offered to them and one of them is taken in exchange, and when its walk was
cut short, the state in which it ended is offered to those of the last node. A state that is offered
is put at the end of a list if it is far from all that are there.

## Main definitions

- `Run.Offered`, `Run.Entered`: what becomes of the starting states.
- `Run.PassesThrough`, `Run.Passed`: the passages of the pass that begins in a run, and what it
  leaves.
- `Run.Course`: forward passes one after the other, and the runs in which they began.

## Main statements

- `Run.step_keeps`, `Run.forward_ends`: what entering a node keeps is kept by a pass until it ends.
-/

namespace Multistage

open Multistage.Action (Ends Ensures Triple)

variable {α : Type} [Scalar α] {solver : Solver α}

namespace Run

/-- The starting states of every node. -/
abbrev Cache (α : Type) := Dict (Datum α) (List (State α))

/-- The starting states after a state was offered to those of a node. -/
inductive Offered (settings : PassSettings α) (index : Datum α) (state : State α) (c : Cache α) :
    Cache α → Prop
  | near : Offered settings index state c c
  | far {states : List (State α)} {distance : Extended α} (found : c.get? index = some states)
      (measured : distanceTo states state = .ok distance)
      (exceeds : settings.distance.lt (distance.bind Scalar.exact) = true) :
      Offered settings index state c (c.modify index (· ++ [state]))

/-- The starting states after a node was entered in a state. -/
inductive Entered (settings : PassSettings α) (index : Datum α) (state : State α) (c : Cache α) :
    Cache α → Prop
  | untouched : Entered settings index state c c
  | exchanged {c' : Cache α} {states : List (State α)} {i : ℕ}
    (offered : Offered settings index state c c')
      (found : c'.get? index = some states) (inside : i < states.length) :
      Entered settings index state c (c'.modify index (·.eraseIdx i))

variable {r r' : Run α} {index : Datum α} {state : State α} {settings : PassSettings α}
  {c : Cache α}

theorem startingStates_ends : Ends (fun states r' => r.starting.get? index = some states ∧ r' = r)
    (fun _ r' => r' = r) (startingStates index r) := by
  rw [startingStates, Action.get_bind_eq]
  exact Ends.ofOption.imp (fun _ _ => id) fun _ _ h => h.2.2

theorem startingStates_of_found {states : List (State α)}
    (found : r.starting.get? index = some states) :
    startingStates index r = .ok states r := by
  rw [startingStates, Action.get_bind_eq, found]
  rfl

/-- A state is offered to the starting states of a node, and nothing else changes. -/
theorem addStarting_ends :
    Ends (fun _ r' => Offered r.settings index state r.starting r'.starting ∧
      r' = { r with starting := r'.starting })
      (fun _ r' => r' = r) (addStarting index state r) := by
  refine startingStates_ends.bind ?_
  rintro states _ ⟨found, rfl⟩
  refine (Ends.ofExcept.imp (fun _ _ => id) fun _ _ => And.right).bind ?_
  rintro distance _ ⟨measured, rfl⟩
  rw [Action.get_bind_eq]
  split
  next hfar => exact ⟨.far found measured hfar, rfl⟩
  next => exact ⟨.near, rfl⟩

/-- Offering a state keeps the nodes that have a list. -/
theorem Offered.exists_get? {c' : Cache α} (h : Offered settings index state c c')
    {states : List (State α)} (hs : c.get? index = some states) :
    ∃ states', c'.get? index = some states' ∧ states.length ≤ states'.length := by
  cases h with
  | near => exact ⟨states, hs, le_rfl⟩
  | far found measured exceeds =>
    refine ⟨states ++ [state], ?_, by simp⟩
    rw [Dict.get?_modify, if_pos BEq.rfl, hs]
    rfl

/-- Take one of the starting states of a node, which loses it. -/
def takeStarting (index : Datum α) : Action α (Run α) (State α) := do
  let states ← startingStates index
  let i ← onSession (Session.onDraws (chooseBelow states.length))
  modify fun r => { r with starting := r.starting.modify index fun states => states.eraseIdx i }
  Action.ofOption .indexOutOfRange states[i]?

/-- A node without starting states is entered in the state of the walk; otherwise the state is
offered, and one of the starting states is taken. -/
theorem enteringState_eq (index : Datum α) (state : State α) :
    enteringState index state = startingStates index >>= fun states =>
      if states.isEmpty then pure state else addStarting index state >>= fun _ =>
          takeStarting index := rfl

/-- Of starting states one is taken, unless there is no draw. -/
theorem takeStarting_ends {states : List (State α)} (found : r.starting.get? index = some states)
    (positive : 0 < states.length) :
    Ends (fun _ r' => ∃ i < states.length, r'.starting = r.starting.modify index (·.eraseIdx i) ∧
      r'.settings = r.settings) (fun e _ => e = .drawsExhausted) (takeStarting index r) := by
  rw [takeStarting, Action.bind_of_ok (startingStates_of_found found)]
  have chosen : Ends (fun i r' => i < states.length ∧ ∃ s, r' = { r with session := s })
      (fun e _ => e = .drawsExhausted)
      (onSession (Session.onDraws (chooseBelow states.length)) r) :=
    Ends.imp (Ends.focus (Ends.focus (chooseBelow_ends positive r.session.draws)))
      (fun _ _ ⟨s, ⟨_, inside, _⟩, hr'⟩ => ⟨inside, s, hr'⟩) fun _ _ ⟨_, ⟨_, he, _⟩, _⟩ => he
  refine chosen.bind ?_
  rintro i _ ⟨inside, s, rfl⟩
  rw [List.getElem?_eq_getElem inside]
  exact ⟨i, inside, rfl, rfl⟩

/-- What entering a node does to the starting states. If the draws do not run out, a failure to
enter it changes nothing. -/
theorem enteringState_ends :
    Ends (fun _ r' => Entered r.settings index state r.starting r'.starting ∧
      r'.settings = r.settings)
      (fun e r' => e ≠ .drawsExhausted → r' = r) (enteringState index state r) := by
  rw [enteringState_eq]
  refine Ends.bind (startingStates_ends.imp (fun _ _ => id) fun _ _ hr _ => hr) ?_
  rintro states _ ⟨found, rfl⟩
  split
  · exact ⟨.untouched, rfl⟩
  next hsome =>
    refine Ends.bind (addStarting_ends.imp (fun _ _ => id) fun _ _ hr _ => hr) ?_
    rintro _ r₁ ⟨offered, hr₁⟩
    obtain ⟨states₁, found₁, hle⟩ := offered.exists_get? found
    have positive : 0 < states₁.length :=
      (List.length_pos_iff.2 (by simpa using hsome)).trans_le hle
    refine (takeStarting_ends found₁ positive).imp ?_ fun _ _ he hnot => absurd he hnot
    rintro _ r' ⟨i, inside, hstarting, hsettings⟩
    rw [hstarting]
    exact ⟨.exchanged offered found₁ inside, hsettings.trans (congrArg (·.settings) hr₁)⟩

theorem offerLast_ends (cutShort : Bool) (last? : Option (Passage α)) :
    Ends (fun _ r' => r' = r ∨ ∃ p, cutShort = true ∧ last? = some p ∧
      Offered r.settings p.visit.node p.solution.outgoing r.starting r'.starting ∧
      r'.settings = r.settings)
      (fun _ r' => r' = r) (offerLast cutShort last? r) := by
  unfold offerLast
  split
  next p =>
    exact addStarting_ends.imp (fun _ _ h => .inr ⟨p, rfl, rfl, h.1, congrArg (·.settings) h.2⟩)
      fun _ _ => id
  next => exact .inl rfl

/-! ### Forward passes -/

/-- The forward pass that begins in the run follows a scenario, and the `k`-th of its passages is
given. -/
def PassesThrough (solver : Solver α) (r : Run α) (scenario : Scenario α) (k : ℕ)
    (p : Passage α) : Prop :=
  ∃ r', sampleScenario r = .ok scenario r' ∧
    (travel (step solver) scenario.path r'.settings.initial r').1[k]? = some p

/-- A pass passes through the nodes of its scenario. -/
theorem PassesThrough.visit {scenario : Scenario α} {k : ℕ} {p : Passage α}
    (h : r.PassesThrough solver scenario k p) :
    r.nextScenario = .ok scenario ∧ scenario.path[k]? = some p.visit := by
  obtain ⟨r₁, sampled, passage⟩ := h
  exact ⟨(triple_sampleScenario.ok ⟨⟨rfl, rfl, rfl⟩, rfl⟩ sampled).1, visit_of_travel passage⟩

/-- The starting states of a run have a property, and its settings are given ones. -/
def Caching (I : Cache α → Prop) (settings : PassSettings α) (r : Run α) : Prop :=
  I r.starting ∧ r.settings = settings

/-- Solving a node keeps the starting states. -/
theorem caching_solve (solver : Solver α) {I : Cache α → Prop} (index : Datum α) (state : State α)
    (noise : Datum α) (needsDuals : Bool) :
    Ensures (Caching I settings) (solve solver index state noise needsDuals) fun _ => True :=
  ensures_timed_of_retimed (fun _ _ _ => id) _
    (.bind (ensures_heed fun _ _ => id) fun _ _ => .elsewhere _ fun _ _ => id)

/-- Sampling a scenario keeps the starting states. -/
theorem caching_sampleScenario {I : Cache α → Prop} :
    Ensures (Caching I settings) (sampleScenario (α := α)) fun _ => True :=
  ensures_timed_of_retimed (fun _ _ _ => id) _
    (.bind (ensures_heed fun _ _ => id) fun _ _ => .bind .get fun _ _ =>
      .bind (.elsewhere _ fun _ _ => id) fun _ _ => .bind (.modify fun _ => id) fun _ _ =>
        .pure trivial)

/-- A run after the forward pass that began in `r`: the starting states have a property or, if the
walk was cut short, the state in which it ended was then offered to those of the last node. -/
def Passed (solver : Solver α) (I : Cache α → Prop) (settings : PassSettings α)
    (r r' : Run α) : Prop :=
  r'.settings = settings ∧ ∃ c, I c ∧ (r'.starting = c ∨
    ∃ scenario k p, r.PassesThrough solver scenario k p ∧ scenario.cutShort = true ∧
      k + 1 = scenario.path.length ∧
      Offered settings p.visit.node p.solution.outgoing c r'.starting)

section Keeping

variable {I : Cache α → Prop} {Arrives : Datum α → State α → Prop}
  (henter : ∀ {index state c c'}, Arrives index state → Entered settings index state c c' →
    I c → I c')

include henter

/-- What entering a node keeps is kept by a step, if the state arrives in which it begins. -/
theorem step_keeps (visit : Visit α) (state : State α) (r : Run α)
    (harrives : Arrives visit.node state) (hr : r.Caching I settings) :
    Action.Ends (fun _ => Caching I settings)
      (fun e r' => e ≠ .drawsExhausted → r'.Caching I settings)
      (step solver visit state r) := by
  rw [step, Action.get_bind_eq]
  refine (Ends.ofExcept.imp (R := fun _ t => t = r) (fun _ _ => And.right) fun _ _ ht _ =>
    ht.2 ▸ hr).bind ?_
  rintro _ _ rfl
  refine (enteringState_ends.imp (R := fun _ => Caching I settings) ?_ fun _ _ ht he =>
    ht he ▸ hr).bind ?_
  · exact fun _ t ht => ⟨henter harrives (hr.2 ▸ ht.1) hr.1, ht.2.trans hr.2⟩
  · intro entering t ht
    have solved := (caching_solve solver visit.node entering visit.noise false).ends ht
    exact Ends.bind (solved.imp (fun _ _ => And.left) fun _ _ ht _ => ht) fun _ _ => id

section

variable (hr : r.Caching I settings)
  (hhead : ∀ scenario, r.nextScenario = .ok scenario → ∀ visit ∈ scenario.path.head?,
    Arrives visit.node settings.initial)
  (hnext : ∀ scenario k p next,
    r.PassesThrough solver scenario k p → scenario.path[k + 1]? = some next →
    Arrives next.node p.solution.outgoing)

include hr hhead hnext

/-- What entering a node keeps is kept by a forward pass until it ends. -/
theorem forward_ends :
    Ends (fun _ => r.Passed solver I settings)
      (fun e r' => e ≠ .drawsExhausted → r'.Caching I settings)
      (forward solver r) := by
  cases sampled : sampleScenario r with
  | error e r₁ =>
    rw [forward, Action.bind_eq_error.2 (.inl sampled)]
    exact fun _ => caching_sampleScenario.error hr sampled
  | ok scenario r₁ =>
    obtain ⟨hr₁, -⟩ := caching_sampleScenario.ok hr sampled
    have found := (triple_sampleScenario.ok ⟨⟨rfl, rfl, rfl⟩, rfl⟩ sampled).1
    have walked := travel_keeps (step_keeps henter) hr₁ (hr₁.2 ▸ hhead scenario found)
      fun k p next passage => hnext scenario k p next ⟨r₁, sampled, passage⟩
    cases hpass : travel (step solver) scenario.path r₁.settings.initial r₁ with
    | mk passages ended =>
      rw [hpass] at walked
      cases ended with
      | error e r₂ =>
        rw [forward_of_travel_error sampled hpass]
        exact walked
      | ok _ r₂ =>
        rw [forward_of_travel sampled hpass]
        refine Ends.bind ((offerLast_ends _ _).imp ?_ fun _ _ hr₃ _ => hr₃ ▸ walked) fun _ _ => id
        rintro _ r' (rfl | ⟨p, hcut, hlast, offered, same⟩)
        · exact ⟨walked.2, _, walked.1, .inl rfl⟩
        have through : r.PassesThrough solver scenario (passages.length - 1) p := by
          refine ⟨r₁, sampled, ?_⟩
          rw [hpass, ← List.getLast?_eq_getElem?]
          exact hlast
        have length := length_of_travel hpass
        have positive := List.length_pos_of_mem (List.mem_of_getLast? hlast)
        exact ⟨same.trans walked.2, r₂.starting, walked.1,
          .inr ⟨scenario, _, p, through, hcut, by omega, walked.2 ▸ offered⟩⟩

theorem forward_keeps (hdraws : ∀ t, forward solver r ≠ .error .drawsExhausted t) :
    r.Passed solver I settings ((forward solver).final r) := by
  have ends := forward_ends henter hr hhead hnext
  unfold Action.final
  cases hrun : forward solver r with
  | ok result r' =>
    rw [hrun] at ends
    exact ends
  | error e r' =>
    rw [hrun] at ends
    obtain ⟨hI, hsettings⟩ := ends fun he => hdraws r' (he ▸ hrun)
    exact ⟨hsettings, _, hI, .inl rfl⟩

end

end Keeping

/-! ### Passes one after the other -/

/-- Forward passes on a run that was started on a session, and the runs in which they began. The
draws do not run out. Between the passes whatever may happen that keeps the starting states, the
settings and what the model declares. -/
inductive Course (solver : Solver α) (session : Session α) (options : TrainingOptions α) :
    List (Run α) → Run α → Prop
  | start {r : Run α}
    (starts : Run.start session options = .ok r) : Course solver session options [] r
  | forward {passes : List (Run α)} {r : Run α} (before : Course solver session options passes r)
      (draws : ∀ t, Run.forward solver r ≠ .error .drawsExhausted t) :
      Course solver session options (passes ++ [r]) ((Run.forward solver).final r)
  | between {passes : List (Run α)} {r r' : Run α} (before : Course solver session options passes r)
      (starting : r'.starting = r.starting) (settings : r'.settings = r.settings)
      (declaration : r'.session.model.declaration = r.session.model.declaration) :
      Course solver session options passes r'

variable {session : Session α} {options : TrainingOptions α} {passes : List (Run α)}

/-- A run starts without starting states, from the state at the root, with the scheme and the
patience of its options. -/
theorem starting_of_start (h : Run.start session options = .ok r) :
    r.starting = session.model.nodes.mapValues (fun _ _ => []) ∧
      r.settings.initial = session.model.initial ∧ r.scheme = options.scheme ∧
      r.patience = options.patience := by
  obtain ⟨_, -, h⟩ := Except.bind_eq_ok.1 h
  obtain ⟨_, -, h⟩ := Except.bind_eq_ok.1 h
  cases h
  exact ⟨rfl, rfl, rfl, rfl⟩

/-- All passes share the settings of the run. -/
theorem Course.settings_eq (h : Course solver session options passes r) {r₀ : Run α}
    (hstart : Run.start session options = .ok r₀) : r.settings = r₀.settings := by
  induction h with
  | start starts =>
    cases hstart.symm.trans starts
    rfl
  | @forward passes r before draws ih =>
    have entering : ∀ {index : Datum α} {state : State α} {c c' : Cache α}, True →
        Entered r₀.settings index state c c' → True → True := fun _ _ _ => trivial
    exact (forward_keeps entering ⟨trivial, ih⟩ (fun _ _ _ _ => trivial)
      (fun _ _ _ _ _ _ => trivial) draws).1
  | between _ _ settings _ ih => exact settings.trans ih

/-- The run that the passes share was started. -/
theorem Course.exists_start (h : Course solver session options passes r) :
    ∃ r₀, Run.start session options = .ok r₀ := by
  induction h with
  | start starts => exact ⟨_, starts⟩
  | forward _ _ ih => exact ih
  | between _ _ _ _ ih => exact ih

/-- What the model declares stays. -/
theorem Course.declaration_eq (h : Course solver session options passes r) :
    r.session.model.declaration = session.model.declaration := by
  induction h with
  | start starts => rw [(start_eq_ok starts).1]
  | @forward passes r before draws ih =>
    have kept : Ensures (Keeping (fun m => m.declaration = session.model.declaration) r.settings)
        (Run.forward solver) fun result => ∀ x ∈ result.states, True :=
      ensures_forward Model.keeps_declaration fun _ _ _ _ _ => trivial
    exact (kept.final ⟨ih, rfl⟩).1
  | between _ _ _ declaration ih => exact declaration.trans ih

/-- A backward pass may stand between forward passes. -/
theorem Course.backward (h : Course solver session options passes r) (path : List (Visit α))
    (states : List (State α)) :
    Course solver session options passes ((backward solver path states).final r) := by
  have carries :
      Carries r.scheme r.starting r.settings ((Run.backward solver path states).final r) :=
    (carries_backward path states).final ⟨rfl, rfl, rfl⟩
  have declared : Keeping (fun m => m.declaration = r.session.model.declaration) r.settings
      ((Run.backward solver path states).final r) :=
    (ensures_backward (P := fun _ => True)
      (fun index state _ => declaration_refineAt index state) path
      fun _ _ => trivial).final ⟨rfl, rfl⟩
  exact .between h carries.starting carries.settings declared.1

end Run

end Multistage
