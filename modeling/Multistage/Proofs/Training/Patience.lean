import Multistage.Training.Pass
import Multistage.Proofs.Action

/-!
# Steps before which the user may stop a run

Before every step a run looks whether the user stops it. Looking changes nothing but the number of
steps that are left, so a run that is not stopped does what it would do if nobody could stop it.

## Main definitions

- `Run.Performs`: an action of a run that answers does what an action of its session does.

## Main statements

- `Run.heed_eq_ok`, `Run.heed_eq_error`: the two ends of a look.
- `Run.heed_of_patience`: a look at a run that is never stopped.
- `Run.ensures_heed`: what does not depend on the steps that are left outlasts a look.
- `Run.bound_eq_ok`: a bound of a run is that of its session.
-/

namespace Multistage

namespace Run

open Multistage.Action (Ensures)

variable {α : Type} {r r' : Run α}

/-- A run that is not stopped has one step less left, or any number. -/
theorem heed_eq_ok (h : heed r = .ok () r') :
    ∃ patience, r' = { r with patience := patience } := by
  obtain ⟨_, _, hread, hlook⟩ := Action.bind_eq_ok.1 h
  cases hread
  cases hpatience : r.patience with
  | none =>
    rw [hpatience] at hlook
    cases hlook
    exact ⟨r.patience, rfl⟩
  | some steps =>
    rw [hpatience] at hlook
    cases steps with
    | zero => cases hlook
    | succ steps =>
      cases hlook
      exact ⟨some steps, rfl⟩

/-- A run is only stopped where it has no step left, and nothing changes. -/
theorem heed_eq_error {e : Failure α} :
    heed r = .error e r' ↔ r.patience = some 0 ∧ e = .interrupted ∧ r' = r := by
  unfold heed
  rw [Action.get_bind_eq]
  cases hpatience : r.patience with
  | none => exact ⟨nofun, nofun⟩
  | some steps =>
    cases steps with
    | zero =>
      constructor
      · intro h
        cases h
        exact ⟨rfl, rfl, rfl⟩
      · rintro ⟨-, rfl, rfl⟩
        rfl
    | succ steps => exact ⟨nofun, fun h => nomatch h.1⟩

theorem heed_of_patience (h : r.patience = none) : heed r = .ok () r := by
  unfold heed
  rw [Action.get_bind_eq, h]
  rfl

/-- What does not depend on the steps that are left outlasts a look. -/
theorem ensures_heed {J : Run α → Prop}
    (hJ : ∀ r patience, J r → J { r with patience := patience }) :
    Ensures J heed fun _ => True := by
  refine .of_cases (fun r _ r' hr h => ?_) fun r _ r' hr h => ?_
  · obtain ⟨patience, rfl⟩ := heed_eq_ok h
    exact ⟨hJ r patience hr, trivial⟩
  · obtain ⟨-, -, rfl⟩ := heed_eq_error.1 h
    exact hr

/-! ### Actions of the session -/

variable {β γ : Type} {act : Action α (Run α) β} {act' : Action α (Session α) β}

/-- If the action of a run answers, the action of the session answers the same, and nothing else of
the run changes but the steps that are left. -/
def Performs (act : Action α (Run α) β) (act' : Action α (Session α) β) : Prop :=
  ∀ r b r', act r = .ok b r' → ∃ s patience, act' r.session = .ok b s ∧
    r' = { r with session := s, patience := patience }

theorem Performs.pure {b : β} : Performs (Pure.pure b) (Pure.pure b : Action α (Session α) β) := by
  intro r _ _ h
  cases h
  exact ⟨r.session, r.patience, rfl, rfl⟩

theorem Performs.ofExcept {x : Except (Failure α) β} :
    Performs (Action.ofExcept x) (Action.ofExcept x) := by
  intro r b r' h
  obtain ⟨rfl, rfl⟩ := Action.ofExcept_eq_ok.1 h
  exact ⟨_, _, rfl, rfl⟩

theorem Performs.onSession : Performs (onSession act') act' := by
  intro r b r' h
  obtain ⟨s, hs, rfl⟩ := Action.focus_eq_ok.1 h
  exact ⟨s, r.patience, hs, rfl⟩

theorem Performs.bind {f : β → Action α (Run α) γ} {f' : β → Action α (Session α) γ}
    (hact : Performs act act') (hf : ∀ b, Performs (f b) (f' b)) :
    Performs (act >>= f) (act' >>= f') := by
  intro r c r'' h
  obtain ⟨b, r', hr, hrest⟩ := Action.bind_eq_ok.1 h
  obtain ⟨s, patience, hs, rfl⟩ := hact r b r' hr
  obtain ⟨s', patience', hs', rfl⟩ := hf b _ c r'' hrest
  exact ⟨s', patience', Action.bind_eq_ok.2 ⟨b, s, hs, hs'⟩, rfl⟩

theorem Performs.get_bind {f : Run α → Action α (Run α) γ} {f' : Session α → Action α (Session α) γ}
    (hf : ∀ r, Performs (f r) (f' r.session)) :
    Performs (MonadState.get >>= f) (MonadState.get >>= f') :=
  fun r c r' h => hf r r c r' h

/-- Nothing happens in a look that does not stop the run. -/
theorem Performs.heed_bind {f : Unit → Action α (Run α) β} (hf : Performs (f ()) act') :
    Performs (heed >>= f) act' := by
  intro r b r'' h
  obtain ⟨_, r', hheed, hrest⟩ := Action.bind_eq_ok.1 h
  obtain ⟨patience, rfl⟩ := heed_eq_ok hheed
  obtain ⟨s, patience', hs, rfl⟩ := hf _ b r'' hrest
  exact ⟨s, patience', hs, rfl⟩

theorem Performs.mapM {items : List γ} {f : γ → Action α (Run α) β}
    {f' : γ → Action α (Session α) β} (hf : ∀ i, Performs (f i) (f' i)) :
    Performs (items.mapM f) (items.mapM f') := by
  induction items with
  | nil => exact .pure
  | cons i rest ih =>
    rw [List.mapM_cons, List.mapM_cons]
    exact .bind (hf i) fun _ => .bind ih fun _ => .pure

variable [Scalar α]

theorem performs_attend (solver : Solver α) (index : Datum α) (state : State α) (noise : Datum α)
    (needsDuals : Bool) :
    Performs (attend solver index state noise needsDuals)
      (Session.solve solver index state noise needsDuals) :=
  .heed_bind .onSession

/-- A bound that a run computes is the bound of its session. -/
theorem bound_eq_ok {solver : Solver α} {measure : Measure α} {value : α}
    (h : bound solver measure r = .ok value r') :
    ∃ s patience, Session.bound solver r.session.model.initial measure r.session = .ok value s ∧
      r' = { r with session := s, patience := patience } := by
  have weighed : ∀ initial : State α, Performs
      (Session.boundBy (·.session.model)
        (fun child noise => attend solver child initial noise true) measure)
      (Session.bound solver initial measure) := fun initial =>
    .get_bind fun r => .bind
      (.get_bind fun r => .bind .ofExcept fun _ =>
        .mapM fun _ => .bind (performs_attend solver _ _ _ _) fun _ => .pure)
      fun _ => .bind .ofExcept fun _ => .pure
  obtain ⟨_, _, hread, hrest⟩ := Action.bind_eq_ok.1 h
  cases hread
  obtain ⟨v, u, hvalue, hrest⟩ := Action.bind_eq_ok.1 hrest
  obtain ⟨_, w, hheed, hanswer⟩ := Action.bind_eq_ok.1 hrest
  obtain ⟨s, patience, hs, rfl⟩ := weighed r.session.model.initial r v u hvalue
  obtain ⟨patience', rfl⟩ := heed_eq_ok hheed
  cases hanswer
  exact ⟨s, patience', hs, rfl⟩

end Run

end Multistage
