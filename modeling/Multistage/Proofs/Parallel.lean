import Multistage.Proofs.Action
import Mathlib.Data.Set.Insert

/-!
# Two runs side by side

A Hoare triple speaks of one run. What two runs have in common is a triple over pairs of states:
from related states both actions answer, or both fail. Most often both runs do the same from states
that agree on a set of items; the set grows when an item is set anew, and after a failure nothing is
known of the items.

## Main definitions

- `Action.Parallel`: from related states two actions end alike.
- `Action.InStep`, `Action.Hereditary`: an action gives the same answers from states that agree on a
  set.

## Main statements

- `Action.Parallel.bind`, `Action.InStep.bind`: one action after another.
- `Action.Parallel.tryFinally`: what is done in the end, however the runs end.
-/

namespace Multistage

namespace Action

variable {α σ τ β γ ι : Type}

/-- From related states both actions answer as `Q` says, or both fail as `E` says. -/
def Parallel (P : σ → σ → Prop) (act act' : Action α σ β) (Q : β → β → σ → σ → Prop)
    (E : Failure α → Failure α → σ → σ → Prop) : Prop :=
  ∀ s s', P s s' →
    match act s, act' s' with
    | .ok b t, .ok b' t' => Q b b' t t'
    | .error e t, .error e' t' => E e e' t t'
    | _, _ => False

variable {P : σ → σ → Prop} {Q : β → β → σ → σ → Prop} {E : Failure α → Failure α → σ → σ → Prop}
  {act act' : Action α σ β}

/-! ### Pairs of states -/

/-- If the first action answers, so does the second. -/
theorem Parallel.ok (h : Parallel P act act' Q E) {s s' t : σ} {b : β} (hs : P s s')
    (hr : act s = .ok b t) :
    ∃ b' t', act' s' = .ok b' t' ∧ Q b b' t t' := by
  have := h s s' hs
  rw [hr] at this
  cases hr' : act' s' with
  | ok b' t' => exact ⟨b', t', rfl, by rwa [hr'] at this⟩
  | error e' t' => rw [hr'] at this; exact this.elim

/-- If the first action fails, so does the second. -/
theorem Parallel.error (h : Parallel P act act' Q E) {s s' t : σ} {e : Failure α} (hs : P s s')
    (hr : act s = .error e t) : ∃ e' t', act' s' = .error e' t' ∧ E e e' t t' := by
  have := h s s' hs
  rw [hr] at this
  cases hr' : act' s' with
  | ok b' t' => rw [hr'] at this; exact this.elim
  | error e' t' => exact ⟨e', t', rfl, by rwa [hr'] at this⟩

theorem Parallel.of_cases
    (h : ∀ s s', P s s' → (∃ b b' t t', act s = .ok b t ∧ act' s' = .ok b' t' ∧ Q b b' t t') ∨
      ∃ e e' t t', act s = .error e t ∧ act' s' = .error e' t' ∧ E e e' t t') : Parallel P act
        act' Q E := by
  intro s s' hs
  rcases h s s' hs with ⟨b, b', t, t', hr, hr', hQ⟩ | ⟨e, e', t, t', hr, hr', hE⟩
  · rwa [hr, hr']
  · rwa [hr, hr']

theorem Parallel.consequence {P' : σ → σ → Prop} {Q' : β → β → σ → σ → Prop}
    {E' : Failure α → Failure α → σ → σ → Prop} (h : Parallel P act act' Q E)
    (hP : ∀ s s', P' s s' → P s s')
    (hQ : ∀ b b' t t', Q b b' t t' → Q' b b' t t') (hE : ∀ e e' t t', E e e' t t' → E' e e' t t') :
    Parallel P' act act' Q' E' := by
  refine .of_cases fun s s' hs => ?_
  cases hr : act s with
  | ok b t =>
    obtain ⟨b', t', hr', hQ'⟩ := h.ok (hP s s' hs) hr
    exact .inl ⟨b, b', t, t', rfl, hr', hQ _ _ _ _ hQ'⟩
  | error e t =>
    obtain ⟨e', t', hr', hE'⟩ := h.error (hP s s' hs) hr
    exact .inr ⟨e, e', t, t', rfl, hr', hE _ _ _ _ hE'⟩

/-- What is known of each run alone is known of both. -/
theorem Parallel.and {P₁ P₂ : σ → Prop} {Q₁ Q₂ : β → σ → Prop} {E₁ E₂ : σ → Prop}
    (h : Parallel P act act' Q E) (h₁ : Triple P₁ act Q₁ E₁) (h₂ : Triple P₂ act' Q₂ E₂) :
    Parallel (fun s s' => P s s' ∧ P₁ s ∧ P₂ s') act act'
      (fun b b' t t' => Q b b' t t' ∧ Q₁ b t ∧ Q₂ b' t')
      fun e e' t t' => E e e' t t' ∧ E₁ t ∧ E₂ t' := by
  refine .of_cases fun s s' hs => ?_
  cases hr : act s with
  | ok b t =>
    obtain ⟨b', t', hr', hQ⟩ := h.ok hs.1 hr
    exact .inl ⟨b, b', t, t', rfl, hr', hQ, h₁.ok hs.2.1 hr, h₂.ok hs.2.2 hr'⟩
  | error e t =>
    obtain ⟨e', t', hr', hE⟩ := h.error hs.1 hr
    exact .inr ⟨e, e', t, t', rfl, hr', hE, h₁.error hs.2.1 hr, h₂.error hs.2.2 hr'⟩

/-- The states that both runs start from can be named. -/
theorem Parallel.of_forall
    (h : ∀ s s', P s s' → Parallel (fun t t' => t = s ∧ t' = s') act act' Q E) :
    Parallel P act act' Q E :=
  fun s s' hs => h s s' hs s s' ⟨rfl, rfl⟩

theorem Parallel.startingAt {s s' : σ} (h : Parallel P act act' Q E) (hs : P s s') :
    Parallel (fun t t' => t = s ∧ t' = s') act act' Q E := by
  rintro _ _ ⟨rfl, rfl⟩
  exact h _ _ hs

theorem Parallel.pure {b b' : β} (h : ∀ s s', P s s' → Q b b' s s') :
    Parallel P (Pure.pure b) (Pure.pure b' : Action α σ β) Q E := h

theorem Parallel.throw {e e' : Failure α} (h : ∀ s s', P s s' → E e e' s s') :
    Parallel P (MonadExcept.throw e) (MonadExcept.throw e' : Action α σ β) Q E := h

theorem Parallel.bind {R : γ → γ → σ → σ → Prop} {f f' : β → Action α σ γ}
    (h : Parallel P act act' Q E)
    (hf : ∀ b b', Parallel (Q b b') (f b) (f' b') R E) : Parallel P (act >>= f)
    (act' >>= f') R E := by
  refine .of_cases fun s s' hs => ?_
  cases hr : act s with
  | ok b t =>
    obtain ⟨b', t', hr', hQ⟩ := h.ok hs hr
    cases hf_eq : f b t with
    | ok c u =>
      obtain ⟨c', u', hf', hR⟩ := (hf b b').ok hQ hf_eq
      exact .inl ⟨c, c', u, u', bind_eq_ok.2 ⟨b, t, hr, hf_eq⟩, bind_eq_ok.2 ⟨b', t', hr', hf'⟩, hR⟩
    | error e u =>
      obtain ⟨e', u', hf', hE⟩ := (hf b b').error hQ hf_eq
      exact .inr ⟨e, e', u, u', bind_eq_error.2 (.inr ⟨b, t, hr, hf_eq⟩),
        bind_eq_error.2 (.inr ⟨b', t', hr', hf'⟩), hE⟩
  | error e t =>
    obtain ⟨e', t', hr', hE⟩ := h.error hs hr
    exact .inr ⟨e, e', t, t', bind_eq_error.2 (.inl hr), bind_eq_error.2 (.inl hr'), hE⟩

/-- After both states are read they are known. -/
theorem Parallel.get_bind {R : γ → γ → σ → σ → Prop} {f f' : σ → Action α σ γ}
    (h : ∀ s s', P s s' → Parallel (fun t t' => t = s ∧ t' = s') (f s) (f' s') R E) :
    Parallel P (MonadState.get >>= f) (MonadState.get >>= f') R E :=
  fun s s' hs => h s s' hs s s' ⟨rfl, rfl⟩

theorem Parallel.set {t t' : σ} {Q : PUnit → PUnit → σ → σ → Prop}
    (h : ∀ s s', P s s' → Q ⟨⟩ ⟨⟩ t t') :
    Parallel P (MonadStateOf.set t : Action α σ PUnit) (MonadStateOf.set t') Q E := h

theorem Parallel.modify {f f' : σ → σ} {Q : PUnit → PUnit → σ → σ → Prop}
    (h : ∀ s s', P s s' → Q ⟨⟩ ⟨⟩ (f s) (f' s')) :
    Parallel P (modifyThe σ f : Action α σ PUnit) (modifyThe σ f') Q E := h

/-- Acting on a part of two known states. -/
theorem Parallel.focus {part : σ → τ} {replace : σ → τ → σ} {act act' : Action α τ β} {s s' : σ}
    {Q : β → β → τ → τ → Prop} {E : Failure α → Failure α → τ → τ → Prop}
    (h : Parallel (fun t t' => t = part s ∧ t' = part s') act act' Q E) :
    Parallel (fun u u' => u = s ∧ u' = s') (Action.focus part replace act)
      (Action.focus part replace act')
      (fun b b' u u' => ∃ t t', u = replace s t ∧ u' = replace s' t' ∧ Q b b' t t')
      fun e e' u u' => ∃ t t', u = replace s t ∧ u' = replace s' t' ∧ E e e' t t' := by
  refine .of_cases ?_
  rintro s s' ⟨rfl, rfl⟩
  cases hr : act (part s) with
  | ok b t =>
    obtain ⟨b', t', hr', hQ⟩ := h.ok ⟨rfl, rfl⟩ hr
    exact .inl ⟨b, b', _, _, focus_eq_ok.2 ⟨t, hr, rfl⟩, focus_eq_ok.2 ⟨t', hr', rfl⟩, t, t',
      rfl, rfl, hQ⟩
  | error e t =>
    obtain ⟨e', t', hr', hE⟩ := h.error ⟨rfl, rfl⟩ hr
    exact .inr ⟨e, e', _, _, focus_eq_error.2 ⟨t, hr, rfl⟩, focus_eq_error.2 ⟨t', hr', rfl⟩, t, t',
      rfl, rfl, hE⟩

/-- What is done in the end is done by both runs, however they end. -/
theorem Parallel.tryFinally {Q' : β → β → σ → σ → Prop} {E' : Failure α → Failure α → σ → σ → Prop}
    {fin fin' : Action α σ γ} (h : Parallel P act act' Q E)
    (hfin : ∀ b b', Parallel (Q b b') fin fin' (fun _ _ => Q' b b') E')
    (hfailed : ∀ e e', Parallel (E e e') fin fin' (fun _ _ => E' e e') E') :
    Parallel P (tryFinally act fin) (tryFinally act' fin') Q' E' := by
  intro s s' hs
  rw [tryFinally_eq, tryFinally_eq]
  cases hr : act s with
  | ok b t =>
    obtain ⟨b', t', hr', hQ⟩ := h.ok hs hr
    rw [hr']
    cases hf : fin t with
    | ok c u =>
      obtain ⟨c', u', hf', hQ'⟩ := (hfin b b').ok hQ hf
      simpa only [hf, hf'] using hQ'
    | error e u =>
      obtain ⟨e', u', hf', hE'⟩ := (hfin b b').error hQ hf
      simpa only [hf, hf'] using hE'
  | error e t =>
    obtain ⟨e', t', hr', hE⟩ := h.error hs hr
    rw [hr']
    cases hf : fin t with
    | ok c u =>
      obtain ⟨c', u', hf', hE'⟩ := (hfailed e e').ok hE hf
      simpa only [hf, hf'] using hE'
    | error e₁ u =>
      obtain ⟨e', u', hf', hE'⟩ := (hfailed _ _).error hE hf
      simpa only [hf, hf'] using hE'

/-! ### States that agree on a set -/

/-- What is agreed on a set is agreed on its subsets. -/
def Hereditary (R : Set ι → σ → σ → Prop) : Prop :=
    ∀ ⦃S T : Set ι⦄, S ⊆ T → ∀ s s', R T s s' → R S s s'

/-- From states that agree on `S` the action gives the same answer and leaves states that agree on a
set that may depend on the answer, or it fails for related causes. -/
def InStep (R : Set ι → σ → σ → Prop) (F : Failure α → Failure α → Prop) (S : Set ι)
    (act : Action α σ β) (S' : β → Set ι) : Prop :=
  Parallel (R S) act act (fun b b' s s' => b = b' ∧ R (S' b) s s') fun e e' s s' =>
    F e e' ∧ R ∅ s s'

variable {R : Set ι → σ → σ → Prop} {F : Failure α → Failure α → Prop} {S : Set ι} {S' : β → Set ι}

theorem InStep.weaken {S₁ : Set ι} {S₁' : β → Set ι} (h : InStep R F S act S') (hR : Hereditary R)
    (hS : S ⊆ S₁) (hS' : ∀ b, S₁' b ⊆ S' b) : InStep R F S₁ act S₁' :=
  Parallel.consequence h (hR hS) (fun b _ s s' hs => ⟨hs.1, hR (hS' b) s s' hs.2⟩) fun _ _ _ _ => id

/-- What the states agree on after the action may be forgotten. -/
theorem InStep.forget {S₁ : Set ι} (h : InStep R F S act fun _ => S₁) (hR : Hereditary R)
    (hS : S ⊆ S₁) :
    InStep R F S act fun _ => S :=
  h.weaken hR subset_rfl fun _ => hS

theorem InStep.pure (S' : β → Set ι) {b : β} : InStep R F (S' b) (Pure.pure b : Action α σ β) S' :=
  Parallel.pure fun _ _ hs => ⟨rfl, hs⟩

theorem InStep.throw {e : Failure α} (hR : Hereditary R) (hF : ∀ e, F e e) :
    InStep R F S (MonadExcept.throw e : Action α σ β) S' :=
  Parallel.throw fun s s' hs => ⟨hF e, hR (Set.empty_subset S) s s' hs⟩

theorem InStep.bind {S'' : γ → Set ι} {f : β → Action α σ γ} (h : InStep R F S act S')
    (hf : ∀ b, InStep R F (S' b) (f b) S'') : InStep R F S (act >>= f) S'' := by
  refine Parallel.bind h fun b b' s s' hs => ?_
  obtain ⟨rfl, hs⟩ := hs
  exact hf b s s' hs

/-- The action may depend on what the states agree on. -/
theorem InStep.get_bind {f : σ → Action α σ β} (heq : ∀ s s', R S s s' → f s = f s')
    (hf : ∀ s, InStep R F S (f s) S') : InStep R F S (MonadState.get >>= f) S' := by
  refine Parallel.get_bind fun s s' hs => ?_
  rw [← heq s s' hs]
  exact Parallel.startingAt (hf s) hs

theorem InStep.ofExcept {x : Except (Failure α) β} (hR : Hereditary R) (hF : ∀ e, F e e) :
    InStep R F S (Action.ofExcept x) fun _ => S := by
  cases x with
  | ok b => exact .pure fun _ => S
  | error e => exact .throw hR hF

theorem InStep.ofOption {e : Failure α} {x : Option β} (hR : Hereditary R) (hF : ∀ e, F e e) :
    InStep R F S (Action.ofOption e x) fun _ => S := by
  cases x with
  | some b => exact .pure fun _ => S
  | none => exact .throw hR hF

theorem InStep.modify {f : σ → σ} {S' : Set ι} (h : ∀ s s', R S s s' → R S' (f s) (f s')) :
    InStep R F S (modifyThe σ f : Action α σ PUnit) fun _ => S' :=
  Parallel.modify fun s s' hs => ⟨rfl, h s s' hs⟩

theorem InStep.ite {c : Prop} [Decidable c] {act' : Action α σ β} (h : c → InStep R F S act S')
    (h' : ¬c → InStep R F S act' S') : InStep R F S (if c then act else act') S' := by
  split
  next hc => exact h hc
  next hc => exact h' hc

/-- Acting on a part of the state. -/
theorem InStep.focus {R₁ : Set ι → τ → τ → Prop} {part : σ → τ} {replace : σ → τ → σ}
    {act : Action α τ β}
    (h : InStep R₁ F S act S') (hpart : ∀ s s', R S s s' → R₁ S (part s) (part s'))
    (hreplace : ∀ T s s' t t', R S s s' → R₁ T t t' → R T (replace s t) (replace s' t')) :
    InStep R F S (Action.focus part replace act) S' := by
  refine Parallel.of_forall fun s s' hs => ?_
  refine (Parallel.focus (Parallel.startingAt h (hpart s s' hs))).consequence (fun _ _ => id) ?_ ?_
  · rintro b b' _ _ ⟨t, t', rfl, rfl, hb, ht⟩
    exact ⟨hb, hreplace _ s s' t t' hs ht⟩
  · rintro e e' _ _ ⟨t, t', rfl, rfl, he, ht⟩
    exact ⟨he, hreplace _ s s' t t' hs ht⟩

/-- A loop over a list. -/
theorem InStep.forM {κ : Type} {items : List κ} {f : κ → Action α σ PUnit}
    (h : ∀ i ∈ items, InStep R F S (f i) fun _ => S) : InStep R F S (items.forM f) fun _ => S := by
  induction items with
  | nil => exact .pure fun _ => S
  | cons i rest ih =>
    rw [List.forM_eq_forM, List.forM_cons]
    exact .bind (h i List.mem_cons_self) fun _ => ih fun c hc => h c (List.mem_cons_of_mem _ hc)

/-- A loop that collects answers. -/
theorem InStep.mapM {κ : Type} {items : List κ} {f : κ → Action α σ β}
    (h : ∀ i ∈ items, InStep R F S (f i) fun _ => S) : InStep R F S (items.mapM f) fun _ => S := by
  induction items with
  | nil => exact .pure fun _ => S
  | cons i rest ih =>
    rw [List.mapM_cons]
    exact .bind (h i List.mem_cons_self) fun _ =>
      .bind (ih fun c hc => h c (List.mem_cons_of_mem _ hc)) fun _ => .pure fun _ => S

end Action

end Multistage
