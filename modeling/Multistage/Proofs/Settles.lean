import Mathlib.Data.List.Forall2
import Mathlib.Data.List.Perm.Basic
import Mathlib.Data.Option.Basic
import Multistage.Proofs.Parallel

/-!
# Settled answers

An action may change the state and still answer the same whenever it is run. If several actions are
settled by one property of the state, running all of them in another order gives the same answers in
that order, or fails as well.

## Main definitions

- `Action.found`: what an action answers from a state, if it does not fail.
- `Action.Settles`: from all states with a property an action has the same answer, or it fails.

## Main statements

- `Action.Parallel.found_eq`: actions that end alike.
- `Action.Settles.bind`, `Action.Settles.mapM`: one action after another.
- `rel_mapM_of_perm`: answers in another order.
-/

namespace Multistage

/-! ### Answers that may be missing -/

section

variable {ι β γ : Type}

theorem mapM_eq_some_iff {f : ι → Option β} {items : List ι} {answers : List β} :
    items.mapM f = some answers ↔ List.Forall₂ (fun i b => f i = some b) items answers := by
  induction items generalizing answers with
  | nil =>
    rw [List.mapM_nil, List.forall₂_nil_left_iff]
    exact Option.some_inj.trans eq_comm
  | cons i rest ih =>
    rw [List.mapM_cons, List.forall₂_cons_left_iff]
    constructor
    · intro h
      obtain ⟨b, hb, h⟩ := Option.bind_eq_some_iff.1 h
      obtain ⟨bs, hbs, h⟩ := Option.bind_eq_some_iff.1 h
      exact ⟨b, bs, hb, ih.1 hbs, (Option.some_inj.1 h).symm⟩
    · rintro ⟨b, bs, hb, hbs, rfl⟩
      exact Option.bind_eq_some_iff.2 ⟨b, hb, Option.bind_eq_some_iff.2 ⟨bs, ih.2 hbs, rfl⟩⟩

/-- Computations on the same items in another order find the same in that order, or nothing
either. -/
theorem rel_mapM_of_perm {items items' : List ι} (h : items'.Perm items) (f : ι → Option β) :
    Option.Rel List.Perm (items'.mapM f) (items.mapM f) := by
  have answered : ∀ {as bs : List ι} {cs : List β}, as.Perm bs → bs.mapM f = some cs →
      ∃ ds, as.mapM f = some ds ∧ ds.Perm cs := fun hperm hcs => by
    obtain ⟨ds, hds, hperm⟩ := List.perm_comp_forall₂ hperm (mapM_eq_some_iff.1 hcs)
    exact ⟨ds, mapM_eq_some_iff.2 hds, hperm⟩
  cases hcs : items.mapM f with
  | some cs =>
    obtain ⟨ds, hds, hperm⟩ := answered h hcs
    rw [hds]
    exact .some hperm
  | none =>
    have missing : items'.mapM f = none := Option.eq_none_iff_forall_ne_some.2 fun ds hds => by
      obtain ⟨cs, hcs', -⟩ := answered h.symm hds
      cases hcs.symm.trans hcs'
    rw [missing]
    exact .none

theorem rel_bind {R : ι → ι → Prop} {S : β → β → Prop} {o o' : Option ι} {f f' : ι → Option β}
    (h : Option.Rel R o o')
    (hf : ∀ a a', o = some a → o' = some a' → R a a' → Option.Rel S (f a) (f' a')) :
    Option.Rel S (o.bind f) (o'.bind f') := by
  cases h with
  | some h => exact hf _ _ rfl rfl h
  | none => exact .none

/-- What is made of related answers, if it does not depend on which of them is given. -/
theorem bind_eq_of_rel {R : ι → ι → Prop} {o o' : Option ι} {f f' : ι → Option β}
    (h : Option.Rel R o o')
    (hf : ∀ a a', o = some a → o' = some a' → R a a' → f a = f' a') : o.bind f = o'.bind f' := by
  cases h with
  | some h => exact hf _ _ rfl rfl h
  | none => rfl

/-- What is known of related answers holds of others that are the same as these in what matters. -/
theorem rel_of_map_eq {R : β → β → Prop} {f : β → γ}
    (hR : ∀ {a a' b b'}, R a a' → f b = f a → f b' = f a' → R b b') {o o' p p' : Option β}
    (h : Option.Rel R o o')
    (hp : p.map f = o.map f) (hp' : p'.map f = o'.map f) : Option.Rel R p p' := by
  cases h with
  | some h =>
    obtain ⟨b, rfl, hb⟩ := Option.map_eq_some_iff.1 hp
    obtain ⟨b', rfl, hb'⟩ := Option.map_eq_some_iff.1 hp'
    exact .some (hR h hb hb')
  | none =>
    rw [Option.map_eq_none_iff.1 hp, Option.map_eq_none_iff.1 hp']
    exact .none

/-- Both computations fail, or both answer with related answers. -/
theorem rel_toOption {ε : Type} {R : β → γ → Prop} {x : Except ε β} {y : Except ε γ}
    (h : (∃ b, x = .ok b) ↔ ∃ c, y = .ok c) (hR : ∀ b c, x = .ok b → y = .ok c → R b c) :
    Option.Rel R x.toOption y.toOption := by
  cases x with
  | ok b =>
    obtain ⟨c, rfl⟩ := h.1 ⟨b, rfl⟩
    exact .some (hR b c rfl rfl)
  | error e =>
    cases y with
    | ok c =>
      obtain ⟨b, hb⟩ := h.2 ⟨c, rfl⟩
      cases hb
    | error e' => exact .none

end

namespace Action

variable {α σ τ β γ ι : Type} {I : σ → Prop} {act : Action α σ β} {answer : Option β}

/-- What the action answers from a state, if it does not fail. -/
def found (act : Action α σ β) (s : σ) : Option β :=
  match act s with
  | .ok b _ => some b
  | .error _ _ => none

/-- Actions that end alike, with equal answers, find the same. -/
theorem Parallel.found_eq {P : σ → σ → Prop} {Q : β → β → σ → σ → Prop}
    {E : Failure α → Failure α → σ → σ → Prop} {act' : Action α σ β} (h : Parallel P act act' Q E)
    (hQ : ∀ b b' t t', Q b b' t t' → b = b') {s s' : σ}
    (hs : P s s') : act'.found s' = act.found s := by
  unfold found
  cases hr : act s with
  | ok b t =>
    obtain ⟨b', t', hr', hb⟩ := h.ok hs hr
    rw [hr', hQ _ _ _ _ hb]
  | error e t =>
    obtain ⟨e', t', hr', -⟩ := h.error hs hr
    rw [hr']

/-- From all states with `I` the action gives the answer and keeps `I`, or it fails if there is
none. -/
def Settles (I : σ → Prop) (act : Action α σ β) (answer : Option β) : Prop :=
  Triple I act (fun b t => answer = some b ∧ I t) fun _ => answer = none

namespace Settles

theorem found_eq (h : Settles I act answer) {s : σ} (hs : I s) : act.found s = answer := by
  unfold found
  cases hr : act s with
  | ok b t => exact (Triple.ok h hs hr).1.symm
  | error e t => exact (Triple.error h hs hr).symm

/-- An action that keeps the property when it answers is settled by what it finds. -/
theorem of_completes (h : Completes I act fun _ => True)
    (hfound : ∀ s, I s → act.found s = answer) :
    Settles I act answer := by
  refine .of_cases (fun s b t hs hr => ⟨?_, (h.ok hs hr).1⟩) fun s e t hs hr => ?_
  · rw [← hfound s hs, found, hr]
  · rw [← hfound s hs, found, hr]

theorem pure {b : β} : Settles I (Pure.pure b : Action α σ β) (some b) :=
  Triple.pure fun _ hs => ⟨rfl, hs⟩

theorem ofExcept (x : Except (Failure α) β) : Settles I (Action.ofExcept x) x.toOption :=
  Triple.ofExcept (fun _ _ hx hs => ⟨by rw [hx]; rfl, hs⟩) fun _ _ hx _ => by rw [hx]; rfl

theorem bind {f : β → Action α σ γ} {g : β → Option γ} (h : Settles I act answer)
    (hf : ∀ b, answer = some b → Settles I (f b) (g b)) : Settles I (act >>= f)
    (answer.bind g) := by
  have first : Triple I act (fun b t => answer = some b ∧ I t) fun _ => answer.bind g = none :=
    Triple.consequence h (fun _ => id) (fun _ _ => id) fun _ hnone => by rw [hnone]; rfl
  refine first.bind fun b => Triple.of_forall ?_
  rintro s ⟨rfl, hs⟩
  exact Triple.startingAt (hf b rfl) hs

/-- What is done after the state is read is settled from that state. -/
theorem get_bind {f : σ → Action α σ γ} {answer : Option γ}
    (h : ∀ s, I s → Settles I (f s) answer) :
    Settles I (MonadState.get >>= f) answer :=
  Triple.get_bind fun s hs => Triple.startingAt (h s hs) hs

theorem focus {part : σ → τ} {replace : σ → τ → σ} {act : Action α τ β} {J : τ → Prop}
    (h : Settles J act answer)
    (hpart : ∀ s, I s → J (part s)) (hreplace : ∀ s t, I s → J t → I (replace s t)) :
    Settles I (Action.focus part replace act) answer := by
  refine Triple.of_forall fun s hs =>
    (Triple.focus (Triple.startingAt h (hpart s hs))).consequence (fun _ => id) ?_ ?_
  · rintro b _ ⟨t, rfl, hb, ht⟩
    exact ⟨hb, hreplace s t hs ht⟩
  · rintro _ ⟨_, _, hnone⟩
    exact hnone

/-- What is done in the end must not fail. -/
theorem tryFinally {J : σ → Prop} {fin : Action α σ γ} (h : Settles J act answer)
    (hfin : Triple J fin (fun _ => I) fun _ => False) :
    Triple J (tryFinally act fin) (fun b t => answer = some b ∧ I t) fun _ => answer = none := by
  intro s hs
  rw [tryFinally_eq]
  cases hr : act s with
  | ok b t =>
    obtain ⟨hb, ht⟩ := Triple.ok h hs hr
    obtain ⟨c, u, hu, hI⟩ := hfin.exists_ok ht
    simpa only [hu] using ⟨hb, hI⟩
  | error e t =>
    have hnone : answer = none := Triple.error h hs hr
    cases hf : fin t with
    | ok c u => simpa only [hf] using hnone
    | error e' u => simpa only [hf] using hnone

theorem mapM {items : List ι} {f : ι → Action α σ β} {g : ι → Option β}
    (h : ∀ i ∈ items, Settles I (f i) (g i)) : Settles I (items.mapM f) (items.mapM g) := by
  induction items with
  | nil => exact .pure
  | cons i rest ih =>
    rw [List.mapM_cons, List.mapM_cons]
    exact .bind (h i List.mem_cons_self) fun _ _ =>
      .bind (ih fun j hj => h j (List.mem_cons_of_mem _ hj)) fun _ _ =>
      .pure

end Settles

end Action

end Multistage
