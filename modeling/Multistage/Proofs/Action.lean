import Multistage.Failure
import Mathlib.Data.List.Forall2
import Mathlib.Data.Nat.Notation

/-!
# Hoare triples for actions

An action answers or fails, and either way it leaves a state. A triple speaks of both ends; most of
what is said about a model is that a property of the state outlasts an action whatever happens, and
that the answer has a property that does not depend on the state.

## Main definitions

- `Action.Triple`: from a state with `P`, the answer and the state are as `Q` says, or the action
  fails in a state with `E`.
- `Action.Ensures`: an action keeps a property of the state, and its answer has a property.
- `Action.Completes`: the same, of an action that answers.
- `Action.Declines`: an action fails and changes nothing.
- `Action.Ends`: one end of an action, where the failure matters as well.

## Main statements

- `Action.Triple.bind`, `Action.Ensures.bind`: one action after another.
- `Action.Triple.forM_prefix`: a loop over a list, by an invariant that knows what was visited.
- `Action.Ensures.mapM`: a loop whose answers are collected.
-/

namespace Multistage

namespace Action

variable {α σ τ β γ : Type}

/-- From a state with `P`, the action answers as `Q` says, or it fails in a state with `E`. -/
def Triple (P : σ → Prop) (act : Action α σ β) (Q : β → σ → Prop) (E : σ → Prop) : Prop :=
  ∀ s, P s → match act s with
    | .ok b t => Q b t
    | .error _ t => E t

/-- The action keeps `I`, also when it fails, and its answer has `R`. -/
def Ensures (I : σ → Prop) (act : Action α σ β) (R : β → Prop) : Prop :=
  Triple I act (fun b t => I t ∧ R b) I

/-- If the action answers it keeps `I`, and its answer has `R`. -/
def Completes (I : σ → Prop) (act : Action α σ β) (R : β → Prop) : Prop :=
  Triple I act (fun b t => I t ∧ R b) fun _ => True

/-- An end with an answer as `Q` says, or with a failure as `E` says. -/
def Ends (Q : β → σ → Prop) (E : Failure α → σ → Prop) : EStateM.Result (Failure α) σ β → Prop
  | .ok b t => Q b t
  | .error e t => E e t

/-- The state in which an action ends, whether it fails or not. -/
def final (act : Action α σ β) (s : σ) : σ :=
  match act s with
  | .ok _ t => t
  | .error _ t => t

/-- The answer of an action with the state that it leaves, unless the action fails. -/
def answer (act : Action α σ β) (s : σ) : Except (Failure α) (β × σ) :=
  match act s with
  | .ok b t => .ok (b, t)
  | .error e _ => .error e

theorem answer_eq_ok {act : Action α σ β} {s : σ} {b : β × σ} :
    act.answer s = .ok b ↔ act s = .ok b.1 b.2 := by
  unfold answer
  cases act s with
  | ok c t =>
    constructor
    · intro h
      cases h
      rfl
    · intro h
      cases h
      rfl
  | error e t =>
    constructor
    · intro h
      cases h
    · intro h
      cases h

/-- One action after another answers iff both do. -/
theorem bind_eq_ok {act : Action α σ β} {f : β → Action α σ γ} {s u : σ} {c : γ} :
    (act >>= f) s = .ok c u ↔ ∃ b t, act s = .ok b t ∧ f b t = .ok c u := by
  show EStateM.bind act f s = .ok c u ↔ _
  unfold EStateM.bind
  cases act s with
  | ok b t =>
    constructor
    · exact fun h => ⟨b, t, rfl, h⟩
    · rintro ⟨b', t', h, hf⟩
      cases h
      exact hf
  | error e t =>
    constructor
    · intro h
      cases h
    · rintro ⟨b', t', h, -⟩
      cases h

/-- One action after another fails iff the first does, or the second after what the first
answers. -/
theorem bind_eq_error {act : Action α σ β} {f : β → Action α σ γ} {s u : σ} {e : Failure α} :
    (act >>= f) s = .error e u ↔
      act s = .error e u ∨ ∃ b t, act s = .ok b t ∧ f b t = .error e u := by
  show EStateM.bind act f s = .error e u ↔ _
  unfold EStateM.bind
  cases act s with
  | ok b t => simp
  | error e' t => simp

/-- After an action that is left out under a condition comes the rest. -/
theorem exists_of_when {c : Prop} [Decidable c] {act : Action α σ β} {f : β → Action α σ γ}
    {b : β} {s u : σ}
    {a : γ} (h : (if c then act >>= f else f b) s = .ok a u) : ∃ b t, f b t = .ok a u := by
  split at h
  · obtain ⟨b, t, -, h⟩ := bind_eq_ok.1 h
    exact ⟨b, t, h⟩
  · exact ⟨b, s, h⟩

theorem bind_of_ok {act : Action α σ β} {f : β → Action α σ γ} {s t : σ} {b : β}
    (h : act s = .ok b t) :
    (act >>= f) s = f b t := by
  show EStateM.bind act f s = _
  simp only [EStateM.bind, h]

theorem get_bind_eq (f : σ → Action α σ γ) (s : σ) :
    (MonadState.get >>= f : Action α σ γ) s = f s s := rfl

theorem discard_eq_ok {act : Action α σ β} {s t : σ} {b : β} (h : act s = .ok b t) :
    (discard act : Action α σ PUnit) s = .ok ⟨⟩ t := by
  simp only [Functor.discard, Functor.mapConst, EStateM.map, Function.comp, h]

theorem discard_eq_error {act : Action α σ β} {s t : σ} {e : Failure α} :
    (discard act : Action α σ PUnit) s = .error e t ↔ act s = .error e t := by
  simp only [Functor.discard, Functor.mapConst, EStateM.map, Function.comp]
  cases act s <;> simp

theorem focus_eq_ok {part : σ → τ} {replace : σ → τ → σ} {act : Action α τ β} {s u : σ} {b : β} :
    focus part replace act s = .ok b u ↔ ∃ t, act (part s) = .ok b t ∧ u = replace s t := by
  unfold focus
  cases act (part s) <;> simp [eq_comm]

theorem focus_eq_error {part : σ → τ} {replace : σ → τ → σ} {act : Action α τ β} {s u : σ}
    {e : Failure α} :
    focus part replace act s = .error e u ↔ ∃ t, act (part s) = .error e t ∧ u = replace s t := by
  unfold focus
  cases act (part s) <;> simp [eq_comm]

theorem ofExcept_eq_ok {x : Except (Failure α) β} {s t : σ} {b : β} :
    (Action.ofExcept x : Action α σ β) s = .ok b t ↔ x = .ok b ∧ t = s := by
  cases x with
  | ok c =>
    show EStateM.Result.ok c s = _ ↔ _
    simp [eq_comm]
  | error e =>
    show EStateM.Result.error e s = _ ↔ _
    simp

theorem ofExcept_eq_error {x : Except (Failure α) β} {s t : σ} {e : Failure α} :
    (Action.ofExcept x : Action α σ β) s = .error e t ↔ x = .error e ∧ t = s := by
  cases x with
  | ok c =>
    show EStateM.Result.ok c s = _ ↔ _
    simp
  | error e' =>
    show EStateM.Result.error e' s = _ ↔ _
    simp [eq_comm]

/-! ### Ends -/

section

variable {Q R : β → σ → Prop} {E F : Failure α → σ → Prop} {act : Action α σ β}
  {f : β → Action α σ γ} {s : σ}

theorem Ends.imp {x : EStateM.Result (Failure α) σ β} (h : Ends Q E x) (hQ : ∀ b t, Q b t → R b t)
    (hE : ∀ e t, E e t → F e t) : Ends R F x := by
  cases x with
  | ok b t => exact hQ b t h
  | error e t => exact hE e t h

/-- One action after another. -/
theorem Ends.bind {S : γ → σ → Prop} (h : Ends Q E (act s)) (hf : ∀ b t, Q b t → Ends S E (f b t)) :
    Ends S E ((act >>= f) s) := by
  cases hact : act s with
  | ok b t =>
    rw [hact] at h
    rw [bind_of_ok hact]
    exact hf b t h
  | error e t =>
    rw [hact] at h
    rw [bind_eq_error.2 (.inl hact)]
    exact h

theorem Ends.ofExcept {x : Except (Failure α) β} :
    Ends (fun b t => x = .ok b ∧ t = s) (fun e t => x = .error e ∧ t = s)
      ((Action.ofExcept x : Action α σ β) s) := by
  cases x with
  | ok b => exact ⟨rfl, rfl⟩
  | error e => exact ⟨rfl, rfl⟩

theorem Ends.ofOption {e : Failure α} {x : Option β} :
    Ends (fun b t => x = some b ∧ t = s) (fun e' t => x = none ∧ e' = e ∧ t = s)
      ((Action.ofOption e x : Action α σ β) s) := by
  cases x with
  | some b => exact ⟨rfl, rfl⟩
  | none => exact ⟨rfl, rfl, rfl⟩

/-- After a computation without a state, its answer can be named. -/
theorem Ends.ofExcept_bind {x : Except (Failure α) β} {S : γ → σ → Prop}
    (hok : ∀ b, x = .ok b → Ends S E (f b s))
    (herror : ∀ e, x = .error e → E e s) : Ends S E ((Action.ofExcept x >>= f) s) := by
  cases x with
  | ok b => exact hok b rfl
  | error e => exact herror e rfl

/-- An action that refuses to go on under a condition. -/
theorem Ends.refuse {c : Prop} [Decidable c] {e : Failure α} {b : β} {S : γ → σ → Prop}
    (hE : c → E e s)
    (h : ¬c → Ends S E (f b s)) : Ends S E ((if c then MonadExcept.throw e >>= f else f b) s) := by
  split
  next hc => exact hE hc
  next hc => exact h hc

theorem Ends.focus {part : σ → τ} {replace : σ → τ → σ} {act : Action α τ β} {Q : β → τ → Prop}
    {E : Failure α → τ → Prop} (h : Ends Q E (act (part s))) :
    Ends (fun b u => ∃ t, Q b t ∧ u = replace s t) (fun e u => ∃ t, E e t ∧ u = replace s t)
      (Action.focus part replace act s) := by
  unfold Action.focus
  cases hact : act (part s) with
  | ok b t =>
    rw [hact] at h
    exact ⟨t, h, rfl⟩
  | error e t =>
    rw [hact] at h
    exact ⟨t, h, rfl⟩

end

/-! ### Actions that change nothing -/

/-- The action fails, for a cause with `C`, and changes nothing. -/
def Declines (act : Action α σ β) (s : σ) (C : Failure α → Prop) : Prop :=
    ∃ e, act s = .error e s ∧ C e

section

variable {act : Action α σ β} {f : β → Action α σ γ} {s : σ} {C : Failure α → Prop}

theorem Declines.bind (h : act.Declines s C) : (act >>= f).Declines s C := by
  obtain ⟨e, hrun, hC⟩ := h
  exact ⟨e, bind_eq_error.2 (.inl hrun), hC⟩

/-- An action declines if what follows a part does that changes nothing. -/
theorem Declines.after {b : β} (hact : act s = .ok b s) (h : (f b).Declines s C) :
    (act >>= f).Declines s C := by
  obtain ⟨e, hrun, hC⟩ := h
  exact ⟨e, bind_eq_error.2 (.inr ⟨b, s, hact, hrun⟩), hC⟩

theorem Declines.ofExcept {x : Except (Failure α) β} (hok : ∀ b, x ≠ .ok b)
    (herror : ∀ e, x = .error e → C e) :
    (Action.ofExcept x : Action α σ β).Declines s C := by
  cases x with
  | ok b => exact absurd rfl (hok b)
  | error e => exact ⟨e, rfl, herror e rfl⟩

theorem Declines.ofExcept_bind {x : Except (Failure α) β}
    (hok : ∀ b, x = .ok b → (f b).Declines s C)
    (herror : ∀ e, x = .error e → C e) : (Action.ofExcept x >>= f).Declines s C := by
  cases x with
  | ok b => exact hok b rfl
  | error e => exact ⟨e, rfl, herror e rfl⟩

theorem Declines.discard (h : act.Declines s C) : (discard act).Declines s C := by
  obtain ⟨e, hrun, hC⟩ := h
  refine ⟨e, ?_, hC⟩
  simp only [Functor.discard, Functor.mapConst, EStateM.map, Function.comp, hrun]

end

/-! ### Triples -/

variable {P : σ → Prop} {Q : β → σ → Prop} {E : σ → Prop} {act : Action α σ β}

theorem Triple.ok (h : Triple P act Q E) {s t : σ} {b : β} (hs : P s) (hr : act s = .ok b t) :
    Q b t := by
  have := h s hs
  rwa [hr] at this

theorem Triple.ends (h : Triple P act Q E) {s : σ} (hs : P s) : Ends Q (fun _ => E) (act s) :=
    h s hs

theorem Triple.error (h : Triple P act Q E) {s t : σ} {e : Failure α} (hs : P s)
    (hr : act s = .error e t) : E t := by
  have := h s hs
  rwa [hr] at this

/-- A triple holds if it does whenever the action answers and whenever it fails. -/
theorem Triple.of_cases (hok : ∀ s b t, P s → act s = .ok b t → Q b t)
    (herror : ∀ s e t, P s → act s = .error e t → E t) : Triple P act Q E := by
  intro s hs
  cases hr : act s with
  | ok b t => exact hok s b t hs hr
  | error e t => exact herror s e t hs hr

/-- An action that can only fail with `False` answers. -/
theorem Triple.exists_ok (h : Triple P act Q fun _ => False) {s : σ} (hs : P s) :
    ∃ b t, act s = .ok b t ∧ Q b t := by
  have := h s hs
  cases hr : act s with
  | ok b t => exact ⟨b, t, rfl, by rwa [hr] at this⟩
  | error e t => rw [hr] at this; exact this.elim

/-- What holds of both ends holds of the state in which the action ends. -/
theorem Triple.final {F : σ → Prop} (h : Triple P act (fun _ => F) F) {s : σ} (hs : P s) : F
    (act.final s) := by
  unfold Action.final
  cases hr : act s with
  | ok b t => exact h.ok hs hr
  | error e t => exact h.error hs hr

/-- Strengthen what holds before, weaken what holds after. -/
theorem Triple.consequence {P' : σ → Prop} {Q' : β → σ → Prop} {E' : σ → Prop}
    (h : Triple P act Q E) (hP : ∀ s, P' s → P s) (hQ : ∀ b t, Q b t → Q' b t)
    (hE : ∀ t, E t → E' t) : Triple P' act Q' E' :=
  .of_cases (fun _ b t hs hr => hQ b t (h.ok (hP _ hs) hr))
    fun _ _ t hs hr => hE t (h.error (hP _ hs) hr)

/-- The state that an action starts from can be named. -/
theorem Triple.of_forall (h : ∀ s, P s → Triple (· = s) act Q E) : Triple P act Q E :=
  fun s hs => h s hs s rfl

/-- An action does from one state what it does from all that satisfy a condition. -/
theorem Triple.startingAt {s : σ} (h : Triple P act Q E) (hs : P s) : Triple (· = s) act Q E :=
  fun _ ht => h _ (ht ▸ hs)

theorem Triple.pure {b : β} (h : ∀ s, P s → Q b s) :
    Triple P (Pure.pure b : Action α σ β) Q E := h

theorem Triple.throw {e : Failure α} (h : ∀ s, P s → E s) :
    Triple P (MonadExcept.throw e : Action α σ β) Q E := h

theorem Triple.bind {f : β → Action α σ γ} {R : γ → σ → Prop} (h : Triple P act Q E)
    (hf : ∀ b, Triple (Q b) (f b) R E) : Triple P (act >>= f) R E := by
  intro s hs
  have := h s hs
  show match EStateM.bind act f s with
    | .ok c u => R c u
    | .error _ u => E u
  unfold EStateM.bind
  cases hr : act s with
  | ok b t =>
    rw [hr] at this
    exact hf b t this
  | error e t =>
    rw [hr] at this
    exact this

theorem Triple.discard {Q : σ → Prop} (h : Triple P act (fun _ => Q) E) :
    Triple P (discard act) (fun _ => Q) E := by
  intro s hs
  have := h s hs
  simp only [Functor.discard, Functor.mapConst, EStateM.map, Function.comp]
  cases hr : act s with
  | ok b t =>
    rw [hr] at this
    exact this
  | error e t =>
    rw [hr] at this
    exact this

theorem Triple.get {Q : σ → σ → Prop} (h : ∀ s, P s → Q s s) :
    Triple P (MonadState.get : Action α σ σ) Q E := h

/-- After the state is read, it can be named. -/
theorem Triple.get_bind {f : σ → Action α σ γ} {R : γ → σ → Prop}
    (h : ∀ s, P s → Triple (· = s) (f s) R E) : Triple P (MonadState.get >>= f) R E :=
  fun s hs => h s hs s rfl

theorem Triple.set {t : σ} {Q : PUnit → σ → Prop} (h : ∀ s, P s → Q ⟨⟩ t) :
    Triple P (MonadStateOf.set t : Action α σ PUnit) Q E := h

theorem Triple.modify {f : σ → σ} {Q : PUnit → σ → Prop} (h : ∀ s, P s → Q ⟨⟩ (f s)) :
    Triple P (modifyThe σ f : Action α σ PUnit) Q E := h

theorem Triple.ofExcept {x : Except (Failure α) β} (hok : ∀ b s, x = .ok b → P s → Q b s)
    (herror : ∀ e s, x = .error e → P s → E s) : Triple P (Action.ofExcept x) Q E := by
  intro s hs
  cases x with
  | ok b => exact hok b s rfl hs
  | error e => exact herror e s rfl hs

/-- After a computation without a state, its answer can be named. -/
theorem Triple.ofExcept_bind {x : Except (Failure α) β} {f : β → Action α σ γ} {R : γ → σ → Prop}
    (hok : ∀ b, x = .ok b → Triple P (f b) R E) (herror : ∀ s, P s → E s) :
    Triple P (Action.ofExcept x >>= f) R E := by
  cases x with
  | ok b => exact hok b rfl
  | error e => exact fun s hs => herror s hs

/-- A computation without a state that is known to answer. -/
theorem Triple.answered_bind {x : Except (Failure α) β} {b : β} {f : β → Action α σ γ}
    {R : γ → σ → Prop} (h : x = .ok b) (hf : Triple P (f b) R E) :
    Triple P (Action.ofExcept x >>= f) R E := by
  rw [h]
  exact hf

theorem Triple.ofOption {e : Failure α} {x : Option β} (hsome : ∀ b s, x = some b → P s → Q b s)
    (hnone : ∀ s, x = none → P s → E s) : Triple P (Action.ofOption e x) Q E := by
  intro s hs
  cases x with
  | some b => exact hsome b s rfl hs
  | none => exact hnone s rfl hs

theorem Triple.ite {c : Prop} [Decidable c] {act' : Action α σ β}
    (h : c → Triple P act Q E) (h' : ¬c → Triple P act' Q E) :
    Triple P (if c then act else act') Q E := by
  by_cases hc : c
  · rw [if_pos hc]; exact h hc
  · rw [if_neg hc]; exact h' hc

theorem Triple.run {s t : σ} {b : β} {f : β → Action α σ γ} {R : γ → σ → Prop}
    (h : act s = .ok b t) (hf : Triple (· = t) (f b) R E) : Triple (· = s) (act >>= f) R E := by
  rintro _ rfl
  have := hf t rfl
  show match EStateM.bind act f _ with
    | .ok c u => R c u
    | .error _ u => E u
  unfold EStateM.bind
  rw [h]
  exact this

/-- An action that refuses to go on under a condition. -/
theorem Triple.refuse {c : Prop} [Decidable c] {e : Failure α} {f : β → Action α σ γ} {b : β}
    {R : γ → σ → Prop} (hE : ∀ s, P s → E s) (h : ¬c → Triple P (f b) R E) :
    Triple P (if c then MonadExcept.throw e >>= f else f b) R E :=
  .ite (fun _ => hE) h

/-- An action on a part of a known state. -/
theorem Triple.focus {part : σ → τ} {replace : σ → τ → σ} {act : Action α τ β} {s : σ}
    {Q : β → τ → Prop} {E : τ → Prop} (h : Triple (· = part s) act Q E) :
    Triple (· = s) (Action.focus part replace act) (fun b s' => ∃ t, s' = replace s t ∧ Q b t)
      fun s' => ∃ t, s' = replace s t ∧ E t := by
  rintro _ rfl
  have := h _ rfl
  unfold Action.focus
  cases hr : act (part _) with
  | ok b t =>
    rw [hr] at this
    exact ⟨t, rfl, this⟩
  | error e t =>
    rw [hr] at this
    exact ⟨t, rfl, this⟩

/-- A loop over a list, by an invariant that knows the items that were visited. -/
theorem Triple.forM_prefix {I : List β → σ → Prop} {f : β → Action α σ PUnit} {items : List β}
    (h : ∀ before b after, items = before ++ b :: after →
      Triple (I before) (f b) (fun _ => I (before ++ [b])) E) :
    Triple (I []) (items.forM f) (fun _ => I items) E := by
  have rounds : ∀ after before, items = before ++ after →
      Triple (I before) (after.forM f) (fun _ => I items) E := by
    intro after
    induction after with
    | nil =>
      intro before hitems
      refine .pure fun s hs => ?_
      rw [hitems, List.append_nil]
      exact hs
    | cons b after ih =>
      intro before hitems
      rw [List.forM_eq_forM, List.forM_cons]
      refine .bind (h before b after hitems) fun _ => ih (before ++ [b]) ?_
      rw [hitems, List.append_assoc]
      rfl
  exact rounds items [] rfl

/-- A loop that collects answers, by an invariant that knows the items that were visited. -/
theorem Triple.mapM_prefix {I : List β → σ → Prop} {f : β → Action α σ γ} {items : List β}
    (h : ∀ before b after, items = before ++ b :: after →
      Triple (I before) (f b) (fun _ => I (before ++ [b])) E) :
    Triple (I []) (items.mapM f) (fun _ => I items) E := by
  have rounds : ∀ after before, items = before ++ after →
      Triple (I before) (after.mapM f) (fun _ => I items) E := by
    intro after
    induction after with
    | nil =>
      intro before hitems
      refine .pure fun s hs => ?_
      rw [hitems, List.append_nil]
      exact hs
    | cons b after ih =>
      intro before hitems
      rw [List.mapM_cons]
      refine .bind (h before b after hitems) fun _ => .bind (ih (before ++ [b]) ?_) fun _ =>
        .pure fun _ => id
      rw [hitems, List.append_assoc]
      rfl
  exact rounds items [] rfl

/-- An item after a first part of the natural numbers up to a bound is the length of that part. -/
theorem eq_length_of_range_eq {n k : ℕ} {before after : List ℕ}
    (h : List.range n = before ++ k :: after) : k = before.length ∧ k < n := by
  have hlength : n = before.length + (after.length + 1) := by
    simpa using congrArg List.length h
  have at_k : (before ++ k :: after)[before.length]? = some k := by
    rw [List.getElem?_append_right (Nat.le_refl _), Nat.sub_self]
    rfl
  rw [← h, List.getElem?_range (by omega)] at at_k
  have hk := (Option.some.inj at_k).symm
  exact ⟨hk, by omega⟩

/-- A loop over the first natural numbers, by an invariant that counts the rounds. -/
theorem Triple.forM_range {I : ℕ → σ → Prop} {f : ℕ → Action α σ PUnit} {n : ℕ}
    (h : ∀ k < n, Triple (I k) (f k) (fun _ => I (k + 1)) E) :
    Triple (I 0) ((List.range n).forM f) (fun _ => I n) E := by
  have loop : Triple (I ([] : List ℕ).length) ((List.range n).forM f)
      (fun _ => I (List.range n).length) E := by
    refine Triple.forM_prefix (I := fun before => I before.length) fun before k after hitems => ?_
    obtain ⟨rfl, hk⟩ := eq_length_of_range_eq hitems
    rw [List.length_append]
    exact h before.length hk
  rwa [List.length_range] at loop

theorem Triple.mapM_range {I : ℕ → σ → Prop} {f : ℕ → Action α σ γ} {n : ℕ}
    (h : ∀ k < n, Triple (I k) (f k) (fun _ => I (k + 1)) E) :
    Triple (I 0) ((List.range n).mapM f) (fun _ => I n) E := by
  have loop : Triple (I ([] : List ℕ).length) ((List.range n).mapM f)
      (fun _ => I (List.range n).length) E := by
    refine Triple.mapM_prefix (I := fun before => I before.length) fun before k after hitems => ?_
    obtain ⟨rfl, hk⟩ := eq_length_of_range_eq hitems
    rw [List.length_append]
    exact h before.length hk
  rwa [List.length_range] at loop

/-! ### What an action keeps -/

variable {I : σ → Prop} {R : β → Prop}

theorem Ensures.ok (h : Ensures I act R) {s t : σ} {b : β} (hs : I s) (hr : act s = .ok b t) :
    I t ∧ R b := Triple.ok h hs hr

theorem Ensures.error (h : Ensures I act R) {s t : σ} {e : Failure α} (hs : I s)
    (hr : act s = .error e t) : I t := Triple.error h hs hr

theorem Ensures.final (h : Ensures I act R) {s : σ} (hs : I s) : I (act.final s) :=
  Triple.final (h.consequence (fun _ => id) (fun _ _ => And.left) fun _ => id) hs

theorem final_of_ok {s t : σ} {b : β} (h : act s = .ok b t) : act.final s = t := by
  rw [final, h]

/-- What holds of the states in which an action ends is kept. -/
theorem Ensures.of_final (h : ∀ s, I s → I (act.final s)) : Ensures I act fun _ => True := by
  refine .of_cases (fun s b t hs hr => ⟨?_, trivial⟩) fun s e t hs hr => ?_
  all_goals
    have := h s hs
    rwa [Action.final, hr] at this

/-- Properties that are kept are kept together. -/
theorem Ensures.all {ι : Sort*} {I : ι → σ → Prop} (h : ∀ i, Ensures (I i) act fun _ => True) :
    Ensures (fun s => ∀ i, I i s) act fun _ => True :=
  .of_cases (fun _ _ _ hs hr => ⟨fun i => ((h i).ok (hs i) hr).1, trivial⟩)
    fun _ _ _ hs hr i => (h i).error (hs i) hr

theorem Ensures.and {I' : σ → Prop} {R' : β → Prop} (h : Ensures I act R) (h' : Ensures I' act R') :
    Ensures (fun s => I s ∧ I' s) act fun b => R b ∧ R' b :=
  .of_cases (fun _ _ _ hs hr => ⟨⟨(h.ok hs.1 hr).1, (h'.ok hs.2 hr).1⟩, (h.ok hs.1 hr).2,
    (h'.ok hs.2 hr).2⟩) fun _ _ _ hs hr => ⟨h.error hs.1 hr, h'.error hs.2 hr⟩

/-- What does not depend on the state is kept. -/
theorem Ensures.const {p : Prop} (h : Ensures I act R) : Ensures (fun s => I s ∧ p) act R :=
  .of_cases (fun _ _ _ hs hr => ⟨⟨(h.ok hs.1 hr).1, hs.2⟩, (h.ok hs.1 hr).2⟩)
    fun _ _ _ hs hr => ⟨h.error hs.1 hr, hs.2⟩

/-- A property of some kind is kept if all of them are. -/
theorem Ensures.exists {ι : Sort*} {I : ι → σ → Prop} (h : ∀ i, Ensures (I i) act R) :
    Ensures (fun s => ∃ i, I i s) act R :=
  .of_cases (fun _ _ _ ⟨i, hs⟩ hr => ⟨⟨i, ((h i).ok hs hr).1⟩, ((h i).ok hs hr).2⟩)
    fun _ _ _ ⟨i, hs⟩ hr => ⟨i, (h i).error hs hr⟩

theorem Ensures.weaken {R' : β → Prop} (h : Ensures I act R) (hR : ∀ b, R b → R' b) :
    Ensures I act R' :=
  h.consequence (fun _ => id) (fun _ _ hQ => ⟨hQ.1, hR _ hQ.2⟩) fun _ => id

theorem Ensures.pure {b : β} (h : R b) : Ensures I (Pure.pure b : Action α σ β) R :=
  Triple.pure fun _ hs => ⟨hs, h⟩

theorem Ensures.throw {e : Failure α} : Ensures I (MonadExcept.throw e : Action α σ β) R :=
  Triple.throw fun _ => id

theorem Ensures.bind {f : β → Action α σ γ} {S : γ → Prop} (h : Ensures I act R)
    (hf : ∀ b, R b → Ensures I (f b) S) : Ensures I (act >>= f) S :=
  Triple.bind h fun b => .of_cases (fun _ _ _ hs hr => (hf b hs.2).ok hs.1 hr)
    fun _ _ _ hs hr => (hf b hs.2).error hs.1 hr

theorem Ensures.get : Ensures I (MonadState.get : Action α σ σ) I :=
  Triple.get fun _ hs => ⟨hs, hs⟩

theorem Ensures.modify {f : σ → σ} (h : ∀ s, I s → I (f s)) :
    Ensures I (modifyThe σ f : Action α σ PUnit) fun _ => True :=
  Triple.modify fun s hs => ⟨h s hs, trivial⟩

theorem Ensures.ofExcept {x : Except (Failure α) β} (h : ∀ b, x = .ok b → R b) :
    Ensures I (Action.ofExcept x) R :=
  Triple.ofExcept (fun b _ hx hs => ⟨hs, h b hx⟩) fun _ _ _ hs => hs

theorem Ensures.ofOption {e : Failure α} {x : Option β} (h : ∀ b, x = some b → R b) :
    Ensures I (Action.ofOption e x) R :=
  Triple.ofOption (fun b _ hx hs => ⟨hs, h b hx⟩) fun _ _ hs => hs

theorem Ensures.ite {c : Prop} [Decidable c] {act' : Action α σ β} (h : c → Ensures I act R)
    (h' : ¬c → Ensures I act' R) : Ensures I (if c then act else act') R := Triple.ite h h'

/-- An action that is left out under a condition, and what comes after. -/
theorem Ensures.when {c : Prop} [Decidable c] {f : β → Action α σ γ} {S : γ → Prop} {b : β}
    (h : c → Ensures I act R) (hb : ¬c → R b) (hf : ∀ b, R b → Ensures I (f b) S) :
    Ensures I (if c then act >>= f else f b) S :=
  .ite (fun hc => .bind (h hc) hf) fun hc => hf b (hb hc)

/-- An action on a part of the state keeps what holds of the whole, if the part is put back. -/
theorem Ensures.focus {part : σ → τ} {replace : σ → τ → σ} {act : Action α τ β} {J : τ → Prop}
    (h : Ensures J act R) (hpart : ∀ s, I s → J (part s))
    (hreplace : ∀ s t, I s → J t → I (replace s t)) :
    Ensures I (Action.focus part replace act) R := by
  intro s hs
  show match Action.focus part replace act s with
    | .ok b t => I t ∧ R b
    | .error _ t => I t
  unfold Action.focus
  cases hr : act (part s) with
  | ok b t =>
    obtain ⟨ht, hb⟩ := h.ok (hpart s hs) hr
    exact ⟨hreplace s t hs ht, hb⟩
  | error e t => exact hreplace s t hs (h.error (hpart s hs) hr)

/-- An action on a part of the state that a property does not depend on. -/
theorem Ensures.elsewhere {part : σ → τ} {replace : σ → τ → σ} (act : Action α τ β)
    (h : ∀ s t, I s → I (replace s t)) :
    Ensures I (Action.focus part replace act) fun _ => True :=
  .focus (J := fun _ => True) (fun t _ => by cases act t <;> trivial) (fun _ _ => trivial)
    fun s t hs _ => h s t hs

/-- What is done in the end is done whether the action fails or not. -/
theorem tryFinally_eq (act : Action α σ β) (fin : Action α σ γ) (s : σ) :
    tryFinally act fin s =
      match act s with
      | .ok b t =>
        match fin t with
        | .ok _ u => .ok b u
        | .error e u => .error e u
      | .error e t =>
        match fin t with
        | .ok _ u => .error e u
        | .error e' u => .error e' u := by
  simp only [tryFinally, Functor.map, EStateM.map, tryFinally']
  cases act s with
  | ok b t => cases h : fin t <;> simp only [h]
  | error e t => cases h : fin t <;> simp only [h]

theorem Triple.tryFinally {fin : Action α σ γ} (h : Triple P act Q E)
    (hfin : ∀ b, Ensures (Q b) fin fun _ => True) (hfailed : Ensures E fin fun _ => True)
    (hQ : ∀ b s, Q b s → E s) : Triple P (tryFinally act fin) Q E := by
  intro s hs
  rw [tryFinally_eq]
  cases hr : act s with
  | ok b t =>
    have ht := h.ok hs hr
    cases hf : fin t with
    | ok c u => simpa only [hf] using ((hfin b).ok ht hf).1
    | error e u => simpa only [hf] using hQ b u ((hfin b).error ht hf)
  | error e t =>
    have ht := h.error hs hr
    cases hf : fin t with
    | ok c u => simpa only [hf] using (hfailed.ok ht hf).1
    | error e' u => simpa only [hf] using hfailed.error ht hf

theorem Ensures.tryFinally {fin : Action α σ γ} (h : Ensures I act R)
    (hfin : Ensures I fin fun _ => True) : Ensures I (tryFinally act fin) R :=
  Triple.tryFinally h (fun _ => .of_cases
    (fun _ _ _ hs hr => ⟨⟨(hfin.ok hs.1 hr).1, hs.2⟩, trivial⟩)
    fun _ _ _ hs hr => ⟨hfin.error hs.1 hr, hs.2⟩) hfin fun _ _ => And.left

/-- A loop over a list keeps what every round keeps. -/
theorem Ensures.forM {items : List β} {f : β → Action α σ PUnit}
    (h : ∀ b ∈ items, Ensures I (f b) fun _ => True) :
    Ensures I (items.forM f) fun _ => True := by
  induction items with
  | nil => exact .pure trivial
  | cons b rest ih =>
    rw [List.forM_eq_forM, List.forM_cons]
    exact .bind (h b List.mem_cons_self) fun _ _ => ih fun c hc => h c (List.mem_cons_of_mem _ hc)

/-- The answers of a loop over a list are related to its items, if every answer is. -/
theorem Ensures.mapM {items : List β} {f : β → Action α σ γ} {S : β → γ → Prop}
    (h : ∀ b ∈ items, Ensures I (f b) (S b)) :
    Ensures I (items.mapM f) (List.Forall₂ S items) := by
  induction items with
  | nil => exact .pure .nil
  | cons b rest ih =>
    rw [List.mapM_cons]
    exact .bind (h b List.mem_cons_self) fun _ hb =>
      .bind (ih fun c hc => h c (List.mem_cons_of_mem _ hc)) fun _ hrest =>
        .pure (.cons hb hrest)

/-! ### What an action keeps that answers -/

theorem Completes.ok (h : Completes I act R) {s t : σ} {b : β} (hs : I s) (hr : act s = .ok b t) :
    I t ∧ R b := Triple.ok h hs hr

theorem Completes.of_ok (h : ∀ s b t, I s → act s = .ok b t → I t ∧ R b) : Completes I act R :=
  .of_cases h fun _ _ _ _ _ => trivial

theorem Ensures.completes (h : Ensures I act R) : Completes I act R :=
  h.consequence (fun _ => id) (fun _ _ => id) fun _ _ => trivial

theorem Completes.weaken {R' : β → Prop} (h : Completes I act R) (hR : ∀ b, R b → R' b) :
    Completes I act R' :=
  h.consequence (fun _ => id) (fun _ _ hQ => ⟨hQ.1, hR _ hQ.2⟩) fun _ => id

theorem Completes.bind {f : β → Action α σ γ} {S : γ → Prop} (h : Completes I act R)
    (hf : ∀ b, R b → Completes I (f b) S) : Completes I (act >>= f) S :=
  Triple.bind h fun b => .of_cases (fun _ _ _ hs hr => (hf b hs.2).ok hs.1 hr)
    fun _ _ _ _ _ => trivial

/-- An action on a part of the state keeps what holds of the whole, if the part is put back. -/
theorem Completes.focus {part : σ → τ} {replace : σ → τ → σ} {act : Action α τ β} {J : τ → Prop}
    (h : Completes J act R) (hpart : ∀ s, I s → J (part s))
    (hreplace : ∀ s t, I s → J t → I (replace s t)) :
    Completes I (Action.focus part replace act) R := by
  refine Triple.of_forall fun s hs => (Triple.focus (h.startingAt (hpart s hs))).consequence
    (fun _ => id) ?_ fun _ _ => trivial
  rintro b _ ⟨t, rfl, ht, hb⟩
  exact ⟨hreplace s t hs ht, hb⟩

theorem Completes.tryFinally {fin : Action α σ γ} (h : Completes I act R)
    (hfin : Completes I fin fun _ => True) : Completes I (tryFinally act fin) R := by
  refine .of_ok fun s b u hs hr => ?_
  rw [tryFinally_eq] at hr
  cases hact : act s with
  | ok b t =>
    obtain ⟨ht, hb⟩ := h.ok hs hact
    rw [hact] at hr
    cases hf : fin t with
    | ok c v =>
      simp only [hf] at hr
      cases hr
      exact ⟨(hfin.ok ht hf).1, hb⟩
    | error e v =>
      simp only [hf] at hr
      cases hr
  | error e t =>
    rw [hact] at hr
    cases hf : fin t <;> simp only [hf] at hr <;> cases hr

/-- A loop over a list keeps what every round keeps. -/
theorem Completes.forM {items : List β} {f : β → Action α σ PUnit}
    (h : ∀ b ∈ items, Completes I (f b) fun _ => True) :
    Completes I (items.forM f) fun _ => True := by
  induction items with
  | nil => exact (Ensures.pure trivial).completes
  | cons b rest ih =>
    rw [List.forM_eq_forM, List.forM_cons]
    exact .bind (h b List.mem_cons_self) fun _ _ => ih fun c hc => h c (List.mem_cons_of_mem _ hc)

/-- The answers of a loop over a list are related to its items, if every answer is. -/
theorem Completes.mapM {items : List β} {f : β → Action α σ γ} {S : β → γ → Prop}
    (h : ∀ b ∈ items, Completes I (f b) (S b)) :
    Completes I (items.mapM f) (List.Forall₂ S items) := by
  induction items with
  | nil => exact (Ensures.pure .nil).completes
  | cons b rest ih =>
    rw [List.mapM_cons]
    exact .bind (h b List.mem_cons_self) fun _ hb =>
      .bind (ih fun c hc => h c (List.mem_cons_of_mem _ hc)) fun _ hrest =>
        (Ensures.pure (.cons hb hrest)).completes

end Action

end Multistage
