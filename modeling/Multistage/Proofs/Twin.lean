import Multistage.Proofs.Action

/-!
# Actions on images

Two runs can be compared step by step if one acts on the image of a state as the other does on the
state: it answers with the image of the answer, or it fails for the same cause, and leaves the image
of the state that the other leaves.

## Main definitions

- `Action.imageOf`: the image of how an action ends.
- `Action.Mirrors`: an action does on images what another does.
- `Action.Twin`: the same, of an action that keeps a property of the state.

## Main statements

- `Action.Mirrors.bind`, `Action.Twin.bind`: one action after another.
- `Action.Twin.forM`, `Action.Twin.mapM`: loops over a list.
-/

namespace Multistage

namespace Action

variable {α σ τ β γ : Type}

/-- The image of how an action ends. -/
def imageOf (h : β → γ) (g : σ → τ) : EStateM.Result (Failure α) σ β →
    EStateM.Result (Failure α) τ γ
  | .ok b s => .ok (h b) (g s)
  | .error e s => .error e (g s)

/-- From a state with `P`, the second action does on the image of the state what the first does. -/
def Mirrors (g : σ → σ) (h : β → β) (P : σ → Prop) (act act' : Action α σ β) : Prop :=
  ∀ s, P s → act' (g s) = imageOf h g (act s)

/-- The first action keeps `I` and its answer has `R`, and the second mirrors it. -/
structure Twin (g : σ → σ) (h : β → β) (I : σ → Prop) (R : β → Prop) (act act' : Action α σ β) :
    Prop where
  keeps : Ensures I act R
  mirrors : Mirrors g h I act act'

variable {g : σ → σ} {h : β → β} {k : γ → γ} {P I : σ → Prop} {R : β → Prop}
  {act act' : Action α σ β}

/-! ### Mirrors -/

theorem Mirrors.weaken {P' : σ → Prop} (hact : Mirrors g h P act act') (hP : ∀ s, P' s → P s) :
    Mirrors g h P' act act' := fun s hs => hact s (hP s hs)

theorem Mirrors.pure {b : β} : Mirrors g h P (Pure.pure b) (Pure.pure (h b) : Action α σ β) :=
  fun _ _ => rfl

theorem Mirrors.throw {e : Failure α} :
    Mirrors g h P (MonadExcept.throw e) (MonadExcept.throw e : Action α σ β) :=
  fun _ _ => rfl

theorem Mirrors.get : Mirrors g g P MonadState.get (MonadState.get : Action α σ σ) := fun _ _ => rfl

theorem Mirrors.modify {f f' : σ → σ} (hf : ∀ s, P s → f' (g s) = g (f s)) :
    Mirrors g id P (modifyThe σ f : Action α σ PUnit) (modifyThe σ f') := fun s hs =>
  congrArg (EStateM.Result.ok PUnit.unit) (hf s hs)

theorem Mirrors.ofExcept {x x' : Except (Failure α) β} (hx : x' = x.map h) :
    Mirrors g h P (Action.ofExcept x) (Action.ofExcept x') := by
  subst hx
  cases x <;> exact fun _ _ => rfl

theorem Mirrors.ofOption {e : Failure α} {x x' : Option β} (hx : x' = x.map h) :
    Mirrors g h P (Action.ofOption e x) (Action.ofOption e x') := by
  subst hx
  cases x <;> exact fun _ _ => rfl

theorem Mirrors.bind {Q : β → σ → Prop} {E : σ → Prop} {f f' : β → Action α σ γ}
    (hact : Mirrors g h P act act') (htriple : Triple P act Q E)
    (hf : ∀ b, Mirrors g k (Q b) (f b) (f' (h b))) : Mirrors g k P (act >>= f) (act' >>= f') := by
  intro s hs
  show EStateM.bind act' f' (g s) = imageOf k g (EStateM.bind act f s)
  unfold EStateM.bind
  rw [hact s hs]
  cases hr : act s with
  | ok b t => exact hf b t (htriple.ok hs hr)
  | error e t => rfl

/-- After the state is read it is known. -/
theorem Mirrors.get_bind {f f' : σ → Action α σ γ}
    (hf : ∀ s, P s → Mirrors g k (· = s) (f s) (f' (g s))) :
    Mirrors g k P (MonadState.get >>= f) (MonadState.get >>= f') := fun s hs => hf s hs s rfl

theorem Mirrors.ofExcept_bind {x x' : Except (Failure α) β} {f f' : β → Action α σ γ}
    (hx : x' = x.map h) (hf : ∀ b, x = .ok b → Mirrors g k P (f b) (f' (h b))) :
    Mirrors g k P (Action.ofExcept x >>= f) (Action.ofExcept x' >>= f') := by
  subst hx
  cases x with
  | ok b => exact hf b rfl
  | error e => exact fun _ _ => rfl

theorem Mirrors.ite {c : Prop} [Decidable c] {act₁ act₁' : Action α σ β}
    (hc : c → Mirrors g h P act act') (hc' : ¬c → Mirrors g h P act₁ act₁') :
    Mirrors g h P (if c then act else act₁) (if c then act' else act₁') := by
  split
  next h => exact hc h
  next h => exact hc' h

/-- Acting on a part of the state whose image is a part of the image. -/
theorem Mirrors.focus {g₁ : τ → τ} {Q : τ → Prop} {part : σ → τ} {replace : σ → τ → σ}
    {act act' : Action α τ β} (hact : Mirrors g₁ h Q act act') (hQ : ∀ s, P s → Q (part s))
    (hpart : ∀ s, P s → part (g s) = g₁ (part s))
    (hreplace : ∀ s t, P s → replace (g s) (g₁ t) = g (replace s t)) :
    Mirrors g h P (Action.focus part replace act) (Action.focus part replace act') := by
  intro s hs
  unfold Action.focus
  rw [hpart s hs, hact _ (hQ s hs)]
  cases act (part s) with
  | ok b t => exact congrArg (EStateM.Result.ok _) (hreplace s t hs)
  | error e t => exact congrArg (EStateM.Result.error _) (hreplace s t hs)

/-! ### Twins -/

theorem Twin.weaken {R' : β → Prop} (hact : Twin g h I R act act') (hR : ∀ b, R b → R' b) :
    Twin g h I R' act act' := ⟨hact.keeps.weaken hR, hact.mirrors⟩

/-- What mirrors an action without a condition is its twin. -/
theorem Mirrors.twin (hact : Mirrors g h (fun _ => True) act act') :
    Twin g h (fun _ => True) (fun _ => True) act act' :=
  ⟨.of_final fun _ _ => trivial, hact⟩

/-- A property that is kept can be split into several that are. -/
theorem Twin.of_cases {ι : Type} {J : ι → σ → Prop} (hI : ∀ s, I s → ∃ i, J i s)
    (hJ : ∀ i s, J i s → I s) (hact : ∀ i, Twin g h (J i) R act act') : Twin g h I R act act' where
  keeps := .of_cases
    (fun s _ _ hs hr => let ⟨i, hi⟩ := hI s hs
      ⟨hJ i _ ((hact i).keeps.ok hi hr).1, ((hact i).keeps.ok hi hr).2⟩)
    fun s _ _ hs hr => let ⟨i, hi⟩ := hI s hs
      hJ i _ ((hact i).keeps.error hi hr)
  mirrors := fun s hs => let ⟨i, hi⟩ := hI s hs
    (hact i).mirrors s hi

theorem Twin.pure {b : β} (hb : R b) :
    Twin g h I R (Pure.pure b) (Pure.pure (h b) : Action α σ β) := ⟨.pure hb, .pure⟩

theorem Twin.throw {e : Failure α} :
    Twin g h I R (MonadExcept.throw e) (MonadExcept.throw e : Action α σ β) := ⟨.throw, .throw⟩

theorem Twin.get : Twin g g I I MonadState.get (MonadState.get : Action α σ σ) := ⟨.get, .get⟩

theorem Twin.modify {f f' : σ → σ} (hI : ∀ s, I s → I (f s)) (hf : ∀ s, I s → f' (g s) = g (f s)) :
    Twin g id I (fun _ => True) (modifyThe σ f : Action α σ PUnit) (modifyThe σ f') :=
  ⟨.modify hI, .modify hf⟩

theorem Twin.set {t t' : σ} (hI : ∀ s, I s → I t) (ht : t' = g t) :
    Twin g id I (fun _ => True) (MonadStateOf.set t : Action α σ PUnit) (MonadStateOf.set t') :=
  ⟨Triple.set fun s hs => ⟨hI s hs, trivial⟩, fun _ _ => congrArg (EStateM.Result.ok PUnit.unit) ht⟩

theorem Twin.ofExcept {x x' : Except (Failure α) β} (hx : x' = x.map h)
    (hR : ∀ b, x = .ok b → R b) :
    Twin g h I R (Action.ofExcept x) (Action.ofExcept x') := ⟨.ofExcept hR, .ofExcept hx⟩

theorem Twin.ofOption {e : Failure α} {x x' : Option β} (hx : x' = x.map h)
    (hR : ∀ b, x = some b → R b) :
    Twin g h I R (Action.ofOption e x) (Action.ofOption e x') := ⟨.ofOption hR, .ofOption hx⟩

theorem Twin.bind {S : γ → Prop} {f f' : β → Action α σ γ} (hact : Twin g h I R act act')
    (hf : ∀ b, R b → Twin g k I S (f b) (f' (h b))) : Twin g k I S (act >>= f) (act' >>= f') where
  keeps := hact.keeps.bind fun b hb => (hf b hb).keeps
  mirrors := hact.mirrors.bind hact.keeps fun b _ ht => (hf b ht.2).mirrors _ ht.1

theorem Twin.ite {c : Prop} [Decidable c] {act₁ act₁' : Action α σ β}
    (hc : c → Twin g h I R act act') (hc' : ¬c → Twin g h I R act₁ act₁') :
    Twin g h I R (if c then act else act₁) (if c then act' else act₁') :=
  ⟨.ite (fun h => (hc h).keeps) fun h => (hc' h).keeps,
    .ite (fun h => (hc h).mirrors) fun h => (hc' h).mirrors⟩

/-- An action that is left out under a condition, and what comes after. -/
theorem Twin.when {c : Prop} [Decidable c] {S : γ → Prop} {f f' : β → Action α σ γ} {b : β}
    (hc : c → Twin g h I R act act') (hb : ¬c → R b)
    (hf : ∀ b, R b → Twin g k I S (f b) (f' (h b))) :
    Twin g k I S (if c then act >>= f else f b) (if c then act' >>= f' else f' (h b)) :=
  .ite (fun h => (hc h).bind hf) fun h => hf b (hb h)

/-- Acting on a part of the state whose image is a part of the image. -/
theorem Twin.focus {f : τ → τ} {J : τ → Prop} {part : σ → τ} {replace : σ → τ → σ}
    {act act' : Action α τ β} (hact : Twin f h J R act act') (hJ : ∀ s, I s → J (part s))
    (hI : ∀ s t, I s → J t → I (replace s t)) (hpart : ∀ s, I s → part (g s) = f (part s))
    (hreplace : ∀ s t, I s → replace (g s) (f t) = g (replace s t)) :
    Twin g h I R (Action.focus part replace act) (Action.focus part replace act') :=
  ⟨.focus hact.keeps hJ hI, .focus hact.mirrors hJ hpart hreplace⟩

/-- Acting on a part of the state that is the same in the image. -/
theorem Twin.elsewhere {part : σ → τ} {replace : σ → τ → σ} {act : Action α τ β}
    (hact : Ensures (fun _ => True) act R) (hI : ∀ s t, I s → I (replace s t))
    (hpart : ∀ s, I s → part (g s) = part s)
    (hreplace : ∀ s t, I s → replace (g s) t = g (replace s t)) :
    Twin g id I R (Action.focus part replace act) (Action.focus part replace act) := by
  refine .focus (f := id) (J := fun _ => True) ⟨hact, fun s _ => ?_⟩
    (fun _ _ => trivial) (fun s t hs _ => hI s t hs) hpart hreplace
  show act s = _
  cases act s <;> rfl

theorem Twin.tryFinally {h' : γ → γ} {fin fin' : Action α σ γ} (hact : Twin g h I R act act')
    (hfin : Twin g h' I (fun _ => True) fin fin') :
    Twin g h I R (tryFinally act fin) (tryFinally act' fin') := by
  refine ⟨hact.keeps.tryFinally hfin.keeps, fun s hs => ?_⟩
  rw [tryFinally_eq, tryFinally_eq, hact.mirrors s hs]
  cases hr : act s with
  | ok b t =>
    simp only [imageOf, hfin.mirrors t (hact.keeps.ok hs hr).1]
    cases fin t <;> rfl
  | error e t =>
    simp only [imageOf, hfin.mirrors t (hact.keeps.error hs hr)]
    cases fin t <;> rfl

/-- A loop over a list. -/
theorem Twin.forM {ι : Type} {items : List ι} {f f' : ι → Action α σ PUnit}
    (hf : ∀ i ∈ items, Twin g id I (fun _ => True) (f i) (f' i)) :
    Twin g id I (fun _ => True) (items.forM f) (items.forM f') := by
  induction items with
  | nil => exact .pure trivial
  | cons i rest ih =>
    simp only [List.forM_eq_forM, List.forM_cons] at ih ⊢
    exact .bind (hf i List.mem_cons_self) fun _ _ => ih fun c hc => hf c (List.mem_cons_of_mem _ hc)

/-- A loop that collects answers. -/
theorem Twin.mapM {ι : Type} {items : List ι} {f f' : ι → Action α σ β}
    (hf : ∀ i ∈ items, Twin g h I R (f i) (f' i)) :
    Twin g (List.map h) I (fun answers => ∀ b ∈ answers, R b) (items.mapM f) (items.mapM f') := by
  induction items with
  | nil => exact .pure (h := List.map h) (b := ([] : List β)) nofun
  | cons i rest ih =>
    rw [List.mapM_cons, List.mapM_cons]
    refine .bind (hf i List.mem_cons_self) fun b hb =>
      .bind (ih fun c hc => hf c (List.mem_cons_of_mem _ hc)) fun answers hanswers => ?_
    exact .pure (h := List.map h) (b := b :: answers) (List.forall_mem_cons.2 ⟨hb, hanswers⟩)

end Action

end Multistage
