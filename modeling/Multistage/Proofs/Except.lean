import Mathlib.Data.List.Forall2

/-!
# Computations that answer

When a computation without a state answers, and what its answers are.

## Main statements

- `Except.toBool_bind`, `Except.toBool_ite`: what is known of a check that answers.
- `Except.bind_eq_ok`, `Except.map_eq_ok`: one computation after another.
- `Except.mapM_eq_ok`, `Except.forM_eq_ok`: a list of computations.
- `Except.foldlM_eq_ok`: a fold whose steps all answer.
- `Except.bind_image`, `Except.mapM_image`: computations that answer with images.
-/

namespace Multistage

namespace Except

variable {ε α β : Type}

/-- A computation that answers has an answer. -/
theorem exists_of_toBool {x : Except ε α} (h : x.toBool = true) : ∃ a, x = .ok a := by
  cases x with
  | error e => cases h
  | ok a => exact ⟨a, rfl⟩

/-- One computation after another answers something iff both do. -/
theorem toBool_bind {x : Except ε α} {f : α → Except ε β} :
    (x >>= f).toBool = true ↔ ∃ a, x = .ok a ∧ (f a).toBool = true := by
  cases x with
  | error e => exact ⟨nofun, fun ⟨_, h, _⟩ => nomatch h⟩
  | ok a => exact ⟨fun h => ⟨a, rfl, h⟩, fun ⟨_, h, ha⟩ => Except.ok.inj h ▸ ha⟩

/-- A computation that only checks a condition answers iff the condition holds. -/
theorem toBool_ite {p : Prop} [Decidable p] {e : ε} :
    (if p then return () else .error e : Except ε Unit).toBool = true ↔ p := by
  split
  next h => exact ⟨fun _ => h, fun _ => rfl⟩
  next h => exact ⟨nofun, fun hp => absurd hp h⟩

theorem eq_ok_of_toOption {x : Except ε α} {a : α} (h : x.toOption = some a) : x = .ok a := by
  cases x with
  | error e => cases h
  | ok b =>
    cases h
    rfl

theorem elim_eq_ok {e : ε} {o : Option α} {a : α} :
    o.elim (Except.error e) Except.ok = Except.ok a ↔ o = some a := by
  cases o with
  | none =>
    constructor
    · intro h
      cases h
    · intro h
      cases h
  | some b =>
    constructor
    · intro h
      cases h
      rfl
    · intro h
      cases h
      rfl

/-- One computation after another answers iff both do. -/
theorem bind_eq_ok {x : Except ε α} {f : α → Except ε β} {b : β} :
    x >>= f = .ok b ↔ ∃ a, x = .ok a ∧ f a = .ok b := by
  cases x with
  | error e =>
    constructor
    · intro h
      cases h
    · rintro ⟨a, h, -⟩
      cases h
  | ok a =>
    constructor
    · intro h
      exact ⟨a, rfl, h⟩
    · rintro ⟨a', h, hb⟩
      cases h
      exact hb

theorem bind_eq_error {x : Except ε α} {f : α → Except ε β} {e : ε} :
    x >>= f = .error e ↔ x = .error e ∨ ∃ a, x = .ok a ∧ f a = .error e := by
  cases x with
  | error e' =>
    constructor
    · intro h
      cases h
      exact .inl rfl
    · rintro (h | ⟨_, h, -⟩)
      · cases h
        rfl
      · cases h
  | ok a =>
    constructor
    · exact fun h => .inr ⟨a, rfl, h⟩
    · rintro (h | ⟨_, h, hf⟩)
      · cases h
      · cases h
        exact hf

/-- One computation after another answers if the second does after whatever the first answers. -/
theorem exists_bind {x : Except ε α} {f : α → Except ε β} (hx : ∃ a, x = .ok a)
    (hf : ∀ a, x = .ok a → ∃ b, f a = .ok b) : ∃ b, x >>= f = .ok b := by
  obtain ⟨a, ha⟩ := hx
  obtain ⟨b, hb⟩ := hf a ha
  exact ⟨b, bind_eq_ok.2 ⟨a, ha, hb⟩⟩

theorem map_eq_ok {x : Except ε α} {f : α → β} {b : β} :
    x.map f = .ok b ↔ ∃ a, x = .ok a ∧ f a = b := by
  cases x with
  | error e =>
    constructor
    · intro h
      cases h
    · rintro ⟨a, h, -⟩
      cases h
  | ok a =>
    constructor
    · intro h
      cases h
      exact ⟨a, rfl, rfl⟩
    · rintro ⟨a', h, rfl⟩
      cases h
      rfl

theorem mapM_eq_ok {f : α → Except ε β} {items : List α} {answers : List β} :
    items.mapM f = .ok answers ↔ List.Forall₂ (fun a b => f a = .ok b) items answers := by
  induction items generalizing answers with
  | nil =>
    rw [List.mapM_nil, List.forall₂_nil_left_iff]
    constructor
    · intro h
      cases h
      rfl
    · rintro rfl
      rfl
  | cons a rest ih =>
    rw [List.mapM_cons, bind_eq_ok, List.forall₂_cons_left_iff]
    constructor
    · rintro ⟨b, hb, h⟩
      obtain ⟨bs, hbs, h⟩ := bind_eq_ok.1 h
      cases h
      exact ⟨b, bs, hb, ih.1 hbs, rfl⟩
    · rintro ⟨b, bs, hb, hbs, rfl⟩
      exact ⟨b, hb, bind_eq_ok.2 ⟨bs, ih.2 hbs, rfl⟩⟩

/-- The answers of a list of computations are all that the computations give. -/
theorem mapM_eq_ok_iff_map {f : α → Except ε β} {items : List α} {answers : List β} :
    items.mapM f = .ok answers ↔ items.map f = answers.map .ok := by
  rw [mapM_eq_ok]
  induction items generalizing answers with
  | nil => simp
  | cons a rest ih =>
    cases answers with
    | nil => simp
    | cons b bs => rw [List.forall₂_cons, ih, List.map_cons, List.map_cons, List.cons.injEq]

/-- A list of computations answers if each of them does. -/
theorem exists_mapM {f : α → Except ε β} {items : List α} (h : ∀ a ∈ items, ∃ b, f a = .ok b) :
    ∃ answers, items.mapM f = .ok answers := by
  induction items with
  | nil => exact ⟨[], mapM_eq_ok.2 .nil⟩
  | cons a rest ih =>
    obtain ⟨b, hb⟩ := h a List.mem_cons_self
    obtain ⟨bs, hbs⟩ := ih fun c hc => h c (List.mem_cons_of_mem _ hc)
    exact ⟨b :: bs, mapM_eq_ok.2 (.cons hb (mapM_eq_ok.1 hbs))⟩

theorem exists_of_mem_mapM {f : α → Except ε β} {items : List α} {answers : List β}
    (h : items.mapM f = .ok answers) {b : β} (hb : b ∈ answers) : ∃ a ∈ items, f a = .ok b := by
  have all := mapM_eq_ok.1 h
  clear h
  induction all with
  | nil => cases hb
  | cons hab _ ih =>
    rcases List.mem_cons.1 hb with rfl | hb
    · exact ⟨_, List.mem_cons_self, hab⟩
    · obtain ⟨a, ha, hfa⟩ := ih hb
      exact ⟨a, List.mem_cons_of_mem _ ha, hfa⟩

theorem exists_of_mem_items {f : α → Except ε β} {items : List α} {answers : List β}
    (h : items.mapM f = .ok answers) {a : α} (ha : a ∈ items) : ∃ b ∈ answers, f a = .ok b := by
  have all := mapM_eq_ok.1 h
  clear h
  induction all with
  | nil => cases ha
  | cons hab _ ih =>
    rcases List.mem_cons.1 ha with rfl | ha
    · exact ⟨_, List.mem_cons_self, hab⟩
    · obtain ⟨b, hb, hfa⟩ := ih ha
      exact ⟨b, List.mem_cons_of_mem _ hb, hfa⟩

theorem exists_of_mapM_eq_error {f : α → Except ε β} {items : List α} {e : ε}
    (h : items.mapM f = .error e) :
    ∃ a ∈ items, f a = .error e := by
  induction items with
  | nil => cases h
  | cons a rest ih =>
    rw [List.mapM_cons] at h
    obtain ha | ⟨_, -, h⟩ := bind_eq_error.1 h
    · exact ⟨a, List.mem_cons_self, ha⟩
    obtain hrest | ⟨_, -, h⟩ := bind_eq_error.1 h
    · obtain ⟨c, hc, hfc⟩ := ih hrest
      exact ⟨c, List.mem_cons_of_mem _ hc, hfc⟩
    · cases h

/-- What every computation keeps of its item is kept of all items. -/
theorem map_eq_of_mapM {γ : Type} {f : α → Except ε β} {items : List α} {answers : List β}
    (h : items.mapM f = .ok answers) {g : α → γ} {k : β → γ}
    (hf : ∀ a ∈ items, ∀ b, f a = .ok b → k b = g a) : answers.map k = items.map g := by
  have all := mapM_eq_ok.1 h
  clear h
  induction all with
  | nil => rfl
  | cons hab _ ih =>
    rw [List.map_cons, List.map_cons, hf _ List.mem_cons_self _ hab,
      ih fun a ha => hf a (List.mem_cons_of_mem _ ha)]

/-- Entries whose values are computed one by one have the keys of the items. -/
theorem keys_of_mapM {κ : Type} {key : α → κ} {value : α → Except ε β} {items : List α}
    {entries : List (κ × β)}
    (h : (items.mapM fun a => do return (key a, ← value a)) = .ok entries) : entries.map (·.1) =
    items.map key :=
  map_eq_of_mapM h fun a _ e he => by
    obtain ⟨v, -, he⟩ := bind_eq_ok.1 he
    cases he
    rfl

/-- Computations on images answer with images where those on the items answer. -/
theorem mapM_map_of_ok {γ δ : Type} {f : α → Except ε β} {f' : γ → Except ε δ} {k : α → γ}
    {g : β → δ} {items : List α} {answers : List β} (h : items.mapM f = .ok answers)
    (hf : ∀ a ∈ items, ∀ b ∈ answers, f a = .ok b → f' (k a) = .ok (g b)) :
    (items.map k).mapM f' = .ok (answers.map g) := by
  have all := mapM_eq_ok.1 h
  clear h
  induction all with
  | nil => rfl
  | cons hab _ ih =>
    have rest := ih fun a ha b hb => hf a (List.mem_cons_of_mem _ ha) b (List.mem_cons_of_mem _ hb)
    rw [List.map_cons, List.mapM_cons, hf _ List.mem_cons_self _ List.mem_cons_self hab]
    exact bind_eq_ok.2 ⟨_, rfl, bind_eq_ok.2 ⟨_, rest, rfl⟩⟩

/-- A loop over a list answers iff every round does. -/
theorem forM_eq_ok {f : α → Except ε Unit} {items : List α} :
    items.forM f = .ok () ↔ ∀ a ∈ items, f a = .ok () := by
  induction items with
  | nil =>
    constructor
    · rintro - a ⟨⟩
    · intro
      rfl
  | cons a rest ih =>
    rw [List.forM_eq_forM, List.forM_cons, bind_eq_ok, List.forall_mem_cons, ← ih]
    constructor
    · rintro ⟨_, ha, hrest⟩
      exact ⟨ha, hrest⟩
    · rintro ⟨ha, hrest⟩
      exact ⟨_, ha, hrest⟩

theorem foldlM_eq_ok {f : β → α → Except ε β} {g : β → α → β} {items : List α}
    (h : ∀ b, ∀ a ∈ items, f b a = .ok (g b a)) (b : β) :
    items.foldlM f b = .ok (items.foldl g b) := by
  induction items generalizing b with
  | nil => rfl
  | cons a rest ih =>
    rw [List.foldlM_cons, h b a List.mem_cons_self, List.foldl_cons]
    exact ih (fun b c hc => h b c (List.mem_cons_of_mem _ hc)) (g b a)

/-- Every step of a fold that answers does. -/
theorem exists_of_foldlM {f : β → α → Except ε β} {items : List α} {b c : β}
    (h : items.foldlM f b = .ok c) {a : α} (ha : a ∈ items) : ∃ b c, f b a = .ok c := by
  induction items generalizing b with
  | nil => cases ha
  | cons a' rest ih =>
    rw [List.foldlM_cons] at h
    obtain ⟨b', hb', h⟩ := bind_eq_ok.1 h
    rcases List.mem_cons.1 ha with rfl | ha
    · exact ⟨b, b', hb'⟩
    · exact ih h ha

/-- A list of computations whose answers are paired with something known of their items. -/
theorem mapM_pair {γ : Type} {f : α → Except ε β} {g : α → γ} (items : List α) :
    items.mapM (fun a => (f a).map fun b => (g a, b)) =
      (items.mapM f).map fun answers => (items.map g).zip answers := by
  induction items with
  | nil => rfl
  | cons a rest ih =>
    rw [List.mapM_cons, List.mapM_cons, ih]
    cases f a with
    | error e => rfl
    | ok b =>
      show _ >>= _ = (rest.mapM f >>= _).map _
      cases rest.mapM f <;> rfl

/-! ### Images of answers -/

variable {γ δ : Type}

/-- One computation after another on images, if both answer with images. -/
theorem bind_image {x : Except ε α} {x' : Except ε β} {f : α → Except ε γ} {f' : β → Except ε δ}
    {h : α → β} {k : γ → δ} (hx : x' = x.map h) (hf : ∀ a, x = .ok a → f' (h a) = (f a).map k) :
    x' >>= f' = (x >>= f).map k := by
  subst hx
  cases x with
  | error e => rfl
  | ok a => exact hf a rfl

theorem bind_congr {x : Except ε α} {f f' : α → Except ε β} (hf : ∀ a, x = .ok a → f' a = f a) :
    x >>= f' = x >>= f := by
  cases x with
  | error e => rfl
  | ok a => exact hf a rfl

theorem mapM_image {f : α → Except ε β} {f' : α → Except ε γ} {h : β → γ} {items : List α}
    (hf : ∀ a ∈ items, f' a = (f a).map h) : items.mapM f' = (items.mapM f).map (List.map h) := by
  induction items with
  | nil => rfl
  | cons a rest ih =>
    rw [List.mapM_cons, List.mapM_cons]
    refine bind_image (hf a List.mem_cons_self) fun b _ => ?_
    exact bind_image (ih fun c hc => hf c (List.mem_cons_of_mem _ hc)) fun _ _ => rfl

theorem mapM_congr {f f' : α → Except ε β} {items : List α} (hf : ∀ a ∈ items, f' a = f a) :
    items.mapM f' = items.mapM f := by
  rw [mapM_image (h := id) fun a ha => (hf a ha).trans (congrFun Except.map_id _).symm,
    List.map_id_fun]
  exact congrFun Except.map_id _

theorem foldlM_image {f : β → α → Except ε β} {f' : γ → α → Except ε γ} {h : β → γ} {items : List α}
    (hf : ∀ b, ∀ a ∈ items, f' (h b) a = (f b a).map h) (b : β) :
    items.foldlM f' (h b) = (items.foldlM f b).map h := by
  induction items generalizing b with
  | nil => rfl
  | cons a rest ih =>
    rw [List.foldlM_cons, List.foldlM_cons]
    exact bind_image (hf b a List.mem_cons_self) fun b' _ =>
      ih (fun c d hd => hf c d (List.mem_cons_of_mem _ hd)) b'

end Except

end Multistage
