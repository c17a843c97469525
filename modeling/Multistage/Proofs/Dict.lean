import Multistage.Dict
import Mathlib.Data.List.Nodup
import Mathlib.Data.Nat.Notation

/-!
# Look-up and entries of maps

What a look-up finds, in terms of the entries of a map.

## Main definitions

- `Dict.Distinct`: no two entries have equal keys.

## Main statements

- `Dict.get?_eq_some_iff`: a look-up in a map with distinct keys finds the entry of the key.
- `Dict.get?_eq_of_perm`: the order of the entries does not matter for a look-up.
-/

namespace Multistage

/-- Pairs are equal iff their parts are. -/
instance instEquivBEqPair {κ γ : Type} [BEq κ] [BEq γ] [EquivBEq κ] [EquivBEq γ] :
    EquivBEq (κ × γ) where
  rfl := Bool.and_eq_true_iff.2 ⟨BEq.rfl, BEq.rfl⟩
  symm h :=
    have h := Bool.and_eq_true_iff.1 h
    Bool.and_eq_true_iff.2 ⟨BEq.symm h.1, BEq.symm h.2⟩
  trans h k :=
    have h := Bool.and_eq_true_iff.1 h
    have k := Bool.and_eq_true_iff.1 k
    Bool.and_eq_true_iff.2 ⟨BEq.trans h.1 k.1, BEq.trans h.2 k.2⟩

namespace Dict

variable {κ β : Type} [BEq κ] {d : Dict κ β} {key : κ} {value : β}

/-- No two entries have equal keys. -/
def Distinct (d : Dict κ β) : Prop := d.entries.Pairwise fun e f => (e.1 == f.1) = false

theorem get?_cons (e : κ × β) (rest : List (κ × β)) :
    (⟨e :: rest⟩ : Dict κ β).get? key = if e.1 ==
    key then some e.2 else (⟨rest⟩ : Dict κ β).get? key := by
  unfold get?
  by_cases he : (e.1 == key) = true
  · rw [List.find?_cons_of_pos (p := fun x : κ × β => x.1 == key) he, if_pos he]
    rfl
  · rw [List.find?_cons_of_neg (p := fun x : κ × β => x.1 == key) he, if_neg he]

/-- What is found is the value of an entry with an equal key. -/
theorem exists_mem_of_get? (h : d.get? key = some value) :
    ∃ e ∈ d.entries, (e.1 == key) = true ∧ e.2 = value := by
  obtain ⟨e, he, rfl⟩ := Option.map_eq_some_iff.1 h
  exact ⟨e, List.mem_of_find?_eq_some he, by simpa using List.find?_some he, rfl⟩

/-- The entry of a key in a map, and the map with the value changed. -/
theorem exists_split (h : d.get? key = some value) :
    ∃ before k after, d.entries = before ++ (k, value) :: after ∧
      (k == key) = true ∧ ∀ f, (d.modify key f).entries = before ++ (k, f value) :: after := by
  obtain ⟨entries⟩ := d
  induction entries with
  | nil => cases h
  | cons e rest ih =>
    rw [get?_cons] at h
    by_cases he : (e.1 == key) = true
    · rw [if_pos he] at h
      cases h
      exact ⟨[], e.1, rest, rfl, he, fun f => if_pos he⟩
    · rw [if_neg he] at h
      obtain ⟨before, k, after, hrest, hk, hmodify⟩ := ih h
      refine ⟨e :: before, k, after, congrArg (e :: ·) hrest, hk, fun f => ?_⟩
      show (if e.1 == key then _ else _) = _
      rw [if_neg he]
      exact congrArg (e :: ·) (hmodify f)

theorem contains_eq_any_keys (d : Dict κ β) (key : κ) : d.contains key = d.keys.any (· == key) := by
  rw [keys, List.any_map]
  rfl

theorem contains_eq_contains_keys [PartialEquivBEq κ] (d : Dict κ β) (key : κ) :
    d.contains key = d.keys.contains key :=
  (contains_eq_any_keys d key).trans List.any_beq'

/-- Changing a value keeps the keys. -/
@[simp] theorem contains_modify (other : κ) (f : β → β) :
    (d.modify other f).contains key = d.contains key := by
  rw [contains_eq_any_keys, keys_modify, contains_eq_any_keys]

theorem exists_get?_of_mem_keys [ReflBEq κ] (h : key ∈ d.keys) : ∃ v, d.get? key = some v := by
  obtain ⟨e, he, rfl⟩ := List.mem_map.1 h
  rw [← Option.isSome_iff_exists, ← contains_eq_isSome_get?]
  exact List.any_eq_true.2 ⟨e, he, BEq.rfl⟩

theorem mem_keys_insert {other : κ} (h : other ∈ (d.insert key value).keys) :
    other = key ∨ other ∈ d.keys := by
  rw [keys_insert] at h
  split at h
  · exact .inr h
  · rcases List.mem_append.1 h with h | h
    · exact .inr h
    · exact .inl (List.mem_singleton.1 h)

theorem mem_keys_insertAll {entries : List (κ × β)} (h : key ∈ (d.insertAll entries).keys) :
    key ∈ d.keys ∨ key ∈ entries.map (·.1) := by
  induction entries generalizing d with
  | nil => exact .inl h
  | cons e rest ih =>
    rcases ih (d := d.insert e.1 e.2) h with h | h
    · rcases mem_keys_insert h with rfl | h
      · exact .inr List.mem_cons_self
      · exact .inl h
    · exact .inr (List.mem_cons_of_mem _ h)

/-- The keys of a map are those of the entries that it was made of. -/
theorem mem_keys_ofList {entries : List (κ × β)} (h : key ∈ (ofList entries).keys) :
    key ∈ entries.map (·.1) := (mem_keys_insertAll h).resolve_left List.not_mem_nil

/-- In a map with distinct keys a look-up finds the entry of the key. -/
theorem get?_eq_some_iff [EquivBEq κ] (h : d.Distinct) :
    d.get? key = some value ↔ ∃ e ∈ d.entries, (e.1 == key) = true ∧ e.2 = value := by
  refine ⟨exists_mem_of_get?, ?_⟩
  rintro ⟨e, he, hk, rfl⟩
  have first : ∀ es : List (κ × β), es.Pairwise (fun e f => (e.1 == f.1) = false) → e ∈ es →
      (⟨es⟩ : Dict κ β).get? key = some e.2 := by
    intro es hes hmem
    induction es with
    | nil => cases hmem
    | cons f rest ih =>
      cases hes with
      | cons hf hrest =>
        rw [get?_cons]
        cases hmem with
        | head => exact if_pos hk
        | tail _ hin =>
          have hne : ¬(f.1 == key) = true := fun hfk => by
            have := hf e hin
            rw [BEq.trans hfk (BEq.symm hk)] at this
            cases this
          rw [if_neg hne]
          exact ih hrest hin
  exact first d.entries h he

/-- The order of the entries does not matter for a look-up. -/
theorem get?_eq_of_perm [EquivBEq κ] {d' : Dict κ β} (h : d.Distinct)
    (hp : d.entries.Perm d'.entries) : d.get? key = d'.get? key := by
  have h' : d'.Distinct :=
    hp.pairwise h fun {e f} hef => by rw [BEq.comm]; exact hef
  ext value
  rw [get?_eq_some_iff h, get?_eq_some_iff h']
  constructor
  · rintro ⟨e, he, hk⟩
    exact ⟨e, hp.mem_iff.1 he, hk⟩
  · rintro ⟨e, he, hk⟩
    exact ⟨e, hp.mem_iff.2 he, hk⟩

/-- Maps in which the same is found have the same entries. -/
theorem perm_of_get?_eq [LawfulBEq κ] {d' : Dict κ β} (h : d.Distinct) (h' : d'.Distinct)
    (hget : ∀ k, d'.get? k = d.get? k) : d'.entries.Perm d.entries := by
  have nodup : ∀ {d : Dict κ β}, d.Distinct → d.entries.Nodup := fun hd =>
    hd.imp fun {e f} hef heq => by
      rw [heq, BEq.rfl] at hef
      cases hef
  have mem : ∀ {d : Dict κ β} {e : κ × β}, d.Distinct →
      (e ∈ d.entries ↔ d.get? e.1 = some e.2) := by
    intro d e hd
    rw [get?_eq_some_iff hd]
    constructor
    · exact fun he => ⟨e, he, BEq.rfl, rfl⟩
    · rintro ⟨f, hf, hk, hv⟩
      rwa [← show f = e from Prod.ext (eq_of_beq hk) hv]
  exact (List.perm_ext_iff_of_nodup (nodup h') (nodup h)).2 fun e => by rw [mem h', mem h, hget]

theorem distinct_iff_keys : d.Distinct ↔ d.keys.Pairwise fun a b => (a == b) = false := by
  rw [Distinct, keys, List.pairwise_map]

theorem Distinct.of_keys_eq {γ : Type} {d' : Dict κ γ} (h : d.Distinct)
    (hk : d'.keys = d.keys) : d'.Distinct := by
  rw [distinct_iff_keys] at h ⊢
  rwa [hk]

theorem Distinct.modify {f : β → β} (h : d.Distinct) : (d.modify key f).Distinct :=
  h.of_keys_eq (keys_modify d key f)

theorem Distinct.insert [EquivBEq κ] (h : d.Distinct) : (d.insert key value).Distinct := by
  by_cases hc : d.contains key = true
  · exact h.of_keys_eq (by rw [keys_insert, if_pos hc])
  · rw [Dict.insert, if_neg hc]
    refine List.pairwise_append.2 ⟨h, List.pairwise_singleton _ _, fun e he f hf => ?_⟩
    rw [List.mem_singleton.1 hf, Bool.eq_false_iff]
    exact fun hek => hc (List.any_eq_true.2 ⟨e, he, hek⟩)

theorem Distinct.erase (h : d.Distinct) : (d.erase key).Distinct :=
  h.sublist List.eraseP_sublist

theorem get?_erase [EquivBEq κ] (h : d.Distinct) (other : κ) :
    (d.erase key).get? other = if (key == other) = true then none else d.get? other := by
  have removed : ∀ es : List (κ × β), (⟨es⟩ : Dict κ β).Distinct →
      (⟨es.eraseP (·.1 == key)⟩ : Dict κ β).get? other =
        if (key == other) = true then none else (⟨es⟩ : Dict κ β).get? other := by
    intro es
    induction es with
    | nil => simp [get?]
    | cons e rest ih =>
      intro hd
      obtain ⟨hfirst, hrest⟩ := List.pairwise_cons.1 hd
      by_cases he : (e.1 == key) = true
      · have first : (e :: rest).eraseP (·.1 == key) = rest := List.eraseP_cons_of_pos he
        rw [first, get?_cons]
        by_cases hk : (key == other) = true
        · rw [if_pos hk]
          have none : rest.find? (·.1 == other) = none := by
            refine List.find?_eq_none.2 fun f hf hfo => ?_
            have := hfirst f hf
            rw [BEq.trans he (BEq.trans hk (BEq.symm hfo))] at this
            cases this
          rw [get?, none]
          rfl
        · rw [if_neg hk, if_neg fun heo => hk (BEq.trans (BEq.symm he) heo)]
      · have later : (e :: rest).eraseP (·.1 == key) = e :: rest.eraseP (·.1 == key) :=
          List.eraseP_cons_of_neg he
        rw [later, get?_cons, get?_cons, ih hrest]
        by_cases hk : (key == other) = true
        · rw [if_pos hk, if_pos hk, if_neg fun heo => he (BEq.trans heo (BEq.symm hk))]
        · rw [if_neg hk, if_neg hk]
  exact removed d.entries h

theorem get?_congr [EquivBEq κ] {other : κ} (h : (key == other) = true) :
    d.get? key = d.get? other := by
  have same : (fun e : κ × β => e.1 == key) = fun e => e.1 == other := by
    funext e
    rw [Bool.eq_iff_iff]
    exact ⟨fun he => BEq.trans he h, fun he => BEq.trans he (BEq.symm h)⟩
  rw [get?, get?, same]

theorem get?_mapValues {γ : Type} (f : β → γ) :
    (d.mapValues fun _ v => f v).get? key = (d.get? key).map f := by
  unfold get? mapValues
  rw [List.find?_map, Option.map_map, Option.map_map]
  rfl

/-- A change of a value that a function does not see. -/
theorem mapValues_modify_of_eq {γ : Type} {f : β → γ} {old new : β} (h : d.get? key = some old)
    (hf : f new = f old) :
    (d.modify key fun _ => new).mapValues (fun _ v => f v) = d.mapValues fun _ v => f v := by
  have entries : ∀ es : List (κ × β), (⟨es⟩ : Dict κ β).get? key = some old →
      (modifyEntries key (fun _ => new) es).map (fun e => (e.1, f e.2)) =
        es.map fun e => (e.1, f e.2) := by
    intro es
    induction es with
    | nil => intro _; rfl
    | cons e rest ih =>
      intro hfind
      rw [get?_cons] at hfind
      by_cases he : (e.1 == key) = true
      · rw [if_pos he] at hfind
        cases hfind
        simp [modifyEntries, he, hf]
      · rw [if_neg he] at hfind
        simp [modifyEntries, he, ih hfind]
  exact congrArg Dict.mk (entries d.entries h)

theorem contains_mapValues {γ : Type} (f : κ → β → γ) :
    (d.mapValues f).contains key = d.contains key := by
  unfold contains mapValues
  rw [List.any_map]
  rfl

/-- With lawful keys the value that a key has is changed as that of the key. -/
theorem get?_mapValues_of_lawful [LawfulBEq κ] {γ : Type} (f : κ → β → γ) :
    (d.mapValues f).get? key = (d.get? key).map (f key) := by
  unfold get? mapValues
  rw [List.find?_map]
  cases h : d.entries.find? ((·.1 == key) ∘ fun e => (e.1, f e.1 e.2)) with
  | none =>
    have : d.entries.find? (·.1 == key) = none := h
    rw [this]
    rfl
  | some e =>
    have : d.entries.find? (·.1 == key) = some e := h
    have found : e.1 = key := by simpa using List.find?_some this
    rw [this, ← found]
    rfl

section Changed

variable {γ : Type} {f : κ → β → γ}

theorem mapValues_modify {g : β → β} {g' : γ → γ} (h : ∀ k v, f k (g v) = g' (f k v)) :
    (d.modify key g).mapValues f = (d.mapValues f).modify key g' := by
  have entries : ∀ es : List (κ × β),
      (modifyEntries key g es).map (fun e => (e.1, f e.1 e.2)) =
        modifyEntries key g' (es.map fun e => (e.1, f e.1 e.2)) := by
    intro es
    induction es with
    | nil => rfl
    | cons e rest ih =>
      simp only [List.map_cons, modifyEntries]
      split
      · exact congrArg (fun v => (e.1, v) :: _) (h e.1 e.2)
      · rw [List.map_cons, ih]
  exact congrArg Dict.mk (entries d.entries)

/-- An insertion and a change of all values, where equal keys have their values changed alike. -/
theorem mapValues_insert (h : ∀ k k' v, (k == k') = true → f k v = f k' v) :
    (d.insert key value).mapValues f = (d.mapValues f).insert key (f key value) := by
  have entries : ∀ es : List (κ × β),
      (modifyEntries key (fun _ => value) es).map (fun e => (e.1, f e.1 e.2)) =
        modifyEntries key (fun _ => f key value) (es.map fun e => (e.1, f e.1 e.2)) := by
    intro es
    induction es with
    | nil => rfl
    | cons e rest ih =>
      simp only [List.map_cons, modifyEntries]
      split
      next he => rw [List.map_cons, h _ _ _ he]
      next => rw [List.map_cons, ih]
  unfold insert
  rw [contains_mapValues]
  split
  · exact congrArg Dict.mk (entries d.entries)
  · exact congrArg Dict.mk List.map_append

theorem mapValues_insertAll (h : ∀ k k' v, (k == k') = true → f k v = f k' v)
    (entries : List (κ × β)) :
    (d.insertAll entries).mapValues f =
      (d.mapValues f).insertAll (entries.map fun e => (e.1, f e.1 e.2)) := by
  induction entries generalizing d with
  | nil => rfl
  | cons e rest ih =>
    show ((d.insert e.1 e.2).insertAll rest).mapValues f = _
    rw [ih, mapValues_insert h]
    rfl

/-- An insertion into a map with other changes of the values, up to the value of the key. -/
theorem insert_mapValues [EquivBEq κ] (hd : d.Distinct)
    (h : ∀ k k' v, (k == k') = true → f k v = f k' v)
    (f₀ : κ → β → γ) :
    (d.mapValues f₀).insert key (f key value) =
      (d.insert key value).mapValues fun k v => if key == k then f k v else f₀ k v := by
  have other : ∀ es : List (κ × β), (∀ e ∈ es, (e.1 == key) = false) →
      es.map (fun e => (e.1, f₀ e.1 e.2)) =
        es.map fun e => (e.1, if key == e.1 then f e.1 e.2 else f₀ e.1 e.2) := by
    intro es hes
    refine List.map_congr_left fun e he => Prod.ext rfl ?_
    rw [if_neg]
    rw [BEq.comm, hes e he]
    exact Bool.false_ne_true
  have entries : ∀ es : List (κ × β), es.Pairwise (fun e e' => (e.1 == e'.1) = false) →
      modifyEntries key (fun _ => f key value) (es.map fun e => (e.1, f₀ e.1 e.2)) =
        (modifyEntries key (fun _ => value) es).map
          fun e => (e.1, if key == e.1 then f e.1 e.2 else f₀ e.1 e.2) := by
    intro es
    induction es with
    | nil => exact fun _ => rfl
    | cons e rest ih =>
      intro hes
      obtain ⟨hhead, hrest⟩ := List.pairwise_cons.1 hes
      simp only [List.map_cons, modifyEntries]
      split
      next he =>
        rw [List.map_cons, if_pos (BEq.symm he), h _ _ _ he, other rest fun e' he' => ?_]
        rw [Bool.eq_false_iff]
        intro heq
        have := hhead e' he'
        rw [BEq.trans he (BEq.symm heq)] at this
        cases this
      next he => rw [List.map_cons, ih hrest, if_neg fun heq => he (BEq.symm heq)]
  unfold insert
  rw [contains_mapValues]
  split
  · exact congrArg Dict.mk (entries d.entries hd)
  next hkey =>
    refine congrArg Dict.mk ?_
    have absent : ∀ e ∈ d.entries, (e.1 == key) = false := fun e he =>
      Bool.eq_false_iff.2 fun heq => hkey (List.any_eq_true.2 ⟨e, he, heq⟩)
    show d.entries.map _ ++ _ = (d.entries ++ _).map _
    simp only [List.map_append, other d.entries absent, List.map_singleton, BEq.rfl, if_true]

/-- Insertions into maps whose values are changed differently only under keys that are inserted. -/
theorem insertAll_mapValues [EquivBEq κ] {f₀ : κ → β → γ} {entries : List (κ × β)} (hd : d.Distinct)
    (h : ∀ k k' v, (k == k') = true → f k v = f k' v)
    (h₀ : ∀ k v, (∀ e ∈ entries, (e.1 == k) = false) → f₀ k v = f k v) :
    (d.mapValues f₀).insertAll (entries.map fun e => (e.1, f e.1 e.2)) =
      (d.insertAll entries).mapValues f := by
  induction entries generalizing d f₀ with
  | nil =>
    refine congrArg Dict.mk (List.map_congr_left fun e _ => Prod.ext rfl ?_)
    exact h₀ e.1 e.2 nofun
  | cons e rest ih =>
    show ((d.mapValues f₀).insert e.1 (f e.1 e.2)).insertAll _ =
        ((d.insert e.1 e.2).insertAll rest).mapValues f
    rw [insert_mapValues hd h]
    refine ih hd.insert fun k v hk => ?_
    split
    · rfl
    next he =>
      refine h₀ k v fun e' he' => ?_
      rcases List.mem_cons.1 he' with rfl | he'
      · exact Bool.eq_false_iff.2 he
      · exact hk e' he'

theorem mapValues_ofList (h : ∀ k k' v, (k == k') = true → f k v = f k' v)
    (entries : List (κ × β)) :
    (ofList entries).mapValues f = ofList (entries.map fun e => (e.1, f e.1 e.2)) :=
  mapValues_insertAll h entries

end Changed

/-- After insertions the last entry of a key counts. -/
theorem get?_insertAll [EquivBEq κ] (entries : List (κ × β)) (d : Dict κ β) :
    (d.insertAll entries).get? key =
      ((entries.filter (·.1 == key)).getLast?.map (·.2)).or (d.get? key) := by
  induction entries generalizing d with
  | nil => rfl
  | cons e rest ih =>
    show ((d.insert e.1 e.2).insertAll rest).get? key = _
    rw [ih, get?_insert]
    by_cases he : (e.1 == key) = true
    · rw [List.filter_cons_of_pos (p := fun x : κ × β => x.1 == key) he, if_pos he]
      cases hr : rest.filter (·.1 == key) with
      | nil => simp
      | cons f fs => simp [List.getLast?_cons]
    · rw [List.filter_cons_of_neg (p := fun x : κ × β => x.1 == key) he, if_neg he]

theorem get?_ofList [EquivBEq κ] (entries : List (κ × β)) :
    (ofList entries).get? key = (entries.filter (·.1 == key)).getLast?.map (·.2) := by
  rw [ofList, get?_insertAll, get?_empty, Option.or_none]

theorem Distinct.insertAll [EquivBEq κ] (h : d.Distinct) (entries : List (κ × β)) :
    (d.insertAll entries).Distinct := by
  induction entries generalizing d with
  | nil => exact h
  | cons e rest ih => exact ih h.insert

theorem distinct_ofList [EquivBEq κ] (entries : List (κ × β)) : (ofList entries).Distinct :=
  Distinct.insertAll List.Pairwise.nil entries

/-- Inserting entries with distinct new keys puts them at the end. -/
theorem insertAll_of_distinct [EquivBEq κ] {entries : List (κ × β)} :
    ∀ {d : Dict κ β}, (⟨d.entries ++ entries⟩ : Dict κ β).Distinct →
      d.insertAll entries = ⟨d.entries ++ entries⟩ := by
  induction entries with
  | nil =>
    intro d _
    show d = _
    rw [List.append_nil]
  | cons e rest ih =>
    intro d h
    have fresh : d.contains e.1 = false := by
      rw [Bool.eq_false_iff]
      intro hc
      obtain ⟨f, hf, hfe⟩ := List.any_eq_true.1 hc
      have := (List.pairwise_append.1 h).2.2 f hf e List.mem_cons_self
      rw [hfe] at this
      cases this
    have inserted : d.insert e.1 e.2 = ⟨d.entries ++ [e]⟩ := by
      rw [insert, fresh]
      rfl
    show (d.insert e.1 e.2).insertAll rest = _
    have happ : (d.entries ++ [e]) ++ rest = d.entries ++ e :: rest := by simp
    rw [inserted, ih (by rw [happ]; exact h), happ]

/-- The map of entries with distinct keys has just these entries. -/
theorem ofList_of_distinct [EquivBEq κ] {entries : List (κ × β)}
    (h : (⟨entries⟩ : Dict κ β).Distinct) : ofList entries = ⟨entries⟩ :=
  insertAll_of_distinct (d := empty) h

end Dict

end Multistage
