/-!
# Insertion-ordered maps

A map lists its entries in the order in which their keys were first inserted. Keys are compared by
their Boolean equality, and a key that is inserted again keeps its place and its first form.

## Main definitions

- `Dict`: the map.
- `Dict.get?`, `Dict.insert`, `Dict.erase`, `Dict.modify`: look-up and the three changes.
- `Dict.ofList`: insertion of the entries of a list, one after the other.

## Main statements

- `Dict.get?_insert`, `Dict.keys_insert`: what is found after an insertion, and in which order.
-/

namespace Multistage

/-- A map from `κ` to `β` with its entries in insertion order. -/
structure Dict (κ β : Type) where
  entries : List (κ × β)

namespace Dict

variable {κ β γ : Type}

/-- The map without entries. -/
def empty : Dict κ β := ⟨[]⟩

instance : Inhabited (Dict κ β) := ⟨empty⟩

/-- The keys in insertion order. -/
def keys (d : Dict κ β) : List κ := d.entries.map (·.1)

/-- The values in insertion order of their keys. -/
def values (d : Dict κ β) : List β := d.entries.map (·.2)

/-- The number of entries. -/
def size (d : Dict κ β) : Nat := d.entries.length

/-- There is no entry. -/
def isEmpty (d : Dict κ β) : Bool := d.entries.isEmpty

/-- Apply a function to every value. -/
def mapValues (f : κ → β → γ) (d : Dict κ β) : Dict κ γ := ⟨d.entries.map fun e => (e.1, f e.1 e.2)⟩

/-- A map with changed values has the same keys. -/
@[simp] theorem keys_mapValues (f : κ → β → γ) (d : Dict κ β) :
    (d.mapValues f).keys = d.keys := by
  simp [keys, mapValues, Function.comp_def]

variable [BEq κ]

/-- The value of a key. -/
def get? (d : Dict κ β) (key : κ) : Option β := (d.entries.find? (·.1 == key)).map (·.2)

/-- The value of a key, or another if it has none. -/
def getD (d : Dict κ β) (key : κ) (other : β) : β := (d.get? key).getD other

/-- The key has a value. -/
def contains (d : Dict κ β) (key : κ) : Bool := d.entries.any (·.1 == key)

/-- Entries with the value of the first entry of a key changed. -/
def modifyEntries (key : κ) (f : β → β) : List (κ × β) → List (κ × β)
  | [] => []
  | e :: rest => if e.1 == key then (e.1, f e.2) :: rest else e :: modifyEntries key f rest

/-- Change the value of a key, if it has one. -/
def modify (d : Dict κ β) (key : κ) (f : β → β) : Dict κ β := ⟨modifyEntries key f d.entries⟩

/-- Give a key a value: in place if the key has one, at the end otherwise. -/
def insert (d : Dict κ β) (key : κ) (value : β) : Dict κ β :=
  if d.contains key then d.modify key fun _ => value else ⟨d.entries ++ [(key, value)]⟩

/-- Remove the entry of a key. -/
def erase (d : Dict κ β) (key : κ) : Dict κ β := ⟨d.entries.eraseP (·.1 == key)⟩

/-- Insert the entries of a list, one after the other. -/
def insertAll (d : Dict κ β) (entries : List (κ × β)) : Dict κ β :=
  entries.foldl (fun d e => d.insert e.1 e.2) d

/-- The map of a list of entries; a later entry of the same key wins in the place of the first. -/
def ofList (entries : List (κ × β)) : Dict κ β := empty.insertAll entries

/-! ### Look-up after a change -/

/-- The map without entries has no values. -/
@[simp] theorem get?_empty (key : κ) : (empty : Dict κ β).get? key = none := rfl

/-- A key has a value iff looking it up finds one. -/
theorem contains_eq_isSome_get? (d : Dict κ β) (key : κ) :
    d.contains key = (d.get? key).isSome := by
  rw [Bool.eq_iff_iff]
  simp only [contains, get?, Option.isSome_map, List.find?_isSome, List.any_eq_true]

/-- Changing a value keeps the keys and their order. -/
@[simp] theorem keys_modify (d : Dict κ β) (key : κ) (f : β → β) :
    (d.modify key f).keys = d.keys := by
  have h : ∀ es : List (κ × β), (modifyEntries key f es).map (·.1) = es.map (·.1) := by
    intro es
    induction es with
    | nil => rfl
    | cons e rest ih =>
      by_cases he : (e.1 == key) = true
      · simp [modifyEntries, he]
      · simp [modifyEntries, he, ih]
  exact h d.entries

/-- An insertion keeps the keys and their order, and adds a new key at the end. -/
theorem keys_insert (d : Dict κ β) (key : κ) (value : β) :
    (d.insert key value).keys = if d.contains key then d.keys else d.keys ++ [key] := by
  by_cases h : d.contains key = true
  · simp [insert, h]
  · simp [insert, h, keys]

/-- Changing the value of a key changes what is found under equal keys only. -/
theorem get?_modify [EquivBEq κ] (d : Dict κ β) (key other : κ) (f : β → β) :
    (d.modify key f).get? other =
      if key == other then (d.get? other).map f else d.get? other := by
  have h : ∀ es : List (κ × β), (⟨modifyEntries key f es⟩ : Dict κ β).get? other =
      if key == other then ((⟨es⟩ : Dict κ β).get? other).map f
      else (⟨es⟩ : Dict κ β).get? other := by
    intro es
    induction es with
    | nil => simp [modifyEntries, get?]
    | cons e rest ih =>
      simp only [get?] at ih ⊢
      by_cases he : (e.1 == key) = true
      · by_cases hk : (key == other) = true
        · have hko : (e.1 == other) = true := BEq.trans he hk
          simp [modifyEntries, he, hk, hko]
        · have hko : (e.1 == other) = false := by
            cases hq : e.1 == other
            · rfl
            · exact absurd (BEq.trans (BEq.symm he) hq) hk
          simp [modifyEntries, he, hk, hko]
      · by_cases ho : (e.1 == other) = true
        · have hk : (key == other) = false := by
            cases hq : key == other
            · rfl
            · exact absurd (BEq.trans ho (BEq.symm hq)) he
          simp [modifyEntries, he, ho, hk]
        · simp [modifyEntries, he, ho, ih]
  exact h d.entries

/-- After an insertion the new value is found under equal keys, and all else as before. -/
theorem get?_insert [EquivBEq κ] (d : Dict κ β) (key other : κ) (value : β) :
    (d.insert key value).get? other = if key == other then some value else d.get? other := by
  by_cases h : d.contains key = true
  · simp only [insert, h, if_true, get?_modify]
    by_cases hk : (key == other) = true
    · have hs : (d.get? other).isSome = true := by
        rw [← contains_eq_isSome_get?]
        simp only [contains, List.any_eq_true] at h ⊢
        obtain ⟨e, he, hek⟩ := h
        exact ⟨e, he, BEq.trans hek hk⟩
      obtain ⟨v, hv⟩ := Option.isSome_iff_exists.1 hs
      simp [hk, hv]
    · simp [hk]
  · simp only [insert, h, get?]
    by_cases hk : (key == other) = true
    · have hn : d.entries.find? (·.1 == other) = none := by
        rw [List.find?_eq_none]
        intro e he hek
        exact h (List.any_eq_true.2 ⟨e, he, BEq.trans hek (BEq.symm hk)⟩)
      simp [hk, hn]
    · simp [hk]

/-- What was inserted under a key is found under it. -/
@[simp] theorem get?_insert_self [EquivBEq κ] (d : Dict κ β) (key : κ) (value : β) :
    (d.insert key value).get? key = some value := by
  simp [get?_insert]

end Dict

end Multistage
