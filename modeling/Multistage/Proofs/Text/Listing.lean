import Multistage.Proofs.Text.CellWidth

/-!
# Listings

A listing has three lines of headings, a first row, a row for each entry that is shown and for the
gap, and a last line. Where there is a gap, entries are hidden, and all but the first ones and the
last two are.

## Main definitions

- `Text.slotRow`: the row of an entry or of a gap.

## Main statements

- `Text.abridged_cases`: the entries that are shown.
- `Text.listing_eq_ok`: the lines of a listing.
-/

namespace Multistage

/-- An integer is compared as it is. -/
theorem Datum.atMost_of_toInteger {α : Type} [Scalar α] {d : Datum α} {n k : ℤ}
    (h : d.toInteger = .ok n) : d.atMost (.int k) = .ok (decide (n ≤ k)) := by
  have integer : d.integer? = some n := Except.elim_eq_ok.1 h
  have value : d.value = .ok (.finite n) := by
    unfold value
    rw [integer]
  rw [← Extended.le_intCast]
  exact Except.bind_eq_ok.2 ⟨_, value, rfl⟩

namespace Text

/-! ### Entries that are shown -/

variable {β γ : Type} {room : ℕ} {entries : List β}

theorem abridged_map (f : β → γ) (entries : List β) :
    abridged room (entries.map f) = (abridged room entries).map (Option.map f) := by
  unfold abridged
  simp only [List.length_map]
  split <;> simp [Function.comp_def]

/-- Either all entries are shown, or the first ones and the last two, and those in between are
hidden. -/
theorem abridged_cases (room : ℕ) (entries : List β) :
    (entries.length ≤ room + 2 ∧ abridged room entries = entries.map some) ∨
      ∃ upper hidden lower, entries = upper ++ hidden ++ lower ∧ upper.length = room ∧
        hidden ≠ [] ∧ lower.length = 2 ∧
        abridged room entries = upper.map some ++ none :: lower.map some := by
  by_cases fits : entries.length ≤ room + 2
  · exact .inl ⟨fits, if_pos fits⟩
  · refine .inr ⟨entries.take room, (entries.drop room).take (entries.length - room - 2),
      entries.drop (entries.length - 2), ?_, ?_, ?_, ?_, if_neg fits⟩
    · have last : entries.length - 2 = room + (entries.length - room - 2) := by omega
      rw [last, ← List.drop_drop, List.append_assoc, List.take_append_drop, List.take_append_drop]
    · rw [List.length_take]
      omega
    · apply List.ne_nil_of_length_pos
      rw [List.length_take, List.length_drop]
      omega
    · rw [List.length_drop]
      omega

theorem mem_of_some_mem_abridged {e : β} (h : some e ∈ abridged room entries) : e ∈ entries := by
  unfold abridged at h
  split at h
  · simpa using h
  · simp only [List.mem_append, List.mem_cons, List.mem_map, Option.some.injEq, exists_eq_right,
      reduceCtorEq, false_or] at h
    exact h.elim List.mem_of_mem_take List.mem_of_mem_drop

/-! ### Lines -/

variable {title heading root : String} {headings lines rows : List String}
  {first : String × List String} {items : List (String × List String)} {width height : Datum Float}

/-- The row of an entry in a listing, or of a gap. -/
def slotRow (w : Width) (indexWidth : ℕ) (headings : List String)
    (slot : Option (String × List String)) : Except (Failure Float) String :=
  let entry := slot.getD (ellipsis, headings.map fun _ => ellipsis)
  textRow w indexWidth headings.length (entry.1 ++ " ") entry.2

/-- The lines of a listing, which there are for a height of more than seven. -/
theorem listing_eq_ok :
    listing title headings first items width height = .ok lines ↔
      ∃ w limit heading root rows, totalWidth width = .ok w ∧
        (totalHeight height).toInteger = .ok limit ∧ listingOverhead < limit ∧
        textRow w (indexColumns (items.map (·.1))) headings.length listingIndex headings =
          .ok heading ∧
        slotRow w (indexColumns (items.map (·.1))) headings (some first) = .ok root ∧
        List.Forall₂
          (fun slot row => slotRow w (indexColumns (items.map (·.1))) headings slot = .ok row)
          (abridged (limit - listingOverhead).toNat items) rows ∧
        lines = [title, heading, rule heading '=', root] ++ rows ++ [")"] := by
  unfold listing
  constructor
  · intro h
    obtain ⟨small, hsmall, h⟩ := Except.bind_eq_ok.1 h
    split at h
    · cases h
    next large =>
      obtain ⟨w, hw, h⟩ := Except.bind_eq_ok.1 h
      obtain ⟨heading, hheading, h⟩ := Except.bind_eq_ok.1 h
      obtain ⟨root, hroot, h⟩ := Except.bind_eq_ok.1 h
      obtain ⟨limit, hlimit, h⟩ := Except.bind_eq_ok.1 h
      obtain ⟨rows, hrows, h⟩ := Except.bind_eq_ok.1 h
      cases h
      cases (Datum.atMost_of_toInteger hlimit).symm.trans hsmall
      exact ⟨w, limit, heading, root, rows, hw, hlimit, by simpa using large, hheading, hroot,
        Except.mapM_eq_ok.1 hrows, rfl⟩
  · rintro ⟨w, limit, heading, root, rows, hw, hlimit, large, hheading, hroot, hrows, rfl⟩
    refine Except.bind_eq_ok.2 ⟨_, Datum.atMost_of_toInteger hlimit, ?_⟩
    rw [if_neg (by simpa using large)]
    exact Except.bind_eq_ok.2 ⟨w, hw, Except.bind_eq_ok.2 ⟨heading, hheading,
      Except.bind_eq_ok.2 ⟨root, hroot, Except.bind_eq_ok.2 ⟨limit, hlimit,
        Except.bind_eq_ok.2 ⟨rows, Except.mapM_eq_ok.2 hrows, rfl⟩⟩⟩⟩⟩

/-! ### Columns -/

variable {w : Width} {indexWidth k : ℕ} {row : String} {slot : Option (String × List String)}

theorem four_le_indexColumns (indices : List String) : 4 ≤ indexColumns indices :=
  Nat.le_max_right _ _

theorem length_slotRow_of_fills (hfills : (cellWidth w indexWidth headings.length).Fills k)
    (h : slotRow w indexWidth headings slot = .ok row)
    (hcells : ∀ entry ∈ slot, entry.2.length = headings.length) :
    row.length =
      1 + max indexWidth ((slot.elim 3 fun entry => entry.1.length) + 1) +
        headings.length * (3 + k) := by
  have blank : " ".length = 1 := by decide
  have marks : ellipsis.length = 3 := by decide
  rw [length_textRow hfills h, String.length_append, blank]
  cases slot with
  | none => simp [marks]
  | some entry => simp [hcells entry rfl]

/-- A row is as long as the headings, unless its index and the blank after it exceed the columns of
the index. -/
theorem length_slotRow (four : 4 ≤ indexWidth)
    (hheading : textRow w indexWidth headings.length listingIndex headings = .ok heading)
    (h : slotRow w indexWidth headings slot = .ok row)
    (hcells : ∀ entry ∈ slot, entry.2.length = headings.length) :
    row.length = heading.length + slot.elim 0 fun entry => entry.1.length + 1 - indexWidth := by
  obtain ⟨k, hfills⟩ := exists_fills w indexWidth headings.length
  have index : listingIndex.length = 4 := by decide
  rw [length_slotRow_of_fills hfills h hcells, length_textRow hfills hheading, index]
  cases slot with
  | none =>
    simp only [Option.elim_none]
    omega
  | some entry =>
    simp only [Option.elim_some]
    omega

theorem not_mem_slotRow (h : slotRow w indexWidth headings slot = .ok row)
    (hindex : ∀ entry ∈ slot, '\n' ∉ entry.1.toList) : '\n' ∉ row.toList := by
  obtain ⟨k, hfills⟩ := exists_fills w indexWidth headings.length
  refine not_mem_textRow hfills h ?_
  cases slot with
  | none =>
    show '\n' ∉ (ellipsis ++ " ").toList
    decide
  | some entry => simpa using hindex entry rfl

theorem length_rule (heading : String) (mark : Char) :
    (rule heading mark).length = heading.length := by
  simp [rule]

end Text

end Multistage
