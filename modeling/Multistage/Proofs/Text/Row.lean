import Mathlib.Data.List.Basic
import Mathlib.Data.Int.Notation
import Mathlib.Data.Nat.Notation
import Multistage.Proofs.Except
import Multistage.Text.Table

/-!
# Rows line up

A content that is cut to a width fits it, and is a single line. A cell of whole columns has as many
of them whatever it holds, so that only an index that exceeds its columns makes a row longer.

## Main definitions

- `Text.Width.Fills`: all contents fill the same number of columns.

## Main statements

- `Text.linesOf_of_not_mem`, `Text.linesOf_append_break`, `Text.linesOf_intercalate`: the lines of a
  text.
- `Text.fits_of_shorten`, `Text.exists_shorten_iff`: what a whole width leaves of a content.
- `Text.length_textRow`, `Text.not_mem_textRow`: the length of a row, which is one line.
-/

namespace Multistage

namespace Text

variable {s t line : String} {n : ℤ}

/-! ### Lines -/

theorem linesOf_of_not_mem (h : '\n' ∉ s.toList) : linesOf s = [s] := by
  simp [linesOf, List.splitOn_eq_singleton h]

theorem linesOf_append_break (h : '\n' ∉ line.toList) (rest : String) :
    linesOf (line ++ "\n" ++ rest) = line :: linesOf rest := by
  have cut : (line ++ "\n" ++ rest).toList = line.toList ++ '\n' :: rest.toList := by simp
  rw [linesOf, cut, List.splitOn_append_cons_self_of_not_mem h, List.map_cons, String.ofList_toList,
    linesOf]

/-- A text that is no line has a first line. -/
theorem exists_append_break (h : '\n' ∈ s.toList) :
    ∃ line rest, '\n' ∉ line.toList ∧ s = line ++ "\n" ++ rest := by
  obtain ⟨before, after, hs, first⟩ := List.eq_append_cons_of_mem h
  refine ⟨String.ofList before, String.ofList after, by simpa using first, ?_⟩
  apply String.toList_injective
  simp [hs]

/-- Joining lines is undone by taking them apart. -/
theorem linesOf_intercalate {lines : List String} (h : ∀ line ∈ lines, '\n' ∉ line.toList)
    (hne : lines ≠ []) : linesOf ("\n".intercalate lines) = lines := by
  have single : "\n".toList = ['\n'] := by decide
  rw [linesOf, String.toList_intercalate, single, List.splitOn_intercalate]
  · simp
  · intro l hl
    obtain ⟨line, hline, rfl⟩ := List.mem_map.1 hl
    exact h line hline
  · simpa using hne

/-! ### Fields of whole columns -/

/-- A text stands in a field of whole columns if that is within memory. -/
theorem inField_eq_ok {align : Alignment} {width : ℕ} :
    inField align (.int width) (.text s) = .ok t ↔
      width < Datum.lengthLimit ∧ align.place width s = t := by
  by_cases fits : width < Datum.lengthLimit
  · simp [inField_width align width s fits, fits]
  · have opened : inField align (.int width) (.text s) =
        (if Datum.countLimit ≤ (width : ℤ) then .error .malformedNumber
          else .ok (FieldLayout.ofWidth width)) >>= fun l => l.text align s := rfl
    simp only [opened, fits, false_and, iff_false]
    split
    · nofun
    · simp [bind, Except.bind, FieldLayout.text, FieldLayout.ofWidth, FieldLayout.place,
        Nat.not_lt.1 fits]

theorem length_place (align : Alignment) (width : ℕ) (s : String) :
    (align.place width s).length = max width s.length := by
  cases align with
  | right => simp [Alignment.place, length_alignRight]
  | centre => simp [Alignment.place, length_centre]

theorem not_mem_blanks {c : Char} (h : c ≠ ' ') (count : Int) : c ∉ (blanks count).toList := by
  simp [blanks, h]

theorem not_mem_place {c : Char} (align : Alignment) (width : Int) (h : c ≠ ' ')
    (hs : c ∉ s.toList) : c ∉ (align.place width s).toList := by
  cases align with
  | right => simp [Alignment.place, alignRight, not_mem_blanks h, hs]
  | centre => simp [Alignment.place, centre, not_mem_blanks h, hs]

/-! ### Contents that are cut -/

theorem length_takeFirst (count : Int) (s : String) :
    (takeFirst count s).length = min count.toNat s.length := by
  simp [takeFirst, String.length_toList]

theorem length_takeLast (s : String) : (takeLast s).length = min 1 s.length := by
  simp [takeLast, String.length_toList]
  omega

theorem not_mem_takeFirst {c : Char} (count : Int) (h : c ∉ s.toList) :
    c ∉ (takeFirst count s).toList := by
  simpa [takeFirst] using fun hc => h (List.mem_of_mem_take hc)

theorem not_mem_takeLast {c : Char} (h : c ∉ s.toList) : c ∉ (takeLast s).toList := by
  simpa [takeLast] using fun hc => h (List.mem_of_mem_drop hc)

theorem isBelow_whole (n columns : ℤ) :
    (Width.whole n).isBelow columns = decide (n < columns) :=
  decide_eq_decide.2 Rat.intCast_lt_intCast

theorem shorten_narrow (narrow : n < 4) :
    shorten (.text s) (.whole n) (.text ellipsis) = .error .cellWidth := by
  simp [shorten, Datum.elements, ellipsis, isBelow_whole, bind, Except.bind, narrow]

/-- A single line that fits is left as it is. -/
theorem shorten_of_fits (wide : 4 ≤ n) (h : '\n' ∉ s.toList) (fits : s.length ≤ n) :
    shorten (.text s) (.whole n) (.text ellipsis) = .ok s := by
  simp [shorten, Datum.elements, ellipsis, isBelow_whole, bind, Except.bind, Int.not_lt.2 wide,
    linesOf_of_not_mem h, Int.not_lt.2 fits]
  rfl

/-- The middle of a single line that does not fit is left out. -/
theorem shorten_of_exceeds (wide : 4 ≤ n) (h : '\n' ∉ s.toList) (exceeds : n < s.length) :
    shorten (.text s) (.whole n) (.text ellipsis) =
      .ok (takeFirst (n - 4) s ++ ellipsis ++ takeLast s) := by
  have kept : max (n - 1 - 3) 0 = n - 4 := by omega
  simp [shorten, Datum.elements, ellipsis, isBelow_whole, bind, Except.bind, Int.not_lt.2 wide,
    linesOf_of_not_mem h, exceeds, joined, kept]
  rfl

/-- Of several lines the beginning of the first is kept. -/
theorem shorten_append_break (wide : 4 ≤ n) (h : '\n' ∉ line.toList) (rest : String) :
    shorten (.text (line ++ "\n" ++ rest)) (.whole n) (.text ellipsis) =
      if n < line.length + 3 then .ok (takeFirst (n - 3) line ++ ellipsis)
      else (inField .right (.int (n - line.length)) (.text ellipsis)).map (line ++ ·) := by
  have kept : max (n - 3) 1 = n - 3 := by omega
  obtain ⟨second, others, hrest⟩ : ∃ second others, linesOf rest = second :: others :=
    List.exists_cons_of_ne_nil (by simp [linesOf, List.splitOn_ne_nil])
  simp [shorten, Datum.elements, ellipsis, isBelow_whole, bind, Except.bind, Int.not_lt.2 wide,
    linesOf_append_break h, hrest, joined, kept, Width.layOut, Width.minus, Width.toDatum]
  split
  · rfl
  · cases inField .right (.int (n - line.length)) (.text "...") <;> rfl

/-- What is left of a single line fits, and is the line only if that fits. -/
theorem fits_of_shorten_line (wide : 4 ≤ n) (single : '\n' ∉ s.toList)
    (h : shorten (.text s) (.whole n) (.text ellipsis) = .ok t) :
    t.length ≤ n ∧ '\n' ∉ t.toList ∧ (t = s ↔ s.length ≤ n) := by
  have marks : ellipsis.length = 3 := by decide
  have marked : '\n' ∉ ellipsis.toList := by decide
  by_cases fits : s.length ≤ n
  · rw [shorten_of_fits wide single fits] at h
    cases h
    exact ⟨fits, single, iff_of_true rfl fits⟩
  · rw [shorten_of_exceeds wide single (by omega)] at h
    cases h
    have length : (takeFirst (n - 4) s ++ ellipsis ++ takeLast s).length = n.toNat := by
      rw [String.length_append, String.length_append, length_takeFirst, length_takeLast, marks]
      omega
    refine ⟨by omega, ?_, iff_of_false (fun same => ?_) fits⟩
    · simp [not_mem_takeFirst, not_mem_takeLast, single, marked]
    · rw [same] at length
      omega

/-- What is left of several lines fits and is one line. -/
theorem fits_of_shorten_break (wide : 4 ≤ n) (first : '\n' ∉ line.toList) {rest : String}
    (h : shorten (.text (line ++ "\n" ++ rest)) (.whole n) (.text ellipsis) = .ok t) :
    t.length ≤ n ∧ '\n' ∉ t.toList := by
  have marks : ellipsis.length = 3 := by decide
  have marked : '\n' ∉ ellipsis.toList := by decide
  rw [shorten_append_break wide first] at h
  split at h
  next exceeds =>
    cases h
    refine ⟨?_, by simp [not_mem_takeFirst, first, marked]⟩
    rw [String.length_append, length_takeFirst, marks]
    omega
  next fits =>
    obtain ⟨field, hfield, rfl⟩ := Except.map_eq_ok.1 h
    obtain ⟨columns, hcolumns⟩ := Int.eq_ofNat_of_zero_le (show 0 ≤ n - line.length by omega)
    rw [hcolumns, inField_eq_ok] at hfield
    obtain ⟨-, rfl⟩ := hfield
    refine ⟨?_, by simp [first, not_mem_place _ _ _ marked]⟩
    rw [String.length_append, length_place, marks]
    omega

/-- What a whole width leaves of a content fits it and is one line. It is the content iff that is
one line that fits. -/
theorem fits_of_shorten (h : shorten (.text s) (.whole n) (.text ellipsis) = .ok t) :
    4 ≤ n ∧ t.length ≤ n ∧ '\n' ∉ t.toList ∧ (t = s ↔ '\n' ∉ s.toList ∧ s.length ≤ n) := by
  have wide : 4 ≤ n := by
    by_contra narrow
    rw [shorten_narrow (by omega)] at h
    cases h
  by_cases single : '\n' ∈ s.toList
  · obtain ⟨line, rest, first, rfl⟩ := exists_append_break single
    obtain ⟨fits, one⟩ := fits_of_shorten_break wide first h
    exact ⟨wide, fits, one, iff_of_false (fun same => one (same ▸ single)) fun h => h.1 single⟩
  · obtain ⟨fits, one, same⟩ := fits_of_shorten_line wide single h
    exact ⟨wide, fits, one, by simpa [single] using same⟩

/-- Only the blanks after the first of several lines can be too many. -/
theorem exists_shorten_iff (wide : 4 ≤ n) :
    (∃ t, shorten (.text s) (.whole n) (.text ellipsis) = .ok t) ↔
      ∀ line rest, s = line ++ "\n" ++ rest → '\n' ∉ line.toList →
        n - line.length < Datum.lengthLimit := by
  have limit : 3 < Datum.lengthLimit := by decide
  have field {line : String} (fits : ¬n < line.length + 3) :
      (∃ t, (inField .right (.int (n - line.length)) (.text ellipsis)).map (line ++ ·) = .ok t) ↔
        n - line.length < Datum.lengthLimit := by
    obtain ⟨columns, hcolumns⟩ := Int.eq_ofNat_of_zero_le (show 0 ≤ n - line.length by omega)
    simp [hcolumns, Except.map_eq_ok, inField_eq_ok]
  constructor
  · rintro ⟨t, ht⟩ line rest rfl first
    rw [shorten_append_break wide first] at ht
    split at ht
    next exceeds => omega
    next fits => exact (field fits).1 ⟨t, ht⟩
  · intro h
    by_cases single : '\n' ∈ s.toList
    · obtain ⟨line, rest, first, rfl⟩ := exists_append_break single
      rw [shorten_append_break wide first]
      split
      next exceeds => exact ⟨_, rfl⟩
      next fits => exact (field fits).2 (h line rest rfl first)
    · by_cases fits : s.length ≤ n
      · exact ⟨_, shorten_of_fits wide single fits⟩
      · exact ⟨_, shorten_of_exceeds wide single (by omega)⟩

/-! ### Cells -/

/-- All contents fill the same number of columns in a cell of the width, and one line. -/
def Width.Fills (w : Width) (columns : ℕ) : Prop :=
  ∀ content kept cell, shorten (.text content) w (.text ellipsis) = .ok kept →
    w.layOut .centre (.text kept) = .ok cell → cell.length = columns ∧ '\n' ∉ cell.toList

theorem fills_whole (n : ℤ) : (Width.whole n).Fills n.toNat := by
  intro content kept cell hkept hcell
  obtain ⟨wide, fits, one, -⟩ := fits_of_shorten hkept
  obtain ⟨columns, rfl⟩ := Int.eq_ofNat_of_zero_le (show 0 ≤ n by omega)
  obtain ⟨-, rfl⟩ := inField_eq_ok.1 hcell
  refine ⟨?_, not_mem_place _ _ (by decide) one⟩
  rw [length_place]
  omega

/-! ### Rows -/

section

variable {separator first : String} {cells : List String} {columns : ℕ}

theorem length_intercalate (h : ∀ cell ∈ cells, cell.length = columns) :
    (separator.intercalate (first :: cells)).length =
      first.length + cells.length * (separator.length + columns) := by
  induction cells generalizing first with
  | nil => simp
  | cons cell rest ih =>
    have hcell : cell.length = columns := h cell List.mem_cons_self
    rw [String.intercalate_cons_cons, String.length_append, String.length_append,
      ih fun c hc => h c (List.mem_cons_of_mem _ hc), List.length_cons, hcell,
      Nat.add_one_mul]
    omega

theorem not_mem_intercalate {c : Char} (hseparator : c ∉ separator.toList)
    (h : ∀ cell ∈ cells, c ∉ cell.toList) : c ∉ (separator.intercalate cells).toList := by
  induction cells with
  | nil => simp
  | cons cell rest ih =>
    have hrest := ih fun c hc => h c (List.mem_cons_of_mem _ hc)
    have hcell := h cell List.mem_cons_self
    cases rest with
    | nil => simpa using hcell
    | cons next others =>
      rw [String.intercalate_cons_cons, String.toList_append, String.toList_append, List.mem_append,
        List.mem_append]
      tauto

end

variable {w : Width} {indexWidth columns k : ℕ} {index : String} {contents : List String}

/-- A row is an index aligned to the right and cells, which contents fill. -/
theorem exists_cells (hfills : (cellWidth w indexWidth columns).Fills k)
    (h : textRow w indexWidth columns index contents = .ok line) :
    ∃ cells : List String, line = " " ++ " | ".intercalate (alignRight indexWidth index :: cells) ∧
      cells.length = contents.length ∧ ∀ cell ∈ cells, cell.length = k ∧ '\n' ∉ cell.toList := by
  obtain ⟨heading, hheading, h⟩ := Except.bind_eq_ok.1 h
  obtain ⟨cells, hcells, h⟩ := Except.bind_eq_ok.1 h
  cases h
  obtain ⟨-, rfl⟩ := inField_eq_ok.1 hheading
  refine ⟨cells, rfl, ?_, fun cell hmem => ?_⟩
  · rw [← (Except.mapM_eq_ok.1 hcells).length_eq, List.length_map]
  · obtain ⟨datum, hdatum, hcell⟩ := Except.exists_of_mem_mapM hcells hmem
    obtain ⟨content, -, rfl⟩ := List.mem_map.1 hdatum
    obtain ⟨_, ⟨⟩, hcell⟩ := Except.bind_eq_ok.1 hcell
    obtain ⟨kept, hkept, hcell⟩ := Except.bind_eq_ok.1 hcell
    exact hfills content kept cell hkept hcell

/-- Only an index that exceeds its columns makes a row longer. -/
theorem length_textRow (hfills : (cellWidth w indexWidth columns).Fills k)
    (h : textRow w indexWidth columns index contents = .ok line) :
    line.length = 1 + max indexWidth index.length + contents.length * (3 + k) := by
  obtain ⟨cells, rfl, hlength, hcells⟩ := exists_cells hfills h
  have bar : " | ".length = 3 := by decide
  have blank : " ".length = 1 := by decide
  rw [String.length_append, length_intercalate fun cell hcell => (hcells cell hcell).1,
    length_alignRight, hlength, bar, blank, Int.toNat_natCast, Nat.add_assoc]

/-- A row is one line if its index is. -/
theorem not_mem_textRow (hfills : (cellWidth w indexWidth columns).Fills k)
    (h : textRow w indexWidth columns index contents = .ok line) (hindex : '\n' ∉ index.toList) :
    '\n' ∉ line.toList := by
  obtain ⟨cells, rfl, -, hcells⟩ := exists_cells hfills h
  have aligned : '\n' ∉ (alignRight indexWidth index).toList :=
    not_mem_place .right indexWidth (by decide) hindex
  have joined : '\n' ∉ (" | ".intercalate (alignRight indexWidth index :: cells)).toList :=
    not_mem_intercalate (by decide)
      (List.forall_mem_cons.2 ⟨aligned, fun cell hcell => (hcells cell hcell).2⟩)
  rw [String.toList_append, List.mem_append]
  exact not_or.2 ⟨by decide, joined⟩

end Text

end Multistage
