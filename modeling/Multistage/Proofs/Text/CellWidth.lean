import Multistage.Proofs.Text.Row
import Multistage.Proofs.Text.Whole

/-!
# Cells of all widths

The width of a cell is whole or a double. The text of a whole double spells a layout that shows no
character of a text, so that in a cell of a fractional width there are only blanks, if anything
can stand there at all. So all cells of a table have the same number of columns.

## Main statements

- `FieldLayout.precision_of_read`: the layout that a whole double spells shows no character.
- `Text.exists_fills`: all cells of a table have the same number of columns.
-/

namespace Multistage

namespace Text

variable {s : String} {digits rest : List Char} {l : FieldLayout}

/-! ### Layouts that numbers spell -/

theorem isSome_digitValue? {c : Char} (h : c.isDigit = true) : (digitValue? c).isSome = true := by
  have bounds : 48 ≤ c.toNat ∧ c.toNat < 58 := by
    simp only [Char.isDigit, Bool.and_eq_true, decide_eq_true_eq] at h
    exact ⟨h.1, Nat.lt_succ_of_le h.2⟩
  unfold digitValue? zeros
  rw [Option.isSome_map, List.find?_cons_of_pos (by simp [bounds])]
  rfl

theorem takeIf_of_not {test : Char → Bool} {cs : List Char} (h : ∀ c ∈ cs.head?, test c = false) :
    takeIf test cs = (none, cs) := by
  cases cs with
  | nil => rfl
  | cons c rest => simp [takeIf, h c rfl]

/-- First digits are read up to where other characters begin. -/
theorem exists_count_of_takeCount {r : Option ℕ × List Char} (hne : digits ≠ [])
    (hdigits : ∀ c ∈ digits, c.isDigit = true) (stop : ∀ c ∈ rest.head?, digitValue? c = none)
    (h : takeCount (digits ++ rest) = .ok r) : ∃ count, r = (some count, rest) := by
  have first : (digits ++ rest).takeWhile (fun c => (digitValue? c).isSome) = digits := by
    rw [List.takeWhile_append_of_pos fun c hc => isSome_digitValue? (hdigits c hc)]
    cases rest with
    | nil => simp
    | cons c others => simp [stop c rfl]
  unfold takeCount at h
  rw [first] at h
  dsimp only at h
  rw [if_neg (by simpa using hne)] at h
  split at h
  · cases h
  · cases h
    exact ⟨_, by rw [List.drop_left]⟩

namespace FieldLayout

/-- After first digits a layout goes on with its precision. -/
theorem takePrecision_of_read (hs : s.toList = digits ++ rest) (hne : digits ≠ [])
    (hdigits : ∀ c ∈ digits, c.isDigit = true) (stop : ∀ c ∈ rest.head?, c = '.' ∨ c = 'e')
    (h : read s = .ok l) :
    ∃ r, takePrecision rest = .ok r ∧ r.2.length ≤ 1 ∧ l.precision? = r.1 := by
  have skip {test : Char → Bool} (htest : ∀ c, test c = true → c.isDigit = false) :
      takeIf test (digits ++ rest) = (none, digits ++ rest) := by
    refine takeIf_of_not fun c hc => ?_
    rw [List.head?_append_of_ne_nil _ hne] at hc
    by_contra passes
    have digit := hdigits c (List.mem_of_mem_head? hc)
    rw [htest c (by simpa using passes)] at digit
    cases digit
  have unsigned : ∀ c, (SignMark.ofChar? c).isSome = true → c.isDigit = false := by
    intro c hc
    unfold SignMark.ofChar? at hc
    split at hc
    iterate 3 rfl
    cases hc
  have separator : takeIf (fun c => c == ',' || c == '_') rest = (none, rest) :=
    takeIf_of_not fun c hc => by rcases stop c hc with rfl | rfl <;> rfl
  have unread (c : Char) (hc : c ∈ rest.head?) : digitValue? c = none := by
    rcases stop c hc with rfl | rfl <;> decide
  unfold read at h
  rw [hs, skip unsigned] at h
  dsimp only at h
  rw [skip fun c hc => by rw [beq_iff_eq.1 hc]; rfl] at h
  dsimp only at h
  rw [skip fun c hc => by rw [beq_iff_eq.1 hc]; rfl] at h
  obtain ⟨r, hr, h⟩ := Except.bind_eq_ok.1 h
  obtain ⟨count, rfl⟩ := exists_count_of_takeCount hne hdigits unread hr
  dsimp only at h
  rw [separator] at h
  obtain ⟨r, hprecision, h⟩ := Except.bind_eq_ok.1 h
  dsimp only at h
  split at h
  · cases h
  next short =>
    cases h
    exact ⟨r, hprecision, Nat.not_lt.1 short, rfl⟩

/-- The layout that the text of a whole number spells shows no character of a text. -/
theorem precision_of_read (hs : Decimal.WholeText s.toList) (h : read s = .ok l) :
    l.precision? = some 0 := by
  have unread : digitValue? 'e' = none := by decide
  generalize htext : s.toList = text at hs
  cases hs with
  | positional digits hne hdigits =>
    obtain ⟨r, hr, -, hprecision⟩ := takePrecision_of_read htext hne hdigits (by simp) h
    have zero : takePrecision ['.', '0'] = .ok (some 0, []) := rfl
    cases zero.symm.trans hr
    exact hprecision
  | scientific digit sign rest hdigit =>
    have first : s.toList = [digit] ++ 'e' :: sign :: rest := htext
    obtain ⟨r, hr, short, -⟩ := takePrecision_of_read first (List.cons_ne_nil _ _)
      (by simpa using hdigit) (by simp) h
    cases hr
    simp at short
  | pointed digit places sign rest hdigit hne hplaces =>
    have first : s.toList = [digit] ++ '.' :: (places ++ 'e' :: sign :: rest) := htext
    obtain ⟨r, hr, short, -⟩ := takePrecision_of_read first (List.cons_ne_nil _ _)
      (by simpa using hdigit) (by simp) h
    obtain ⟨counted, hcounted, hr⟩ := Except.bind_eq_ok.1 hr
    obtain ⟨count, rfl⟩ := exists_count_of_takeCount hne hplaces (by simp [unread]) hcounted
    cases hr
    simp at short

theorem isSome_sign_of_read {cs : List Char} (hs : s.toList = '-' :: cs) (h : read s = .ok l) :
    l.sign?.isSome = true := by
  unfold read at h
  rw [hs] at h
  obtain ⟨counted, -, h⟩ := Except.bind_eq_ok.1 h
  obtain ⟨r, -, h⟩ := Except.bind_eq_ok.1 h
  dsimp only at h
  split at h
  · cases h
  · cases h
    rfl

/-- A text can only stand in a field whose layout asks for no sign. -/
theorem eq_place_of_text {align : Alignment} {content cell : String}
    (h : l.text align content = .ok cell) :
    l.sign?.isSome = false ∧ cell =
      align.place l.width (l.precision?.elim content fun count => takeFirst count content) := by
  unfold text place at h
  dsimp only at h
  split at h
  · cases h
  next unasked =>
    split at h
    · cases h
    · cases h
      simp only [Bool.or_eq_true, not_or, Bool.not_eq_true] at unasked
      exact ⟨unasked.1.1.1.1, rfl⟩

end FieldLayout

/-! ### Fractional widths -/

/-- The text of the double nearest to an integer spells a layout that no text has, or that shows
none of its characters. -/
theorem unshown_of_read {n : ℤ} (h : FieldLayout.read (shortestText (Binary64.nearest n)) = .ok l) :
    l.sign?.isSome = true ∨ l.precision? = some 0 := by
  unfold shortestText Decimal.signed at h
  cases hparts : Binary64.parts (Binary64.nearest n) with
  | notANumber =>
    rw [hparts] at h
    cases h
  | infinite negative =>
    rw [hparts] at h
    cases negative <;> cases h
  | finite negative mantissa exponent =>
    rw [hparts] at h
    dsimp only at h
    have whole := Decimal.wholeText_shortest (Binary64.isWhole_of_parts_nearest hparts)
    cases negative with
    | true => exact .inl (FieldLayout.isSome_sign_of_read (by rw [String.toList_append]; rfl) h)
    | false => exact .inr (FieldLayout.precision_of_read (by simpa using whole) h)

theorem fills_fractional {x : Float}
    (h : ∀ l, FieldLayout.read (shortestText x) = .ok l →
      l.sign?.isSome = true ∨ l.precision? = some 0) :
    ∃ k, (Width.fractional x).Fills k := by
  cases hread : FieldLayout.read (shortestText x) with
  | error e =>
    refine ⟨0, fun content kept cell _ hcell => ?_⟩
    obtain ⟨l, hl, -⟩ := Except.bind_eq_ok.1 hcell
    cases hread.symm.trans hl
  | ok l =>
    refine ⟨l.width, fun content kept cell _ hcell => ?_⟩
    obtain ⟨l', hl, htext⟩ := Except.bind_eq_ok.1 hcell
    cases hread.symm.trans hl
    obtain ⟨unsigned, rfl⟩ := FieldLayout.eq_place_of_text htext
    have unshown : l.precision? = some 0 := (h l hread).resolve_left (by simp [unsigned])
    have nothing : takeFirst (0 : ℕ) kept = "" := by simp [takeFirst]
    rw [unshown, Option.elim_some, nothing]
    exact ⟨by simp [length_place], not_mem_place _ _ (by decide) (by simp)⟩

/-- All cells of a table have the same number of columns. -/
theorem exists_fills (w : Width) (indexWidth : ℤ) (columns : ℕ) :
    ∃ k, (cellWidth w indexWidth columns).Fills k := by
  unfold cellWidth
  split
  next n hn => exact ⟨_, fills_whole _⟩
  next x hx =>
    split
    next q hq => exact fills_fractional fun l => unshown_of_read
    · refine fills_fractional fun l hl => ?_
      have unread : (FieldLayout.read (shortestText (0.0 / 0.0))).toBool = false := rfl
      rw [hl] at unread
      cases unread

end Text

end Multistage
