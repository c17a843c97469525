import Multistage.Model
import Multistage.Proofs.Text.Listing

/-!
# Tables of models

The table of a model keeps to its height as long as it shows all nodes; with a gap it has one line
more. Its lines have the same length unless the index of the root or of a node that is shown is as
long as the columns of the indices, which leave room for the indices without the blank after them.

## Main definitions

- `Model.indexColumns`, `Model.excess`: the columns of the indices, and by how many a row is longer.
- `Model.slotRow`: the row of a node or of a gap.

## Main statements

- `Model.table_eq_ok`: the lines of a table.
- `Model.table_abridged`: how many lines a table has, and which nodes it shows.
- `Model.table_aligned`: when all rows have the same length.
-/

namespace Multistage

namespace Model

variable {m : Model Float} {width height : Datum Float} {lines : List String}

/-- The first line of the table of a model. -/
def title (m : Model Float) : String := "PolicyGraph(sense=" ++ Text.quoted m.sense.word ++ ","

/-- The columns of the indices in the table of a model. -/
def indexColumns (m : Model Float) : ℕ := Text.indexColumns (m.nodes.keys.map Datum.shown)

/-- What the table of a model shows of the root. -/
def rootEntry (m : Model Float) : String × List String :=
  (m.root.shown, [edgesShown m.rootChildren, "", ""])

/-- What the table of a model shows of a node. -/
def nodeEntry (e : Datum Float × Node Float) : String × List String := (e.1.shown, tableCells e.2)

/-- The row of a node in the table of a model, or of a gap. -/
def slotRow (m : Model Float) (w : Text.Width) (slot : Option (Datum Float × Node Float)) :
    Except (Failure Float) String :=
  Text.slotRow w m.indexColumns tableHeadings (slot.map nodeEntry)

/-- The nodes that the table of a model shows within a height, and the gap. -/
def shownWithin (m : Model Float) (limit : ℤ) : List (Option (Datum Float × Node Float)) :=
  Text.abridged (limit - 7).toNat m.nodes.entries

/-- The lines of the table of a model, which there are for a height of more than seven. -/
theorem table_eq_ok :
    m.table width height = .ok lines ↔
      ∃ w limit heading root rows, Text.totalWidth width = .ok w ∧
        (Text.totalHeight height).toInteger = .ok limit ∧ 7 < limit ∧
        Text.textRow w m.indexColumns tableHeadings.length Text.listingIndex tableHeadings =
          .ok heading ∧
        Text.slotRow w m.indexColumns tableHeadings (some m.rootEntry) = .ok root ∧
        List.Forall₂ (fun slot row => m.slotRow w slot = .ok row) (m.shownWithin limit) rows ∧
        lines = [m.title, heading, Text.rule heading '=', root] ++ rows ++ [")"] := by
  have columns :
      Text.indexColumns ((m.nodes.entries.map nodeEntry).map (·.1)) = m.indexColumns := by
    rw [indexColumns, Dict.keys, List.map_map, List.map_map]
    rfl
  have table : m.table width height = Text.listing m.title tableHeadings m.rootEntry
      (m.nodes.entries.map nodeEntry) width height := rfl
  rw [table, Text.listing_eq_ok, columns]
  simp only [Text.abridged_map, List.forall₂_map_left_iff]
  rfl

/-- A table shows all nodes and keeps to its height, or it shows the first nodes and the last two
with a gap in place of the others, and then it has one line more. -/
theorem table_abridged (h : m.table width height = .ok lines) :
    ∃ w limit heading root slots rows,
      Text.totalWidth width = .ok w ∧ (Text.totalHeight height).toInteger = .ok limit ∧ 7 < limit ∧
      lines = [m.title, heading, Text.rule heading '=', root] ++ rows ++ [")"] ∧
      List.Forall₂ (fun slot row => m.slotRow w slot = .ok row) slots rows ∧
      ((slots = m.nodes.entries.map some ∧ lines.length = m.nodes.size + 5 ∧
          lines.length ≤ limit) ∨
        ∃ upper hidden lower, m.nodes.entries = upper ++ hidden ++ lower ∧
          upper.length = limit - 7 ∧ hidden ≠ [] ∧ lower.length = 2 ∧
          slots = upper.map some ++ none :: lower.map some ∧ lines.length = limit + 1) := by
  obtain ⟨w, limit, heading, root, rows, hw, hlimit, large, -, -, hrows, rfl⟩ := table_eq_ok.1 h
  refine ⟨w, limit, heading, root, _, rows, hw, hlimit, large, rfl, hrows, ?_⟩
  have length : ([m.title, heading, Text.rule heading '=', root] ++ rows ++ [")"]).length =
      (m.shownWithin limit).length + 5 := by
    simp [hrows.length_eq]
  rw [length]
  obtain ⟨fits, hslots⟩ | ⟨upper, hidden, lower, hentries, hupper, hhidden, hlower, hslots⟩ :=
    Text.abridged_cases (limit - 7).toNat m.nodes.entries
  · have hlength := congrArg List.length hslots
    rw [List.length_map] at hlength
    refine .inl ⟨hslots, ?_, ?_⟩
    · rw [shownWithin, hlength, Dict.size]
    · rw [shownWithin, hlength]
      omega
  · have hlength := congrArg List.length hslots
    simp only [List.length_append, List.length_map, List.length_cons, hupper, hlower] at hlength
    refine .inr ⟨upper, hidden, lower, hentries, by omega, hhidden, hlower, hslots, ?_⟩
    rw [shownWithin, hlength]
    omega

/-- A chain of four stages has a node too many for a table of eight lines, which has nine. -/
theorem table_abridged_of_four_stages :
    ∃ (graph : Graph Float) (m : Model Float) (lines : List String),
      Graph.linear 4 = .ok graph ∧ Model.build graph .unbounded (.text "min") {} = .ok m ∧
      m.table (.int 80) (.int 8) = .ok lines ∧ lines.length = 9 ∧
      ∃ first hidden lower, m.nodes.entries = first :: (hidden ++ lower) ∧ hidden ≠ [] ∧
        lower.length = 2 := by
  have check : (do
      let graph ← Graph.linear 4
      let m ← Model.build graph .unbounded (.text "min") {}
      let _ ← m.table (.int 80) (.int 8)
      if m.nodes.size = 4 then return () else .error .missingKey :
        Except (Failure Float) Unit).toBool = true := by
    decide +kernel
  simp only [Except.toBool_bind, Except.toBool_ite] at check
  obtain ⟨graph, hgraph, m, hm, lines, hlines, size⟩ := check
  obtain ⟨w, limit, heading, root, slots, rows, -, hlimit, -, -, -,
    ⟨-, hlength, hle⟩ | ⟨upper, hidden, lower, hentries, hupper, hhidden, hlower, -, hlength⟩⟩ :=
    table_abridged hlines
  · cases hlimit
    omega
  · cases hlimit
    obtain ⟨first, rfl⟩ := List.length_eq_one_iff.1 (show upper.length = 1 by omega)
    exact ⟨graph, m, lines, hgraph, hm, hlines, by omega, first, hidden, lower,
      by simpa using hentries, hhidden, hlower⟩

/-! ### Rows of the same length -/

/-- By how many characters the row of an index is longer than the heading: the index is followed by
a blank, for which the columns of the indices have no room of their own. -/
def excess (m : Model Float) (index : Datum Float) : ℕ := index.shown.length + 1 - m.indexColumns

theorem excess_eq_zero_iff {index : Datum Float} :
    m.excess index = 0 ↔ index.shown.length < m.indexColumns := by
  unfold excess
  omega

theorem four_le_indexColumns (m : Model Float) : 4 ≤ m.indexColumns := Text.four_le_indexColumns _

theorem length_slotRow {w : Text.Width} {heading row : String}
    {slot : Option (Datum Float × Node Float)}
    (hheading : Text.textRow w m.indexColumns tableHeadings.length Text.listingIndex tableHeadings =
      .ok heading) (h : m.slotRow w slot = .ok row) :
    row.length = heading.length + slot.elim 0 fun e => m.excess e.1 := by
  rw [Text.length_slotRow m.four_le_indexColumns hheading h ?_]
  · cases slot <;> rfl
  · intro entry hentry
    obtain ⟨e, -, rfl⟩ := Option.map_eq_some_iff.1 hentry
    rfl

theorem forall_length_eq_iff {β : Type} {f : β → ℕ} {n : ℕ} {slots : List β} {rows : List String}
    (h : List.Forall₂ (fun slot row => row.length = n + f slot) slots rows) :
    (∀ row ∈ rows, row.length = n) ↔ ∀ slot ∈ slots, f slot = 0 := by
  induction h with
  | nil => simp
  | cons hrow _ ih => simp [ih, hrow]

theorem not_mem_title (m : Model Float) : '\n' ∉ m.title.toList := by
  have quote : Text.quoteOf m.sense.word = '"' ∨ Text.quoteOf m.sense.word = '\'' := by
    unfold Text.quoteOf
    split
    · exact .inl rfl
    · exact .inr rfl
  unfold title Text.quoted
  generalize Text.quoteOf m.sense.word = mark at quote
  rcases quote with rfl | rfl <;> cases m.sense <;> decide +kernel

/-- The lines of a table are lines if no index breaks one. -/
theorem linesOf_table (h : m.table width height = .ok lines) (hroot : '\n' ∉ m.root.shown.toList)
    (hnodes : ∀ index ∈ m.nodes.keys, '\n' ∉ index.shown.toList) :
    Text.linesOf ("\n".intercalate lines) = lines := by
  obtain ⟨w, limit, heading, root, rows, -, -, -, hheading, hrootRow, hrows, rfl⟩ := table_eq_ok.1 h
  obtain ⟨k, hfills⟩ := Text.exists_fills w m.indexColumns tableHeadings.length
  have headingLine := Text.not_mem_textRow hfills hheading (by decide)
  have ruled : '\n' ∉ (Text.rule heading '=').toList := by simp [Text.rule]
  have rootLine := Text.not_mem_slotRow hrootRow (by simpa [rootEntry] using hroot)
  have rowLines : ∀ row ∈ rows, '\n' ∉ row.toList := by
    intro row hrow
    obtain ⟨slot, hslot, h⟩ := Except.exists_of_mem_mapM (Except.mapM_eq_ok.2 hrows) hrow
    refine Text.not_mem_slotRow h fun entry hentry => ?_
    obtain ⟨e, rfl, rfl⟩ := Option.map_eq_some_iff.1 hentry
    exact hnodes e.1 (List.mem_map_of_mem (Text.mem_of_some_mem_abridged hslot))
  refine Text.linesOf_intercalate (fun line hline => ?_) (by simp)
  simp only [List.mem_append, List.mem_cons, List.not_mem_nil, or_false] at hline
  rcases hline with ((rfl | rfl | rfl | rfl) | hrow) | rfl
  · exact not_mem_title m
  · exact headingLine
  · exact ruled
  · exact rootLine
  · exact rowLines _ hrow
  · decide

/-- The lines of a table between the first and the last have the same length iff the indices of the
root and of all nodes that are shown are shorter than the columns of the indices. -/
theorem table_aligned (h : m.table width height = .ok lines) :
    (∃ limit heading root rows middle, (Text.totalHeight height).toInteger = .ok limit ∧
      lines = m.title :: (middle ++ [")"]) ∧
      middle = heading :: Text.rule heading '=' :: root :: rows ∧
      (Text.rule heading '=').length = heading.length ∧
      root.length = heading.length + m.excess m.root ∧
      List.Forall₂ (fun slot row => row.length = heading.length + slot.elim 0 fun e => m.excess e.1)
        (m.shownWithin limit) rows ∧
      ((∀ a ∈ middle, ∀ b ∈ middle, a.length = b.length) ↔
        m.root.shown.length < m.indexColumns ∧
          ∀ e, some e ∈ m.shownWithin limit → e.1.shown.length < m.indexColumns)) ∧
    ('\n' ∉ m.root.shown.toList → (∀ index ∈ m.nodes.keys, '\n' ∉ index.shown.toList) →
      Text.linesOf ("\n".intercalate lines) = lines) ∧
    ∀ (content : String) (n : ℤ), 4 ≤ n →
      (∀ kept, Text.shorten (.text content) (.whole n) (.text Text.ellipsis) = .ok kept →
        kept.length ≤ n ∧ (kept = content ↔ '\n' ∉ content.toList ∧ content.length ≤ n)) ∧
      ((∃ kept, Text.shorten (.text content) (.whole n) (.text Text.ellipsis) = .ok kept) ↔
        ∀ line rest, content = line ++ "\n" ++ rest → '\n' ∉ line.toList →
          n - line.length < Datum.lengthLimit) := by
  refine ⟨?_, linesOf_table h, fun content n wide =>
    ⟨fun kept hkept => ?_, Text.exists_shorten_iff wide⟩⟩
  · obtain ⟨w, limit, heading, root, rows, -, hlimit, -, hheading, hrootRow, hrows, rfl⟩ :=
      table_eq_ok.1 h
    have rule := Text.length_rule heading '='
    have rootLength : root.length = heading.length + m.excess m.root :=
      Text.length_slotRow m.four_le_indexColumns hheading hrootRow (by rintro _ ⟨⟩; rfl)
    have rowLengths := hrows.imp fun slot row => length_slotRow hheading
    refine ⟨limit, heading, root, rows, heading :: Text.rule heading '=' :: root :: rows, hlimit,
      rfl, rfl, rule, rootLength, rowLengths, ?_⟩
    have slots : (∀ slot ∈ m.shownWithin limit, (slot.elim 0 fun e => m.excess e.1) = 0) ↔
        ∀ e, some e ∈ m.shownWithin limit → m.excess e.1 = 0 := by
      constructor
      · exact fun h e he => h (some e) he
      · rintro h (_ | e) he
        · rfl
        · exact h e he
    simp only [← excess_eq_zero_iff, ← slots, ← forall_length_eq_iff rowLengths]
    constructor
    · intro same
      have asHeading := fun a ha => same a ha heading List.mem_cons_self
      simp only [List.forall_mem_cons, rootLength, Nat.add_eq_left] at asHeading
      exact asHeading.2.2
    · rintro ⟨rootFits, rowsFit⟩ a ha b hb
      have asHeading : ∀ a ∈ heading :: Text.rule heading '=' :: root :: rows,
          a.length = heading.length := by
        simpa only [List.forall_mem_cons, rule, rootLength, rootFits, Nat.add_zero, true_and]
          using rowsFit
      exact (asHeading a ha).trans (asHeading b hb).symm
  · obtain ⟨-, fits, -, same⟩ := Text.fits_of_shorten hkept
    exact ⟨fits, same⟩

/-- A node whose index has four characters has a longer row than the heading, which has room for its
own four characters only. -/
theorem table_aligned_of_four_characters :
    ∃ (graph : Graph Float) (m : Model Float) (lines middle : List String),
      Graph.ofEdges (.int 0) [.text "abcd"] [(.int 0, .text "abcd", .real 1)] [] = .ok graph ∧
      Model.build graph .unbounded (.text "min") {} = .ok m ∧
      m.table .null .null = .ok lines ∧ lines = m.title :: (middle ++ [")"]) ∧
      Text.linesOf ("\n".intercalate lines) = lines ∧
      ¬∀ a ∈ middle, ∀ b ∈ middle, a.length = b.length := by
  have check : (do
      let graph ← Graph.ofEdges (.int 0) [.text "abcd"] [(.int 0, .text "abcd", .real 1)] []
      let m ← Model.build graph .unbounded (.text "min") {}
      let _ ← m.table .null .null
      if m.nodes.keys.map Datum.shown = ["abcd"] ∧ '\n' ∉ m.root.shown.toList then return ()
        else .error .missingKey : Except (Failure Float) Unit).toBool = true := by
    decide +kernel
  simp only [Except.toBool_bind, Except.toBool_ite] at check
  obtain ⟨graph, hgraph, m, hm, lines, hlines, hkeys, hroot⟩ := check
  obtain ⟨⟨limit, heading, root, rows, middle, -, hmiddle, -, -, -, -, same⟩, single, -⟩ :=
    table_aligned hlines
  refine ⟨graph, m, lines, middle, hgraph, hm, hlines, hmiddle,
    single hroot fun index hindex => ?_, fun h => ?_⟩
  · have shown := hkeys ▸ List.mem_map_of_mem hindex
    rw [List.mem_singleton.1 shown]
    decide
  · obtain ⟨e, hentries⟩ : ∃ e, m.nodes.entries = [e] := by
      rw [← List.length_eq_one_iff]
      simpa [Dict.keys] using congrArg List.length hkeys
    have hshown : e.1.shown = "abcd" := by simpa [Dict.keys, hentries] using hkeys
    have columns : m.indexColumns = 4 := by
      rw [indexColumns, hkeys]
      decide
    have fits := (same.1 h).2 e (by simp [shownWithin, Text.abridged, hentries])
    rw [hshown, columns] at fits
    exact absurd fits (by decide)

end Model

end Multistage
