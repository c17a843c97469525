import Multistage.Arrangement.Insertion

/-!
# Merging two runs

Two runs that follow each other are merged into one. Items that are in their places already, at the
beginning of the left run and at the end of the right one, are left there. Of the rest the shorter
part is *held*, and a merge moves items from the heads of the held list and of the *other* one, item
by item as long as neither list wins for a while, and then in leaps: it finds by doubling and
bisection how many items come next from the same list. If the right part is the held one, both are
merged from their backs.

With a comparison that is no order the result depends on which items are compared, so all of this is
part of what a merge computes.

## Main definitions

- `Arrangement.reach`: the number of items at the head of a list that are kept.
- `Arrangement.Merge`, `Arrangement.Merge.advance`, `Arrangement.Merge.run`: a merge and its moves.
- `Arrangement.mergeRuns`: the merge of two runs.

## Main statements

- `Arrangement.mergeRuns_perm`: no item is lost and none is added.
-/

namespace Multistage

namespace Arrangement

variable {β : Type}

/-- The last item that is known to be kept and the first that is not, of those at doubling
distances. -/
def bracket (keep : β → Bool) (items : List β) (reached next : Nat) : Nat × Nat :=
  if h : next < items.length then
    if keep items[next] then bracket keep items next (2 * next + 1) else (reached, next)
  else (reached, items.length)
termination_by items.length - next

/-- The number of items at the head of a list that are kept, if one that is kept comes only after
others that are. -/
def reach (fromBack : Bool) (keep : β → Bool) (items : List β) : Nat :=
  match items with
  | [] => 0
  | first :: _ =>
    if keep first then
      let (reached, next) := bracket keep items 0 1
      bisect fromBack keep items (reached + 1) next
    else 0

/-- Two lists in the course of being merged. -/
structure Merge (β : Type) where
  held : List β
  other : List β
  /-- The items that were moved. -/
  merged : List β
  /-- How often in a row one list has to win before the merge leaps. -/
  patience : Nat

/-- How a merge moves on. -/
inductive Pace where
  /-- Item by item, where one list has won the last times. -/
  | steps (heldWins otherWins : Nat)
  | leaps

namespace Merge

/-- All items: those that were moved, and behind them those that were not. -/
def items (m : Merge β) : List β := m.merged ++ m.other ++ m.held

/-- The number of items that were not moved. -/
def remaining (m : Merge β) : Nat := m.held.length + m.other.length

/-- What is left needs no comparison: at most one item is still held, or there are no others. -/
def isFinished (m : Merge β) : Bool := m.held.length ≤ 1 || m.other.isEmpty

/-- Move items of the held list. -/
def moveHeld (m : Merge β) (count : Nat) : Merge β :=
  { m with held := m.held.drop count, merged := m.merged ++ m.held.take count }

/-- Move items of the other list. -/
def moveOther (m : Merge β) (count : Nat) : Merge β :=
  { m with other := m.other.drop count, merged := m.merged ++ m.other.take count }

/-- Become more patient. -/
def slowDown (m : Merge β) : Merge β := { m with patience := m.patience + 1 }

/-- Become less patient. -/
def speedUp (m : Merge β) : Merge β := { m with patience := max 1 (m.patience - 1) }

/-- Go on after a list has won a number of times in a row. -/
def afterWins (m : Merge β) (wins : Nat) (next : Pace) : Pace × Merge β :=
  if !m.isFinished && m.patience ≤ wins then (.leaps, m.slowDown) else (next, m)

/-- Move the items of the held list that go before the head of the other one, and then that head.
The number of the former is kept. -/
def leapHeld (fromBack : Bool) (precedes : β → β → Bool) (m : Merge β) : Merge β × Nat :=
  match m.other with
  | [] => (m, 0)
  | head :: _ =>
    let count := reach fromBack (fun item => !precedes head item) m.held
    let m := m.moveHeld count
    (if m.isFinished then m else m.moveOther 1, count)

/-- Move the items of the other list that go before the head of the held one, and then that head.
The number of the former is kept. -/
def leapOther (fromBack : Bool) (precedes : β → β → Bool) (m : Merge β) : Merge β × Nat :=
  match m.held with
  | [] => (m, 0)
  | head :: _ =>
    let count := reach fromBack (fun item => precedes item head) m.other
    let m := m.moveOther count
    (if m.isFinished then m else m.moveHeld 1, count)

/-- Leap in one of the lists. -/
def leap (fromBack : Bool) (precedes : β → β → Bool) (inHeld : Bool) (m : Merge β) :
    Merge β × Nat :=
  if inHeld then leapHeld fromBack precedes m else leapOther fromBack precedes m

/-- A leap pays if it moves this number of items at once. -/
def worthwhile : Nat := 7

/-- Move on by one step, or by a leap in each of the lists. An item of the other list goes before
one of the held list if it `precedes` it. -/
def advance (fromBack : Bool) (precedes : β → β → Bool) (pace : Pace) (m : Merge β) :
    Pace × Merge β :=
  match pace with
  | .steps heldWins otherWins =>
    match m.held, m.other with
    | held :: _, other :: _ =>
      if precedes other held then
        (m.moveOther 1).afterWins (otherWins + 1) (.steps 0 (otherWins + 1))
      else (m.moveHeld 1).afterWins (heldWins + 1) (.steps (heldWins + 1) 0)
    | _, _ => (pace, m)
  | .leaps =>
    let (m, before) := m.speedUp.leap fromBack precedes !fromBack
    if m.isFinished then (.leaps, m) else
    let (m, after) := m.leap fromBack precedes fromBack
    if m.isFinished || worthwhile ≤ before || worthwhile ≤ after then (.leaps, m)
    else (.steps 0 0, m.slowDown)

/-- There are items on both sides of a merge that is not finished. -/
theorem length_pos_of_not_isFinished {m : Merge β} (h : m.isFinished = false) :
    1 < m.held.length ∧ 0 < m.other.length := by
  simp only [isFinished, Bool.or_eq_false_iff, decide_eq_false_iff_not, List.isEmpty_eq_false_iff]
    at h
  exact ⟨by omega, List.length_pos_iff.2 h.2⟩

/-- A merge has the items of an earlier one, of which fewer are left to be moved. -/
structure Progress (m before : Merge β) : Prop where
  items_perm : m.items.Perm before.items
  remaining_lt : m.remaining < before.remaining

theorem Progress.trans {l m n : Merge β} (h : l.Progress m) (h' : m.Progress n) : l.Progress n :=
  ⟨h.items_perm.trans h'.items_perm, Nat.lt_trans h.remaining_lt h'.remaining_lt⟩

/-- Moving items of the other list changes no item. -/
theorem items_moveOther (m : Merge β) (count : Nat) : (m.moveOther count).items = m.items := by
  simp [items, moveOther]

/-- Moving items of the held list only changes the order of the items. -/
theorem items_moveHeld_perm (m : Merge β) (count : Nat) :
    (m.moveHeld count).items.Perm m.items := by
  have h : (m.held.take count ++ m.other ++ m.held.drop count).Perm (m.other ++ m.held) := by
    refine (List.perm_append_comm.append_right _).trans ?_
    simp
  simpa [items, moveHeld] using h.append_left m.merged

/-- A merge that is not finished moves on with an item of the other list. -/
theorem progress_moveOther {m : Merge β} (h : m.isFinished = false) :
    (m.moveOther 1).Progress m := by
  refine ⟨.of_eq (items_moveOther m 1), ?_⟩
  have := length_pos_of_not_isFinished h
  simp only [remaining, moveOther, List.length_drop]
  omega

/-- A merge that is not finished moves on with an item of the held list. -/
theorem progress_moveHeld {m : Merge β} (h : m.isFinished = false) :
    (m.moveHeld 1).Progress m := by
  refine ⟨items_moveHeld_perm m 1, ?_⟩
  have := length_pos_of_not_isFinished h
  simp only [remaining, moveHeld, List.length_drop]
  omega

/-- A merge that is not finished moves on with a leap in the held list. -/
theorem progress_leapHeld (fromBack : Bool) (precedes : β → β → Bool) {m : Merge β}
    (h : m.isFinished = false) : (leapHeld fromBack precedes m).1.Progress m := by
  have hpos := length_pos_of_not_isFinished h
  match hm : m.other with
  | [] => simp [hm] at hpos
  | head :: rest =>
    simp only [leapHeld, hm]
    generalize reach fromBack (fun item => !precedes head item) m.held = count
    have hperm := items_moveHeld_perm m count
    by_cases hf : (m.moveHeld count).isFinished = true
    · rw [if_pos hf]
      refine ⟨hperm, ?_⟩
      simp only [isFinished, moveHeld, hm, List.isEmpty_cons, Bool.or_false,
        decide_eq_true_eq] at hf
      simp only [remaining, moveHeld]
      omega
    · rw [if_neg hf]
      have next := progress_moveOther (Bool.not_eq_true _ ▸ hf)
      refine ⟨next.items_perm.trans hperm, Nat.lt_of_lt_of_le next.remaining_lt ?_⟩
      simp only [remaining, moveHeld, List.length_drop]
      omega

/-- A merge that is not finished moves on with a leap in the other list. -/
theorem progress_leapOther (fromBack : Bool) (precedes : β → β → Bool) {m : Merge β}
    (h : m.isFinished = false) : (leapOther fromBack precedes m).1.Progress m := by
  have hpos := length_pos_of_not_isFinished h
  match hm : m.held with
  | [] => simp [hm] at hpos
  | head :: rest =>
    simp only [leapOther, hm]
    generalize reach fromBack (fun item => precedes item head) m.other = count
    have hitems := items_moveOther m count
    by_cases hf : (m.moveOther count).isFinished = true
    · rw [if_pos hf]
      refine ⟨.of_eq hitems, ?_⟩
      simp only [isFinished, moveOther, Bool.or_eq_true, decide_eq_true_eq, hm,
        List.isEmpty_iff] at hf
      rw [hm] at hpos
      have hnone := hf.resolve_left (by omega)
      simp only [remaining, moveOther, hnone, List.length_nil]
      omega
    · rw [if_neg hf]
      have next := progress_moveHeld (Bool.not_eq_true _ ▸ hf)
      refine ⟨hitems ▸ next.items_perm, Nat.lt_of_lt_of_le next.remaining_lt ?_⟩
      simp only [remaining, moveOther, List.length_drop]
      omega

/-- A merge that is not finished moves on with a leap. -/
theorem progress_leap (fromBack : Bool) (precedes : β → β → Bool) (inHeld : Bool) {m : Merge β}
    (h : m.isFinished = false) : (m.leap fromBack precedes inHeld).1.Progress m := by
  cases inHeld
  · exact progress_leapOther fromBack precedes h
  · exact progress_leapHeld fromBack precedes h

/-- Patience does not count as progress. -/
theorem Progress.afterWins {m before : Merge β} (h : m.Progress before) (wins : Nat) (next : Pace) :
    (m.afterWins wins next).2.Progress before := by
  unfold Merge.afterWins
  split
  · exact ⟨h.items_perm, h.remaining_lt⟩
  · exact h

/-- A merge that is not finished moves on. -/
theorem progress_advance (fromBack : Bool) (precedes : β → β → Bool) (pace : Pace) {m : Merge β}
    (h : m.isFinished = false) : (advance fromBack precedes pace m).2.Progress m := by
  have hpos := length_pos_of_not_isFinished h
  cases pace with
  | steps heldWins otherWins =>
    match hm : m.held, hn : m.other with
    | [], _ => simp [hm] at hpos
    | _, [] => simp [hn] at hpos
    | held :: _, other :: _ =>
      simp only [advance, hm, hn]
      split
      · exact (progress_moveOther h).afterWins _ _
      · exact (progress_moveHeld h).afterWins _ _
  | leaps =>
    have first : (m.speedUp.leap fromBack precedes !fromBack).1.Progress m := by
      have := progress_leap fromBack precedes (!fromBack) (m := m.speedUp) h
      exact ⟨this.items_perm, this.remaining_lt⟩
    simp only [advance]
    split
    · exact first
    · rename_i hf
      have second := (progress_leap fromBack precedes fromBack
        (Bool.not_eq_true _ ▸ hf)).trans first
      split
      · exact second
      · exact ⟨second.items_perm, second.remaining_lt⟩

/-- Move on until the merge is finished. -/
def run (fromBack : Bool) (precedes : β → β → Bool) (pace : Pace) (m : Merge β) : Merge β :=
  if h : m.isFinished = true then m
  else
    have := (progress_advance fromBack precedes pace (Bool.not_eq_true _ ▸ h)).remaining_lt
    run fromBack precedes (advance fromBack precedes pace m).1
      (advance fromBack precedes pace m).2
termination_by m.remaining

/-- A run of a merge has the items of the merge. -/
theorem items_run_perm (fromBack : Bool) (precedes : β → β → Bool) (pace : Pace) (m : Merge β) :
    (run fromBack precedes pace m).items.Perm m.items := by
  induction pace, m using run.induct fromBack precedes with
  | case1 pace m h => rw [run, dif_pos h]
  | case2 pace m h _ ih =>
    rw [run, dif_neg h]
    exact ih.trans (progress_advance fromBack precedes pace (Bool.not_eq_true _ ▸ h)).items_perm

/-- Merge two lists of which the other one has the first item. -/
def ofLists (fromBack : Bool) (precedes : β → β → Bool) (patience : Nat) (held other : List β) :
    Merge β :=
  run fromBack precedes (.steps 0 0) ((⟨held, other, [], patience⟩ : Merge β).moveOther 1)

theorem items_ofLists_perm (fromBack : Bool) (precedes : β → β → Bool) (patience : Nat)
    (held other : List β) :
    (ofLists fromBack precedes patience held other).items.Perm (other ++ held) :=
  (items_run_perm _ _ _ _).trans (.of_eq (items_moveOther _ _))

end Merge

/-- Merge a run with the one after it, with a given patience; the answer is the merged run and the
patience that is left. -/
def mergeRuns (less : β → β → Bool) (patience : Nat) (left right : List β) : List β × Nat :=
  match right with
  | [] => (left, patience)
  | head :: _ =>
    let placed := reach false (fun item => !less head item) left
    let upper := left.drop placed
    match upper.getLast? with
    | none => (left ++ right, patience)
    | some last =>
      let count := right.length - reach true (fun item => !less item last) right.reverse
      let lower := right.take count
      if lower.isEmpty then (left ++ right, patience)
      else if upper.length ≤ lower.length then
        let m := Merge.ofLists false less patience upper lower
        (left.take placed ++ m.items ++ right.drop count, m.patience)
      else
        let m := Merge.ofLists true (fun a b => less b a) patience lower.reverse upper.reverse
        (left.take placed ++ m.items.reverse ++ right.drop count, m.patience)

/-- The merge of two runs has their items. -/
theorem mergeRuns_perm (less : β → β → Bool) (patience : Nat) (left right : List β) :
    (mergeRuns less patience left right).1.Perm (left ++ right) := by
  have split (i j : Nat) : left.take i ++ (left.drop i ++ right.take j) ++ right.drop j =
      left ++ right := by
    rw [← List.append_assoc, List.take_append_drop, List.append_assoc, List.take_append_drop]
  have join (i j : Nat) {middle : List β} (h : middle.Perm (left.drop i ++ right.take j)) :
      (left.take i ++ middle ++ right.drop j).Perm (left ++ right) :=
    ((h.append_left _).append_right _).trans (.of_eq (split i j))
  unfold mergeRuns
  split
  · simp
  · dsimp only
    split
    · exact .refl _
    · split
      · exact .refl _
      · split
        · exact join _ _ ((Merge.items_ofLists_perm _ _ _ _ _).trans List.perm_append_comm)
        · refine join _ _ ((List.reverse_perm _).trans
            ((Merge.items_ofLists_perm _ _ _ _ _).trans ?_))
          exact (List.reverse_perm _).append (List.reverse_perm _)

end Arrangement

end Multistage
