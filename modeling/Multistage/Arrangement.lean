import Multistage.Arrangement.Merging

/-!
# Arranging a list by a comparison

A list is arranged by comparing its items with each other. The comparison may be no order, as for
numbers of which some are not-a-number; therefore it matters which items are compared. The list is
cut into runs, and runs that are too short are made longer by insertion. Neighbouring runs are
merged in the order in which a balanced tree over the list would join them: each boundary between
two runs has a depth in that tree, and the deeper of two boundaries is merged away first.

## Main definitions

- `Arrangement.shortestRun`: the number of items that a run should have.
- `Arrangement.depth`: the depth of the boundary between two runs.
- `arrange`: the arrangement of a list.

## Main statements

- `arrange_perm`: an arrangement has the same items as the list.
-/

namespace Multistage

namespace Arrangement

variable {β : Type}

/-- The number of items that a run should have: all of them if there are less than sixty-four, and
otherwise their number divided by the power of two that makes it less than that, rounded up. -/
def shortestRun (total : Nat) : Nat :=
  let parts := Nat.pow 2 (total.log2 - 5)
  (total + parts - 1) / parts

/-- The next run of a list, made longer if it is too short, and the items after it. -/
def nextRun (less : β → β → Bool) (shortest : Nat) (items : List β) : List β × List β :=
  let (run, others) := leadingRun less items
  let missing := shortest - run.length
  ((others.take missing).foldl (insert less) run, others.drop missing)

/-- The next run and the items after it are the items of the list. -/
theorem nextRun_perm (less : β → β → Bool) (shortest : Nat) (items : List β) :
    ((nextRun less shortest items).1 ++ (nextRun less shortest items).2).Perm items := by
  have h := leadingRun_perm less items
  simp only [nextRun]
  refine ((foldl_insert_perm less _ _).append_right _).trans ?_
  rwa [List.append_assoc, List.take_append_drop]

/-- There are fewer items after the next run than in a list that has items. -/
theorem length_nextRun (less : β → β → Bool) (shortest : Nat) (items : List β) (h : items ≠ []) :
    (nextRun less shortest items).2.length < items.length := by
  refine Nat.lt_of_le_of_lt ?_ (length_leadingRun less items h)
  simp only [nextRun, List.length_drop]
  omega

/-- The depth of the boundary between two runs of given lengths, of which the left one starts at a
place of a list: the number of binary digits up to the first one in which the places of the middles
of the runs, as parts of the whole, differ. -/
def depth (total start left right : Nat) : Nat :=
  let differs (digits : Nat) : Bool :=
    (2 * start + left) * Nat.pow 2 digits / total !=
      (2 * start + 2 * left + right) * Nat.pow 2 digits / total
  ((List.range (total.log2 + 2)).find? differs).getD 0

/-- A run before the current one, and the depth of the boundary after it. -/
structure Pending (β : Type) where
  items : List β
  depth : Nat

/-- Merge the pending runs whose boundaries are deeper than a given depth with the current one, the
last pending run first; the answer is the current run, the runs that are pending and the patience
that is left. -/
def collapse (less : β → β → Bool) (depth : Nat) :
    (patience : Nat) → (pending : List (Pending β)) → (current : List β) →
    List β × List (Pending β) × Nat
  | patience, [], current => (current, [], patience)
  | patience, last :: pending, current =>
    if depth < last.depth then
      let (current, patience) := mergeRuns less patience last.items current
      collapse less depth patience pending current
    else (current, last :: pending, patience)

/-- Merge all pending runs with the current one, the last of them first, unless the one before it is
shorter than the current one, which is then merged with the last. -/
def finish (less : β → β → Bool) :
    (patience : Nat) → (pending : List (Pending β)) → (current : List β) → List β
  | _, [], current => current
  | patience, [last], current => (mergeRuns less patience last.items current).1
  | patience, last :: earlier :: pending, current =>
    if earlier.items.length < current.length then
      let (merged, patience) := mergeRuns less patience earlier.items last.items
      finish less patience (⟨merged, earlier.depth⟩ :: pending) current
    else
      let (merged, patience) := mergeRuns less patience last.items current
      finish less patience (earlier :: pending) merged
termination_by _ pending _ => pending.length

/-- Arrange the items after the current run, which starts at a place of a list of a given length. -/
def arrangeFrom (less : β → β → Bool) (total : Nat) (patience start : Nat)
    (pending : List (Pending β)) (current items : List β) : List β :=
  if h : items = [] then finish less patience pending current
  else
    have := length_nextRun less (shortestRun total) items h
    let next := nextRun less (shortestRun total) items
    let d := depth total start current.length next.1.length
    let joined := collapse less d patience pending current
    arrangeFrom less total joined.2.2 (start + current.length) (⟨joined.1, d⟩ :: joined.2.1)
      next.1 next.2
termination_by items.length

/-- The items of pending runs. -/
def pendingItems (pending : List (Pending β)) : List β := pending.flatMap (·.items)

/-- Merging some of the pending runs with the current one changes no items. -/
theorem collapse_perm (less : β → β → Bool) (depth patience : Nat) (pending : List (Pending β))
    (current : List β) :
    let result := collapse less depth patience pending current
    (pendingItems result.2.1 ++ result.1).Perm (pendingItems pending ++ current) := by
  induction pending generalizing patience current with
  | nil => exact .refl _
  | cons last pending ih =>
    by_cases h : depth < last.depth
    · simp only [collapse, h, if_true]
      refine (ih _ _).trans (((mergeRuns_perm less _ _ _).append_left _).trans ?_)
      simp only [pendingItems, List.flatMap_cons, ← List.append_assoc]
      exact List.perm_append_comm.append_right _
    · simp only [collapse, h, if_false]
      exact .refl _

/-- Merging all pending runs with the current one changes no items. -/
theorem finish_perm (less : β → β → Bool) (patience : Nat) (pending : List (Pending β))
    (current : List β) :
    (finish less patience pending current).Perm (pendingItems pending ++ current) := by
  induction patience, pending, current using finish.induct less with
  | case1 => simp [finish, pendingItems]
  | case2 patience last current =>
    simpa [finish, pendingItems] using mergeRuns_perm less patience last.items current
  | case3 patience last earlier pending current h merged p hm ih =>
    rw [finish, if_pos h]
    have hmerged := mergeRuns_perm less patience earlier.items last.items
    rw [hm] at hmerged ⊢
    refine ih.trans ?_
    simp only [pendingItems, List.flatMap_cons, ← List.append_assoc]
    exact ((hmerged.trans List.perm_append_comm).append_right _).append_right _
  | case4 patience last earlier pending current h merged p hm ih =>
    rw [finish, if_neg h]
    have hmerged := mergeRuns_perm less patience last.items current
    rw [hm] at hmerged ⊢
    refine ih.trans ((hmerged.append_left _).trans ?_)
    simp only [pendingItems, List.flatMap_cons, ← List.append_assoc]
    exact (List.perm_append_comm.trans (.of_eq (List.append_assoc ..).symm)).append_right _

/-- Arranging the items after the current run changes no items. -/
theorem arrangeFrom_perm (less : β → β → Bool) (total patience start : Nat)
    (pending : List (Pending β)) (current items : List β) :
    (arrangeFrom less total patience start pending current items).Perm
      (pendingItems pending ++ current ++ items) := by
  induction patience, start, pending, current, items using
      arrangeFrom.induct less total with
  | case1 patience start pending current =>
    rw [arrangeFrom, dif_pos rfl, List.append_nil]
    exact finish_perm less patience pending current
  | case2 patience start pending current items h _ next d joined ih =>
    rw [arrangeFrom, dif_neg h]
    have hjoined : (joined.1 ++ pendingItems joined.2.1).Perm (pendingItems pending ++ current) :=
      List.perm_append_comm.trans (collapse_perm less d patience pending current)
    have hnext : (next.1 ++ next.2).Perm items := nextRun_perm less (shortestRun total) items
    refine ih.trans ?_
    rw [List.append_assoc]
    exact hjoined.append hnext

end Arrangement

variable {β : Type}

/-- The arrangement of a list by a comparison. -/
def arrange (less : β → β → Bool) (items : List β) : List β :=
  let total := items.length
  let (run, others) := Arrangement.nextRun less (Arrangement.shortestRun total) items
  Arrangement.arrangeFrom less total Arrangement.Merge.worthwhile 0 [] run others

/-- An arrangement has the same items as the list. -/
theorem arrange_perm (less : β → β → Bool) (items : List β) : (arrange less items).Perm items := by
  refine (Arrangement.arrangeFrom_perm less items.length _ 0 [] _ _).trans ?_
  exact Arrangement.nextRun_perm less _ items

end Multistage
