/-!
# Runs and insertion

A list that is not known to be ordered begins with a run, which is turned round if it descends. A
run is made longer by putting items into their places, which are found by bisection.

## Main definitions

- `Arrangement.leadingRun`: the run with which a list begins.
- `Arrangement.bisect`: the end of the items that are kept, by bisection.
- `Arrangement.insert`: put an item into its place.

## Main statements

- `Arrangement.leadingRun_perm`, `Arrangement.insert_perm`: no item is lost and none is added.
-/

namespace Multistage

namespace Arrangement

variable {β : Type}

/-- Split a list after the last item up to which every item relates to the one before it. -/
def splitWhile (relates : β → β → Bool) (first : β) : List β → List β × List β
  | [] => ([first], [])
  | second :: rest =>
    if relates first second then
      let (run, others) := splitWhile relates second rest
      (first :: run, others)
    else ([first], second :: rest)

/-- A list is the part before the split followed by the part after it. -/
theorem splitWhile_append (relates : β → β → Bool) (first : β) (items : List β) :
    (splitWhile relates first items).1 ++ (splitWhile relates first items).2 = first :: items := by
  induction items generalizing first with
  | nil => rfl
  | cons second rest ih =>
    by_cases h : relates first second = true
    · simp [splitWhile, h, ih second]
    · simp [splitWhile, h]

/-- The part after the split holds none of the first items. -/
theorem length_splitWhile (relates : β → β → Bool) (first : β) (items : List β) :
    (splitWhile relates first items).2.length ≤ items.length := by
  induction items generalizing first with
  | nil => exact Nat.le_refl _
  | cons second rest ih =>
    by_cases h : relates first second = true
    · simp only [splitWhile, h, if_true]
      exact Nat.le_succ_of_le (ih second)
    · simp [splitWhile, h]

/-- The run with which a list begins, in ascending order, and the items after it. A run descends if
each of its items is less than the one before it, and ascends if none is. -/
def leadingRun (less : β → β → Bool) : List β → List β × List β
  | [] => ([], [])
  | [first] => ([first], [])
  | first :: second :: rest =>
    let descends := less second first
    let (run, others) := splitWhile (fun a b => less b a == descends) first (second :: rest)
    (if descends then run.reverse else run, others)

/-- The leading run and the items after it are the items of the list. -/
theorem leadingRun_perm (less : β → β → Bool) (items : List β) :
    ((leadingRun less items).1 ++ (leadingRun less items).2).Perm items := by
  match items with
  | [] => rfl
  | [_] => rfl
  | first :: second :: rest =>
    have h := splitWhile_append (fun a b => less b a == less second first) first (second :: rest)
    by_cases hd : less second first = true
    · simp only [leadingRun, hd, if_true]
      rw [hd] at h
      exact ((List.reverse_perm _).append_right _).trans (.of_eq h)
    · rw [Bool.not_eq_true] at hd
      rw [hd] at h
      simp only [leadingRun, hd, Bool.false_eq_true, if_false]
      exact .of_eq h

/-- There are fewer items after the leading run than in a list that has items. -/
theorem length_leadingRun (less : β → β → Bool) (items : List β) (h : items ≠ []) :
    (leadingRun less items).2.length < items.length := by
  match items with
  | [] => exact absurd rfl h
  | [_] => exact Nat.zero_lt_one
  | first :: second :: rest =>
    exact Nat.lt_succ_of_le
      (length_splitWhile (fun a b => less b a == less second first) first (second :: rest))

/-- The end of the items that are kept, between two places of a list, by bisection. Of a range of
even length it is the later item of the two in the middle that decides, or the earlier one if the
list is seen from its back. -/
def bisect (fromBack : Bool) (keep : β → Bool) (items : List β) (low high : Nat) : Nat :=
  if low < high then
    let half := (high - low) / 2
    let middle := if fromBack then high - 1 - half else low + half
    match items[middle]? with
    | some item =>
      if keep item then bisect fromBack keep items (middle + 1) high
      else bisect fromBack keep items low middle
    | none => low
  else low
termination_by high - low
decreasing_by all_goals (subst middle; subst half; split <;> omega)

/-- Put an item into its place, in front of the items that it is less than. -/
def insert (less : β → β → Bool) (arranged : List β) (item : β) : List β :=
  let i := bisect false (fun other => !less item other) arranged 0 arranged.length
  arranged.take i ++ item :: arranged.drop i

/-- An insertion adds the item. -/
theorem insert_perm (less : β → β → Bool) (arranged : List β) (item : β) :
    (insert less arranged item).Perm (arranged ++ [item]) := by
  have h (i : Nat) := @List.perm_middle _ item (arranged.take i) (arranged.drop i)
  simp only [List.take_append_drop] at h
  exact (h _).trans (@List.perm_append_comm _ [item] arranged)

/-- Insertions add the items. -/
theorem foldl_insert_perm (less : β → β → Bool) (items arranged : List β) :
    (items.foldl (insert less) arranged).Perm (arranged ++ items) := by
  induction items generalizing arranged with
  | nil => simp
  | cons item rest ih =>
    refine (ih _).trans (((insert_perm less arranged item).append_right rest).trans ?_)
    simp

end Arrangement

end Multistage
