import Multistage.Scalar

/-!
# Sums in lanes

The sum of rounded scalars depends on the order of the additions. Sums over the entries of a vector
are made in lanes: every fourth entry belongs to the same lane, the lanes are summed apart from each
other, and their sums are added at the end. So are sums of products, in two lanes. In exact
arithmetic the order does not matter.

## Main definitions

- `alternate`: the items at even and at odd positions.
- `Lanes`, `Lanes.ofList`: the items at the positions of each remainder by four.
- `Scalar.sumInLanes`: the sum of a vector.
- `Scalar.dotInLanes`: the sum of the products of entries at the same position.

## Main statements

- `Scalar.sumInLanes_eq_sum`, `Scalar.dotInLanes_eq_dot`: over the rational numbers these are the
  sums from left to right.
-/

namespace Multistage

variable {β γ : Type}

/-- The items at even and at odd positions. -/
def alternate : List β → List β × List β
  | [] => ([], [])
  | item :: rest => (item :: (alternate rest).2, (alternate rest).1)

/-- Four of a kind. -/
structure Lanes (β : Type) where
  first : β
  second : β
  third : β
  fourth : β

namespace Lanes

/-- Apply a function to each of four. -/
def map (f : β → γ) (l : Lanes β) : Lanes γ := ⟨f l.first, f l.second, f l.third, f l.fourth⟩

/-- The items at the positions that leave the remainders zero, one, two and three by four. -/
def ofList (items : List β) : Lanes (List β) :=
  let (even, odd) := alternate items
  ⟨(alternate even).1, (alternate odd).1, (alternate even).2, (alternate odd).2⟩

end Lanes

namespace Scalar

variable {α : Type} [Scalar α]

/-- The number of items that are summed before their sum is added to other sums. -/
def blockSize : Nat := 16

/-- The sums of the full blocks with which a list begins, and the items after them. -/
def blockSums (xs : List α) : List α × List α :=
  if blockSize ≤ xs.length then
    let (sums, rest) := blockSums (xs.drop blockSize)
    (sum (xs.take blockSize) :: sums, rest)
  else ([], xs)
termination_by xs.length
decreasing_by simp only [List.length_drop, blockSize] at *; omega

/-- Add a list to a start: first what its blocks leave over, then the sums of the blocks, which are
again summed in blocks, up to a given order. -/
def addInBlocks : (order : Nat) → (start : α) → List α → α
  | 0, start, xs => start + sum xs
  | order + 1, start, xs => addInBlocks order (start + sum (blockSums xs).2) (blockSums xs).1

/-- The number of times that sums of blocks are summed in blocks. -/
def blockOrder : Nat := 3

/-- The sum in blocks. -/
def sumInBlocks (xs : List α) : α := addInBlocks blockOrder 0 xs

/-- The longest first part of a list that has the same number of items in all four lanes. -/
def evenPart (xs : List α) : List α := xs.take (xs.length / 4 * 4)

/-- The items after the even part of a list. -/
def unevenPart (xs : List α) : List α := xs.drop (xs.length / 4 * 4)

/-- The sum of a lane: the lanes of its even part are summed in blocks, and the items after that are
added to the first of these sums. -/
def sumOfLane (xs : List α) : α :=
  let sums := (Lanes.ofList (evenPart xs)).map sumInBlocks
  (unevenPart xs).foldl (· + ·) sums.first + sums.second + sums.third + sums.fourth

/-- The sum of a vector: the items after its even part, and then its lanes. -/
def sumInLanes (xs : List α) : α :=
  let sums := (Lanes.ofList (evenPart xs)).map sumOfLane
  sum (unevenPart xs) + sums.first + sums.second + sums.third + sums.fourth

/-- The sum of the products of entries at the same position, in two lanes. -/
def dotInLanes (xs ys : List α) : α :=
  let (even, odd) := alternate (List.zipWith (· * ·) xs ys)
  sum even + sum odd

/-! ### Exact arithmetic -/

/-- A sum that starts elsewhere is the start and the sum. -/
theorem foldl_add_eq (xs : List Rat) (start : Rat) :
    xs.foldl (· + ·) start = start + sum xs := by
  induction xs generalizing start with
  | nil => exact (Rat.add_zero start).symm
  | cons x xs ih =>
    have h : sum (x :: xs) = x + sum xs := by
      show xs.foldl (· + ·) (0 + x) = x + sum xs
      rw [ih, Rat.zero_add]
    rw [List.foldl_cons, ih, h, Rat.add_assoc]

/-- The sum of a list is its first item and the sum of the others. -/
theorem sum_cons (x : Rat) (xs : List Rat) : sum (x :: xs) = x + sum xs := by
  show xs.foldl (· + ·) (0 + x) = x + sum xs
  rw [foldl_add_eq, Rat.zero_add]

/-- The sum of two lists, one after the other. -/
theorem sum_append (xs ys : List Rat) : sum (xs ++ ys) = sum xs + sum ys := by
  show (xs ++ ys).foldl (· + ·) 0 = sum xs + sum ys
  rw [List.foldl_append]
  exact foldl_add_eq ys _

/-- The items at even and at odd positions together have the sum of the list. -/
theorem sum_alternate (xs : List Rat) :
    sum (alternate xs).1 + sum (alternate xs).2 = sum xs := by
  induction xs with
  | nil => exact Rat.add_zero _
  | cons x xs ih =>
    rw [sum_cons x xs, ← ih]
    show sum (x :: (alternate xs).2) + sum (alternate xs).1 = _
    rw [sum_cons, Rat.add_assoc, Rat.add_comm (sum (alternate xs).2)]

/-- The four lanes of a list together have its sum. -/
theorem sum_lanes (xs : List Rat) :
    let sums := (Lanes.ofList xs).map sum
    sums.first + sums.second + sums.third + sums.fourth = sum xs := by
  have even := sum_alternate (alternate xs).1
  have odd := sum_alternate (alternate xs).2
  have all := sum_alternate xs
  simp only [Lanes.ofList, Lanes.map]
  grind

/-- The sums of the blocks and the items after the blocks together have the sum of the list. -/
theorem sum_blockSums (xs : List Rat) : sum (blockSums xs).2 + sum (blockSums xs).1 = sum xs := by
  induction xs using blockSums.induct with
  | case1 xs h sums rest _ ih =>
    have split := sum_append (xs.take blockSize) (xs.drop blockSize)
    rw [List.take_append_drop] at split
    rw [blockSums, if_pos h, split, ← ih]
    simp only [sum_cons]
    grind
  | case2 xs h =>
    rw [blockSums, if_neg h]
    exact Rat.add_zero _

/-- Adding in blocks adds the sum. -/
theorem addInBlocks_eq (order : Nat) (start : Rat) (xs : List Rat) :
    addInBlocks order start xs = start + sum xs := by
  induction order generalizing start xs with
  | zero => rfl
  | succ order ih => rw [addInBlocks, ih, Rat.add_assoc, sum_blockSums]

/-- The sum in blocks is the sum. -/
theorem sumInBlocks_eq (xs : List Rat) : sumInBlocks xs = sum xs := by
  rw [sumInBlocks, addInBlocks_eq, Rat.zero_add]

/-- The two parts of a list together have its sum. -/
theorem sum_parts (xs : List Rat) : sum (evenPart xs) + sum (unevenPart xs) = sum xs := by
  rw [← sum_append, evenPart, unevenPart, List.take_append_drop]

/-- The sum of a lane is the sum of its items. -/
theorem sumOfLane_eq (xs : List Rat) : sumOfLane xs = sum xs := by
  have lanes := sum_lanes (evenPart xs)
  have parts := sum_parts xs
  have blocks : (sumInBlocks : List Rat → Rat) = sum := funext sumInBlocks_eq
  simp only [sumOfLane, blocks, foldl_add_eq]
  grind

/-- The sum in lanes is the sum from left to right. -/
theorem sumInLanes_eq_sum (xs : List Rat) : sumInLanes xs = sum xs := by
  have lanes := sum_lanes (evenPart xs)
  have parts := sum_parts xs
  have lane : (sumOfLane : List Rat → Rat) = sum := funext sumOfLane_eq
  simp only [sumInLanes, lane]
  grind

/-- The sum of products in lanes is the one from left to right. -/
theorem dotInLanes_eq_dot (xs ys : List Rat) : dotInLanes xs ys = dot xs ys :=
  sum_alternate _

end Scalar

end Multistage
