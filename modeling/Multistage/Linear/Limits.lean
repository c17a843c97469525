import Multistage.Linear.Program

/-!
# Limits of the numbers of a program

A solver sets limits to the numbers of the programs that it takes: a coefficient that is too small
counts as zero, a bound or a right hand side that is too large counts as infinite, and a program
with a coefficient that is too large, or with a bound or a side that is infinite where nothing could
satisfy it, is refused.

## Main definitions

- `Limits`, `Limits.standard`: the limits.
- `Limits.Respected`: the numbers of a program are well within the limits.
- `Program.within?`: the program as it is taken by a solver with limits, unless it is refused.

## Main statements

- `Program.within?_eq_self`: a program whose numbers are well within the limits is taken as it is.
-/

namespace Multistage

/-- The limits of the numbers of a program. -/
structure Limits where
  /-- The greatest size of a coefficient that counts as zero. -/
  negligible : Rat
  /-- The least size of a coefficient that is refused. -/
  excessive : Rat
  /-- The least size of a bound or of a right hand side that counts as infinite. -/
  unlimited : Rat

namespace Limits

/-- The limits of the solver of the library. -/
def standard : Limits where
  negligible := mkRat 1 (Nat.pow 10 9)
  excessive := (Nat.pow 10 15 : Nat)
  unlimited := (Nat.pow 10 20 : Nat)

variable (l : Limits)

/-- A coefficient as it is taken. -/
def coefficient (a : Rat) : Rat := if Scalar.abs a ≤ l.negligible then 0 else a

/-- A row as it is taken. -/
def row (r : Row Rat) : Row Rat := ⟨r.coefficients.map l.coefficient, r.rhs⟩

/-- A bound as it is taken. -/
def bound (b : Option Rat) : Option Rat := b.filter fun x => Scalar.abs x < l.unlimited

/-- The coefficients of a row are too large. -/
def refuses (r : Row Rat) : Bool := r.coefficients.any fun a => l.excessive ≤ Scalar.abs a

/-- A program with an upper limit that is infinitely low or a lower one that is infinitely high, or
with coefficients that are too large. -/
def refusesProgram (p : Program Rat) : Bool :=
  (p.atMost ++ p.equal).any l.refuses ||
    p.atMost.any (·.rhs ≤ -l.unlimited) ||
    p.equal.any (l.unlimited ≤ Scalar.abs ·.rhs) ||
    p.lower.any (·.any (l.unlimited ≤ ·)) ||
    p.upper.any (·.any (· ≤ -l.unlimited))

/-- A number that is smaller in size than a limit lies between its negative and the limit. -/
theorem between_of_abs_lt {a limit : Rat} (h : Scalar.abs a < limit) :
    -limit < a ∧ a < limit := by
  unfold Scalar.abs at h
  split at h <;> grind

/-- A row is well within the limits. -/
structure RespectedByRow (r : Row Rat) : Prop where
  coefficient : ∀ a ∈ r.coefficients,
    Scalar.abs a < l.excessive ∧ (Scalar.abs a ≤ l.negligible → a = 0)
  rhs : Scalar.abs r.rhs < l.unlimited

/-- The numbers of a program are well within the limits. -/
structure Respected (p : Program Rat) : Prop where
  row : ∀ r ∈ p.atMost ++ p.equal, l.RespectedByRow r
  bound : ∀ b ∈ p.lower ++ p.upper, ∀ x ∈ b, Scalar.abs x < l.unlimited

variable {l}

/-- A row that is well within the limits is taken as it is. -/
theorem RespectedByRow.row_eq_self {r : Row Rat} (h : l.RespectedByRow r) : l.row r = r := by
  have same : r.coefficients.map l.coefficient = r.coefficients.map id := by
    refine List.map_congr_left fun a ha => ?_
    unfold Limits.coefficient
    split
    · exact ((h.coefficient a ha).2 ‹_›).symm
    · rfl
  rw [Limits.row, same, List.map_id]

/-- A bound that is well within the limits is taken as it is. -/
theorem bound_eq_self {b : Option Rat} (h : ∀ x ∈ b, Scalar.abs x < l.unlimited) :
    l.bound b = b := by
  cases b with
  | none => rfl
  | some x => simp [Limits.bound, h x rfl]

/-- A program that is well within the limits is not refused. -/
theorem Respected.refusesProgram_eq_false {p : Program Rat} (h : l.Respected p) :
    l.refusesProgram p = false := by
  have row := h.row
  have bound := h.bound
  simp only [List.mem_append] at row bound
  have rows : (p.atMost ++ p.equal).any l.refuses = false :=
    List.any_eq_false.2 fun r hr => by
      simp only [refuses, List.any_eq_true, decide_eq_true_eq, not_exists, not_and]
      exact fun a ha => Rat.not_le.2 ((h.row r hr).coefficient a ha).1
  have high : p.atMost.any (·.rhs ≤ -l.unlimited) = false :=
    List.any_eq_false.2 fun r hr h =>
      Rat.not_le.2 (between_of_abs_lt (row r (.inl hr)).rhs).1 (of_decide_eq_true h)
  have level : p.equal.any (l.unlimited ≤ Scalar.abs ·.rhs) = false :=
    List.any_eq_false.2 fun r hr h => Rat.not_le.2 (row r (.inr hr)).rhs (of_decide_eq_true h)
  have lower : p.lower.any (·.any (l.unlimited ≤ ·)) = false :=
    List.any_eq_false.2 fun b hb => by
      cases b with
      | none => exact Bool.false_ne_true
      | some x =>
        exact fun h => Rat.not_le.2 (between_of_abs_lt (bound _ (.inl hb) x rfl)).2
          (of_decide_eq_true h)
  have upper : p.upper.any (·.any (· ≤ -l.unlimited)) = false :=
    List.any_eq_false.2 fun b hb => by
      cases b with
      | none => exact Bool.false_ne_true
      | some x =>
        exact fun h => Rat.not_le.2 (between_of_abs_lt (bound _ (.inr hb) x rfl)).1
          (of_decide_eq_true h)
  simp only [refusesProgram, rows, high, level, lower, upper, Bool.or_false]

end Limits

namespace Program

/-- The program as it is taken, unless it is refused. A row whose right hand side is infinitely high
asks for nothing. -/
def within? (l : Limits) (p : Program Rat) : Option (Program Rat) :=
  if l.refusesProgram p then none
  else some
    { cost := p.cost
      atMost := (p.atMost.filter (·.rhs < l.unlimited)).map l.row
      equal := p.equal.map l.row
      lower := p.lower.map l.bound
      upper := p.upper.map l.bound }

/-- A program whose numbers are well within the limits is taken as it is. -/
theorem within?_eq_self {l : Limits} {p : Program Rat} (h : l.Respected p) :
    p.within? l = some p := by
  have rows {rs : List (Row Rat)} (hrs : ∀ r ∈ rs, l.RespectedByRow r) : rs.map l.row = rs := by
    rw [List.map_congr_left fun r hr => (hrs r hr).row_eq_self]
    exact List.map_id' rs
  have bounds {bs : List (Option Rat)}
      (hbs : ∀ b ∈ bs, ∀ x ∈ b, Scalar.abs x < l.unlimited) : bs.map l.bound = bs := by
    rw [List.map_congr_left fun b hb => Limits.bound_eq_self (hbs b hb)]
    exact List.map_id' bs
  have row := h.row
  have bound := h.bound
  simp only [List.mem_append] at row bound
  have finite : p.atMost.filter (·.rhs < l.unlimited) = p.atMost :=
    List.filter_eq_self.2 fun r hr =>
      decide_eq_true (Limits.between_of_abs_lt (row r (.inl hr)).rhs).2
  rw [within?, h.refusesProgram_eq_false, finite, rows fun r hr => row r (.inl hr),
    rows fun r hr => row r (.inr hr), bounds fun b hb => bound b (.inl hb),
    bounds fun b hb => bound b (.inr hb)]
  simp

end Program

end Multistage
