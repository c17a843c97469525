import Mathlib.Algebra.Field.Rat
import Multistage.Linear.Workspace
import Multistage.Proofs.Linear.Expression
import Multistage.Proofs.Linear.Refusal

/-!
# Arithmetic with expressions

In exact arithmetic a formula over numbers, variables and expressions has the value that its
operations say, for every assignment of the variables. It fails iff it multiplies an expression by
another, or divides by an expression or by zero.

## Main definitions

- `Operand.Means`: an operand is a number or an expression, with a value under every assignment.
- `Formula.value`: the value by ordinary arithmetic.
- `Formula.Breaks`: where the operations are not defined.

## Main statements

- `Operand.Means.add`, `Operand.Means.sub`, `Operand.Means.mul`, `Operand.Means.div`,
  `Operand.Means.neg`: what each operation makes of operands.
- `Formula.eval_of_isTree`: when a formula fails, and the value of its answer.
-/

namespace Multistage

namespace Datum

/-- The number that a datum is. -/
def amount : Datum ℚ → ℚ
  | int n => n
  | bool b => if b then 1 else 0
  | real x => x
  | _ => 0

variable {a b : Datum ℚ} {q r : ℚ}

/-- The datum is the number. -/
structure Is (d : Datum ℚ) (q : ℚ) : Prop where
  numeric : d.isNumeric = true
  amount : d.amount = q

theorem Is.asNumber (h : a.Is q) : a.asNumber = .ok q := by
  obtain ⟨hnumeric, rfl⟩ := h
  cases a <;> first | rfl | cases hnumeric

theorem Is.integer (h : a.Is q) {n : ℤ} (hn : a.integer? = some n) : q = n := by
  obtain ⟨hnumeric, rfl⟩ := h
  cases a with
  | int m => cases hn; rfl
  | bool b => cases hn; cases b <;> rfl
  | _ => cases hn

/-- Numbers are combined as integers or as scalars. -/
theorem combine_cases (ha : a.Is q) (hb : b.Is r) (onInt : ℤ → ℤ → Except (Failure ℚ) (Datum ℚ))
    (onScalar : ℚ → ℚ → Except (Failure ℚ) (Datum ℚ)) :
    combine onInt onScalar a b = onScalar q r ∨
      ∃ m n : ℤ, q = m ∧ r = n ∧ combine onInt onScalar a b = onInt m n := by
  unfold combine
  split
  next m n hm hn => exact .inr ⟨m, n, ha.integer hm, hb.integer hn, rfl⟩
  next =>
    refine .inl ?_
    rw [ha.numeric, hb.numeric, ha.asNumber, hb.asNumber]
    rfl

theorem is_int (n : ℤ) : (int n : Datum ℚ).Is n := ⟨rfl, rfl⟩

theorem is_real (x : ℚ) : (real x : Datum ℚ).Is x := ⟨rfl, rfl⟩

theorem Is.repeated? (h : a.Is q) (times : ℤ) : a.repeated? times = none := by
  obtain ⟨hnumeric, -⟩ := h
  cases a <;> first | rfl | cases hnumeric

theorem Is.add (ha : a.Is q) (hb : b.Is r) : ∃ d, a.add b = .ok d ∧ d.Is (q + r) := by
  have sum : a.add b =
      combine (fun m n => .ok (int (m + n))) (fun x y => .ok (real (x + y))) a b := by
    obtain ⟨hnumeric, -⟩ := ha
    cases a <;> first | rfl | cases hnumeric
  rw [sum]
  rcases combine_cases ha hb (fun m n => .ok (int (m + n)))
      (fun x y => .ok (real (x + y))) with h | ⟨m, n, rfl, rfl, h⟩
  · exact ⟨_, h, is_real _⟩
  · exact ⟨_, h, by exact_mod_cast is_int (m + n)⟩

theorem Is.sub (ha : a.Is q) (hb : b.Is r) : ∃ d, a.sub b = .ok d ∧ d.Is (q - r) := by
  rcases combine_cases ha hb (fun m n => .ok (int (m - n)))
      (fun x y => .ok (real (x - y))) with h | ⟨m, n, rfl, rfl, h⟩
  · exact ⟨_, h, is_real _⟩
  · exact ⟨_, h, by exact_mod_cast is_int (m - n)⟩

theorem Is.mul (ha : a.Is q) (hb : b.Is r) : ∃ d, a.mul b = .ok d ∧ d.Is (q * r) := by
  have product :
      a.mul b = combine (fun m n => .ok (int (m * n))) (fun x y => .ok (real (x * y))) a b := by
    unfold Datum.mul
    rw [Option.bind_eq_none_iff.2 fun n _ => ha.repeated? n,
      Option.bind_eq_none_iff.2 fun n _ => hb.repeated? n]
  rw [product]
  rcases combine_cases ha hb (fun m n => .ok (int (m * n)))
      (fun x y => .ok (real (x * y))) with h | ⟨m, n, rfl, rfl, h⟩
  · exact ⟨_, h, is_real _⟩
  · exact ⟨_, h, by exact_mod_cast is_int (m * n)⟩

theorem Is.neg (ha : a.Is q) : ∃ d, a.neg = .ok d ∧ d.Is (-q) := by
  obtain ⟨hnumeric, rfl⟩ := ha
  cases a with
  | int n => exact ⟨_, rfl, by exact_mod_cast is_int (-n)⟩
  | bool b => exact ⟨_, rfl, rfl, by cases b <;> norm_num [Datum.amount]⟩
  | real x => exact ⟨_, rfl, is_real _⟩
  | _ => cases hnumeric

/-- The quotient of integers, from their sizes and signs. -/
theorem is_quotient (m : ℤ) {n : ℤ} (hn : n ≠ 0) : ∃ d : Datum ℚ, quotient m n = .ok d ∧
    d.Is (m / n) := by
  have size : mkRat m.natAbs n.natAbs = |(m : ℚ)| / |(n : ℚ)| := by
    rw [Rat.mkRat_eq_div, Int.cast_natCast, Nat.cast_natAbs, Nat.cast_natAbs, Int.cast_abs,
      Int.cast_abs]
  unfold quotient
  rw [if_neg (by simpa using hn)]
  refine ⟨_, rfl, rfl, ?_⟩
  show (if decide (m < 0) ==
      decide (n < 0) then mkRat m.natAbs n.natAbs else -mkRat m.natAbs n.natAbs) = _
  rw [size]
  by_cases hm : m < 0 <;> by_cases hn' : n < 0
  · have hmq : (m : ℚ) < 0 := by exact_mod_cast hm
    have hnq : (n : ℚ) < 0 := by exact_mod_cast hn'
    simp [hm, hn', abs_of_neg hmq, abs_of_neg hnq]
  · have hmq : (m : ℚ) < 0 := by exact_mod_cast hm
    have hnq : (0 : ℚ) ≤ n := by exact_mod_cast not_lt.1 hn'
    simp [hm, hn', abs_of_neg hmq, abs_of_nonneg hnq, neg_div]
  · have hmq : (0 : ℚ) ≤ m := by exact_mod_cast not_lt.1 hm
    have hnq : (n : ℚ) < 0 := by exact_mod_cast hn'
    simp [hm, hn', abs_of_nonneg hmq, abs_of_neg hnq, div_neg]
  · have hmq : (0 : ℚ) ≤ m := by exact_mod_cast not_lt.1 hm
    have hnq : (0 : ℚ) ≤ n := by exact_mod_cast not_lt.1 hn'
    simp [hm, hn', abs_of_nonneg hmq, abs_of_nonneg hnq]

theorem isZero_rat {x : ℚ} : Scalar.isZero x = true ↔ x = 0 := by
  rw [Scalar.isZero, Scalar.same, Bool.and_eq_true, decide_eq_true_iff, decide_eq_true_iff,
    le_antisymm_iff]

theorem Is.div (ha : a.Is q) (hb : b.Is r) (hr : r ≠ 0) : ∃ d, a.div b = .ok d ∧ d.Is (q / r) := by
  unfold Datum.div
  rcases combine_cases ha hb quotient
    (fun x y => if Scalar.isZero y then .error .divisionByZero else .ok (real (x / y))) with h | ⟨m,
      n, rfl, rfl, h⟩
  · rw [h, if_neg (mt isZero_rat.1 hr)]
    exact ⟨_, rfl, is_real _⟩
  · rw [h]
    exact is_quotient m (by exact_mod_cast hr)

theorem Is.div_zero (ha : a.Is q) (hb : b.Is 0) : a.div b = .error .divisionByZero := by
  unfold Datum.div
  rcases combine_cases ha hb quotient
    (fun x y => if Scalar.isZero y then .error .divisionByZero else .ok (real (x / y))) with h | ⟨m,
      n, -, hn, h⟩
  · rw [h, if_pos (isZero_rat.2 rfl)]
  · have zero : n = 0 := by exact_mod_cast hn.symm
    rw [h, zero]
    rfl

end Datum

namespace Operand

/-- The operand is a number, a variable or an expression. -/
def isTerm : Operand ℚ → Bool
  | datum d => d.isNumeric
  | decision _ | affine _ => true
  | _ => false

/-- The operand is a variable or an expression. -/
def isLinear (o : Operand ℚ) : Bool := o.expression?.isSome

/-- The number that an operand is under an assignment of the variables. -/
def amount (σ : Variable → ℚ) : Operand ℚ → ℚ
  | datum d => d.amount
  | decision v => σ v
  | affine e => e.eval σ
  | _ => 0

/-- The operand is a number, a variable or an expression, of which kind, and what its value is under
every assignment. -/
structure Means (o : Operand ℚ) (linear : Bool) (value : (Variable → ℚ) → ℚ) : Prop where
  term : o.isTerm = true
  linear : o.isLinear = linear
  amount : ∀ σ, o.amount σ = value σ

variable {describe : ConstraintHandle → Misfit ℚ} {x y : Operand ℚ} {l k : Bool}
  {v w : (Variable → ℚ) → ℚ}

theorem means_datum {d : Datum ℚ} {q : ℚ} (h : d.Is q) : (datum d).Means false fun _ => q :=
  ⟨h.numeric, rfl, fun _ => h.amount⟩

theorem means_affine {e : Affine ℚ} (h : ∀ σ, e.eval σ = v σ) : (affine e).Means true v :=
    ⟨rfl, rfl, h⟩

/-- What means something is a number or gives an expression. -/
theorem Means.cases (h : x.Means l v) :
    (∃ d q, x = datum d ∧ d.Is q ∧ l = false ∧ v = fun _ => q) ∨
      ∃ e, x.expression? = some e ∧ l = true ∧ ∀ σ, e.eval σ = v σ := by
  obtain ⟨hterm, rfl, hamount⟩ := h
  cases x with
  | datum d => exact .inl ⟨d, d.amount, rfl, ⟨hterm, rfl⟩, rfl, funext fun σ => (hamount σ).symm⟩
  | decision u =>
    exact .inr ⟨Affine.ofVariable u, rfl, rfl,
      fun σ => (Affine.eval_ofVariable σ u).trans (hamount σ)⟩
  | affine e => exact .inr ⟨e, rfl, rfl, hamount⟩
  | _ => cases hterm

theorem Means.toAffine (h : x.Means l v) (describe : ConstraintHandle → Misfit ℚ) :
    ∃ e, x.toAffine describe = .ok e ∧ ∀ σ, e.eval σ = v σ := by
  obtain ⟨hterm, -, hamount⟩ := h
  cases x with
  | datum d =>
    have number : d.Is d.amount := ⟨hterm, rfl⟩
    refine ⟨Affine.ofScalar d.amount, ?_, fun σ => (Affine.eval_ofScalar σ _).trans (hamount σ)⟩
    rw [Operand.toAffine, if_pos number.numeric, number.asNumber]
    rfl
  | decision u =>
    exact ⟨Affine.ofVariable u, rfl, fun σ => (Affine.eval_ofVariable σ u).trans (hamount σ)⟩
  | affine e => exact ⟨e, rfl, hamount⟩
  | _ => cases hterm

theorem Means.add (hx : x.Means l v) (hy : y.Means k w) :
    ∃ o, x.add describe y = .ok o ∧ o.Means (l || k) (v + w) := by
  rcases hx.cases with ⟨d, q, rfl, hd, rfl, rfl⟩ | ⟨e, he, rfl, hev⟩
  · rcases hy.cases with ⟨d', r, rfl, hd', rfl, rfl⟩ | ⟨f, hf, rfl, hfw⟩
    · obtain ⟨sum, hsum, is⟩ := hd.add hd'
      exact ⟨datum sum, congrArg (Except.map datum) hsum, means_datum is⟩
    · obtain ⟨e, he, hev⟩ := hx.toAffine describe
      refine ⟨affine (f.add e), ?_, means_affine fun σ => ?_⟩
      · unfold Operand.add
        rw [hf, he]
        rfl
      · rw [Affine.eval_add, hev, hfw, add_comm]
        rfl
  · obtain ⟨f, hf, hfw⟩ := hy.toAffine describe
    refine ⟨affine (e.add f), ?_, means_affine fun σ => ?_⟩
    · unfold Operand.add
      rw [he, hf]
      rfl
    · rw [Affine.eval_add, hev, hfw]
      rfl

theorem Means.sub (hx : x.Means l v) (hy : y.Means k w) :
    ∃ o, x.sub describe y = .ok o ∧ o.Means (l || k) (v - w) := by
  rcases hx.cases with ⟨d, q, rfl, hd, rfl, rfl⟩ | ⟨e, he, rfl, hev⟩
  · rcases hy.cases with ⟨d', r, rfl, hd', rfl, rfl⟩ | ⟨f, hf, rfl, hfw⟩
    · obtain ⟨difference, hdifference, is⟩ := hd.sub hd'
      exact ⟨datum difference, congrArg (Except.map datum) hdifference, means_datum is⟩
    · obtain ⟨e, he, hev⟩ := hx.toAffine describe
      refine ⟨affine (e.sub f), ?_, means_affine fun σ => ?_⟩
      · unfold Operand.sub
        rw [hf, he]
        rfl
      · rw [Affine.eval_sub, hev, hfw]
        rfl
  · obtain ⟨f, hf, hfw⟩ := hy.toAffine describe
    refine ⟨affine (e.sub f), ?_, means_affine fun σ => ?_⟩
    · unfold Operand.sub
      rw [he, hf]
      rfl
    · rw [Affine.eval_sub, hev, hfw]
      rfl

theorem factor_of_is {d : Datum ℚ} {q : ℚ} (h : d.Is q) : (datum d).factor = .ok q := by
  rw [factor, if_pos h.numeric, h.asNumber]

theorem factor_of_expression {e : Affine ℚ} (h : x.expression? = some e) :
    x.factor = .error .notScalable := by
  cases x <;> first | rfl | cases h

/-- A product has a value unless both factors are expressions. -/
theorem Means.mul (hx : x.Means l v) (hy : y.Means k w) (hone : ¬(l = true ∧ k = true)) :
    ∃ o, x.mul y = .ok o ∧ o.Means (l || k) (v * w) := by
  rcases hx.cases with ⟨d, q, rfl, hd, rfl, rfl⟩ | ⟨e, he, rfl, hev⟩
  · rcases hy.cases with ⟨d', r, rfl, hd', rfl, rfl⟩ | ⟨f, hf, rfl, hfw⟩
    · obtain ⟨product, hproduct, is⟩ := hd.mul hd'
      exact ⟨datum product, congrArg (Except.map datum) hproduct, means_datum is⟩
    · refine ⟨affine (f.scale q), ?_, means_affine fun σ => ?_⟩
      · unfold Operand.mul
        rw [hf, factor_of_is hd]
        rfl
      · rw [Affine.eval_scale, hfw, mul_comm]
        rfl
  · rcases hy.cases with ⟨d', r, rfl, hd', rfl, rfl⟩ | ⟨f, hf, rfl, hfw⟩
    · refine ⟨affine (e.scale r), ?_, means_affine fun σ => ?_⟩
      · unfold Operand.mul
        rw [he, factor_of_is hd']
        rfl
      · rw [Affine.eval_scale, hev]
        rfl
    · exact absurd ⟨rfl, rfl⟩ hone

theorem Means.mul_expressions (hx : x.Means true v) (hy : y.Means true w) :
    x.mul y = .error .notScalable := by
  obtain ⟨_, _, -, -, hl, -⟩ | ⟨e, he, -, -⟩ := hx.cases
  · cases hl
  obtain ⟨_, _, -, -, hk, -⟩ | ⟨f, hf, -, -⟩ := hy.cases
  · cases hk
  unfold Operand.mul
  rw [he, factor_of_expression hf]
  rfl

theorem Means.neg (hx : x.Means l v) : ∃ o, x.neg = .ok o ∧ o.Means l (-v) := by
  rcases hx.cases with ⟨d, q, rfl, hd, rfl, rfl⟩ | ⟨e, he, rfl, hev⟩
  · obtain ⟨negative, hnegative, is⟩ := hd.neg
    exact ⟨datum negative, congrArg (Except.map datum) hnegative, means_datum is⟩
  · refine ⟨affine e.neg, ?_, means_affine fun σ => ?_⟩
    · unfold Operand.neg
      rw [he]
    · rw [Affine.eval_neg, hev]
      rfl

theorem reciprocal_of_is {d : Datum ℚ} {r : ℚ} (h : d.Is r) :
    (datum d).reciprocal = if r = 0 then .error .divisionByZero else .ok (1 / r) := by
  rw [reciprocal, h.asNumber]
  exact ite_congr (propext Datum.isZero_rat) (fun _ => rfl) fun _ => rfl

theorem reciprocal_of_expression {e : Affine ℚ} (h : x.expression? = some e) :
    x.reciprocal = .error .wrongKind := by
  cases x <;> first | rfl | cases h

/-- A quotient by a number other than zero has a value. -/
theorem Means.div (hx : x.Means l v) (hy : y.Means false w) (hw : w ≠ 0) :
    ∃ o, x.div y = .ok o ∧ o.Means l (v / w) := by
  obtain ⟨d', r, rfl, hd', -, rfl⟩ | ⟨_, -, hk, -⟩ := hy.cases
  · have hr : r ≠ 0 := fun hr => hw (funext fun _ => hr)
    rcases hx.cases with ⟨d, q, rfl, hd, rfl, rfl⟩ | ⟨e, he, rfl, hev⟩
    · obtain ⟨quotient, hquotient, is⟩ := hd.div hd' hr
      exact ⟨datum quotient, congrArg (Except.map datum) hquotient, means_datum is⟩
    · have reciprocal := (reciprocal_of_is hd').trans (if_neg hr)
      refine ⟨affine (e.scale (1 / r)), ?_, means_affine fun σ => ?_⟩
      · unfold Operand.div
        rw [he, reciprocal]
        rfl
      · rw [Affine.eval_scale, hev, mul_one_div]
        rfl
  · cases hk

/-- Nothing is divided by an expression or by zero. -/
theorem Means.div_fails (hx : x.Means l v) (hy : y.Means k w) (h : k = true ∨ w = 0) :
    ∃ e, x.div y = .error e := by
  rcases hy.cases with ⟨d', r, rfl, hd', rfl, rfl⟩ | ⟨f, hf, rfl, -⟩
  · have hr : r = 0 := congrFun (h.resolve_left Bool.false_ne_true) fun _ => 0
    subst hr
    rcases hx.cases with ⟨d, q, rfl, hd, rfl, rfl⟩ | ⟨e, he, rfl, -⟩
    · exact ⟨_, congrArg (Except.map datum) (hd.div_zero hd')⟩
    · refine ⟨.divisionByZero, ?_⟩
      unfold Operand.div
      rw [he, reciprocal_of_is hd']
      rfl
  · refine ⟨.wrongKind, ?_⟩
    rcases hx.cases with ⟨d, q, rfl, hd, rfl, rfl⟩ | ⟨e, he, rfl, -⟩
    · cases y <;> first | rfl | cases hf
    · unfold Operand.div
      rw [he, reciprocal_of_expression hf]
      rfl

end Operand

namespace Formula

/-- What a leaf stands for; null if it stands for nothing. -/
def leaf (scope : Scope ℚ) (f : Formula ℚ) : Operand ℚ :=
    (f.eval scope).toOption.getD (.datum .null)

/-- All leaves are numbers, variables and expressions. -/
def isTree (scope : Scope ℚ) : Formula ℚ → Bool
  | neg a => isTree scope a
  | add a b | sub a b | mul a b | div a b => isTree scope a && isTree scope b
  | f => (leaf scope f).isTerm

/-- Some leaf is a variable or an expression. -/
def isLinear (scope : Scope ℚ) : Formula ℚ → Bool
  | neg a => isLinear scope a
  | add a b | sub a b | mul a b | div a b => isLinear scope a || isLinear scope b
  | f => (leaf scope f).isLinear

/-- The value by ordinary arithmetic under an assignment of the variables. -/
def value (scope : Scope ℚ) (f : Formula ℚ) (σ : Variable → ℚ) : ℚ :=
  match f with
  | neg a => -value scope a σ
  | add a b => value scope a σ + value scope b σ
  | sub a b => value scope a σ - value scope b σ
  | mul a b => value scope a σ * value scope b σ
  | div a b => value scope a σ / value scope b σ
  | f => (leaf scope f).amount σ

/-- Some product has two factors with variables, or some divisor has variables or is zero. -/
def Breaks (scope : Scope ℚ) : Formula ℚ → Prop
  | neg a => Breaks scope a
  | add a b | sub a b => Breaks scope a ∨ Breaks scope b
  | mul a b => Breaks scope a ∨ Breaks scope b ∨ isLinear scope a = true ∧ isLinear scope b = true
  | div a b => Breaks scope a ∨ Breaks scope b ∨ isLinear scope b = true ∨ value scope b = 0
  | _ => False

variable {scope : Scope ℚ} {f a b : Formula ℚ}

/-- The formula breaks and fails, or it does neither and its answer means what the formula says. -/
def Settled (scope : Scope ℚ) (f : Formula ℚ) : Prop :=
  (f.Breaks scope ∧ ∃ e, f.eval scope = .error e) ∨
    ¬f.Breaks scope ∧ ∃ o, f.eval scope = .ok o ∧ o.Means (f.isLinear scope) (f.value scope)

theorem eval_leaf (h : (leaf scope f).isTerm = true) : f.eval scope = .ok (leaf scope f) := by
  unfold leaf at h ⊢
  cases hf : f.eval scope with
  | error e =>
    rw [hf] at h
    cases h
  | ok o => rfl

/-- An operation on two formulas, with the condition under which it breaks by itself. -/
theorem Settled.binary {op : Operand ℚ → Operand ℚ → Except (Failure ℚ) (Operand ℚ)} {C : Prop}
    (ha : a.Settled scope) (hb : b.Settled scope)
    (heval : f.eval scope = do
      let x ← a.eval scope
      op x (← b.eval scope))
    (hbreaks : f.Breaks scope ↔ a.Breaks scope ∨ b.Breaks scope ∨ C)
    (hop : ∀ x y,
      x.Means (a.isLinear scope) (a.value scope) → y.Means (b.isLinear scope) (b.value scope) →
      C ∧ (∃ e, op x y = .error e) ∨ ¬C ∧ ∃ o, op x y = .ok o ∧
      o.Means (f.isLinear scope) (f.value scope)) :
    f.Settled scope := by
  unfold Settled
  rw [heval, hbreaks]
  obtain ⟨hbroken, e, he⟩ | ⟨hwhole, x, hx, hxv⟩ := ha
  · rw [he]
    exact .inl ⟨.inl hbroken, e, rfl⟩
  obtain ⟨hbroken, e, he⟩ | ⟨hwhole', y, hy, hyv⟩ := hb
  · rw [hx, he]
    exact .inl ⟨.inr (.inl hbroken), e, rfl⟩
  rw [hx, hy]
  obtain ⟨hC, hfails⟩ | ⟨hC, hanswers⟩ := hop x y hxv hyv
  · exact .inl ⟨.inr (.inr hC), hfails⟩
  · exact .inr ⟨not_or.2 ⟨hwhole, not_or.2 ⟨hwhole', hC⟩⟩, hanswers⟩

theorem settled_leaf (hbreaks : ¬f.Breaks scope)
    (hlinear : f.isLinear scope = (leaf scope f).isLinear)
    (hvalue : ∀ σ, f.value scope σ = (leaf scope f).amount σ)
    (h : (leaf scope f).isTerm = true) : f.Settled scope :=
  .inr ⟨hbreaks, _, eval_leaf h, h, hlinear.symm, fun σ => (hvalue σ).symm⟩

/-- By induction on the formula: each operation keeps to what it says, or it is where the formula
breaks. -/
theorem settled_of_isTree (h : f.isTree scope = true) : f.Settled scope := by
  induction f with
  | datum d => exact settled_leaf id rfl (fun _ => rfl) h
  | name n => exact settled_leaf id rfl (fun _ => rfl) h
  | noise => exact settled_leaf id rfl (fun _ => rfl) h
  | component i => exact settled_leaf id rfl (fun _ => rfl) h
  | neg a ih =>
    obtain ⟨hbroken, e, he⟩ | ⟨hwhole, x, hx, hxv⟩ := ih h
    · exact .inl ⟨hbroken, e, by rw [eval, he]; rfl⟩
    · obtain ⟨o, ho, hov⟩ := hxv.neg
      exact .inr ⟨hwhole, o, by rw [eval, hx]; exact ho, hov⟩
  | add a b iha ihb =>
    obtain ⟨ha, hb⟩ := Bool.and_eq_true_iff.1 h
    exact (iha ha).binary (ihb hb) rfl (or_congr_right (or_iff_left id).symm) fun x y hx hy =>
      .inr ⟨id, hx.add hy⟩
  | sub a b iha ihb =>
    obtain ⟨ha, hb⟩ := Bool.and_eq_true_iff.1 h
    exact (iha ha).binary (ihb hb) rfl (or_congr_right (or_iff_left id).symm) fun x y hx hy =>
      .inr ⟨id, hx.sub hy⟩
  | mul a b iha ihb =>
    obtain ⟨ha, hb⟩ := Bool.and_eq_true_iff.1 h
    refine (iha ha).binary (ihb hb) rfl Iff.rfl fun x y hx hy => ?_
    by_cases hboth : a.isLinear scope = true ∧ b.isLinear scope = true
    · exact .inl ⟨hboth, _, (hboth.1 ▸ hx).mul_expressions (hboth.2 ▸ hy)⟩
    · exact .inr ⟨hboth, hx.mul hy hboth⟩
  | div a b iha ihb =>
    obtain ⟨ha, hb⟩ := Bool.and_eq_true_iff.1 h
    refine (iha ha).binary (ihb hb) rfl Iff.rfl fun x y hx hy => ?_
    by_cases hdivisor : b.isLinear scope = true ∨ b.value scope = 0
    · exact .inl ⟨hdivisor, hx.div_fails hy hdivisor⟩
    · obtain ⟨hnumber, hzero⟩ := not_or.1 hdivisor
      have number := Bool.eq_false_iff.2 hnumber
      obtain ⟨o, ho, hov⟩ := hx.div (number ▸ hy) hzero
      refine .inr ⟨hdivisor, o, ho, hov.term, hov.linear.trans ?_, hov.amount⟩
      rw [isLinear, number, Bool.or_false]

end Formula

/-! ### The value of a result at a point -/

/-- The value of an expression at the point of the last solve is its value there. -/
theorem Subproblem.valueOf_eq_eval {p : Subproblem ℚ} {point : List ℚ} (hp : p.point? = some point)
    {e : Affine ℚ} {x : ℚ} (h : p.valueOf e = .ok x) :
    x = e.eval fun v => point.getD v.index 0 := by
  unfold valueOf at h
  rw [hp] at h
  obtain ⟨terms, hterms, h⟩ := Except.bind_eq_ok.1 h
  cases h
  have each : terms.map id = e.terms.entries.map fun t => t.2 * point.getD t.1.index 0 := by
    refine Except.map_eq_of_mapM hterms fun t _ y hy => ?_
    obtain ⟨i, hi, hy⟩ := Except.bind_eq_ok.1 hy
    obtain ⟨-, rfl⟩ := position_eq_ok hi
    split at hy
    next z hz =>
      cases hy
      rw [List.getD_eq_getElem?_getD, hz]
      rfl
    next => cases hy
  rw [List.map_id] at each
  rw [each]
  rfl

theorem Subproblem.value_of_read {p : Subproblem ℚ} {point : List ℚ} (hp : p.point? = some point)
    {describe : ConstraintHandle → Misfit ℚ} {o : Operand ℚ} {l : Bool} {v : (Variable → ℚ) → ℚ}
    (h : o.Means l v) {x : ℚ} (hread : p.read describe o = .ok (.number x)) :
    x = v fun u => point.getD u.index 0 := by
  obtain ⟨e, he, hev⟩ := h.toAffine describe
  have notState : ¬∃ s, o = .state s := by
    rintro ⟨s, rfl⟩
    cases h.term
  rw [read_eq notState, if_neg (by simp [hp]), he] at hread
  obtain ⟨_, ⟨⟩, hread⟩ := Except.bind_eq_ok.1 hread
  obtain ⟨y, hy, hread⟩ := Except.bind_eq_ok.1 hread
  cases hread
  rw [valueOf_eq_eval hp hy, hev]

/-- A formula over numbers, variables and expressions fails iff some product has two factors with
variables, or some divisor has variables or is zero. Otherwise its answer is a number, a variable or
an expression with the value of the formula by ordinary arithmetic under every assignment, and so at
the point of a solve. In any case the variables and expressions of a workspace stay what they
are. -/
theorem Formula.eval_of_isTree {scope : Scope ℚ} {f : Formula ℚ} (h : f.isTree scope = true) :
    ((∃ e, f.eval scope = .error e) ↔ f.Breaks scope) ∧
      (∀ o, f.eval scope = .ok o → o.isTerm = true ∧ (∀ σ, o.amount σ = f.value scope σ) ∧
        ∀ p : Subproblem ℚ, ∀ point x, p.point? = some point →
          p.read scope.describe o = .ok (.number x) →
          x = f.value scope fun v => point.getD v.index 0) ∧
      ∀ w : Workspace ℚ, (Workspace.evaluate f).final w = w := by
  refine ⟨?_, fun o ho => ?_, fun w => ?_⟩
  · obtain ⟨hbroken, hfails⟩ | ⟨hwhole, o, ho, -⟩ := settled_of_isTree h
    · exact iff_of_true hfails hbroken
    · refine iff_of_false ?_ hwhole
      rintro ⟨e, he⟩
      cases ho.symm.trans he
  · obtain ⟨-, e, he⟩ | ⟨-, o', ho', means⟩ := settled_of_isTree h
    · cases ho.symm.trans he
    · cases ho.symm.trans ho'
      exact ⟨means.term, means.amount, fun p point x hp hread => p.value_of_read hp means hread⟩
  · unfold Action.final Workspace.evaluate
    cases hf : f.eval w.scope with
    | ok o => simp only [Action.get_bind_eq, hf]; rfl
    | error e => simp only [Action.get_bind_eq, hf]; rfl

namespace Formula

/-- Two variables, and noise that is the number three. -/
def twoVariables : Scope ℚ where
  lookup n := .ok (.decision ⟨0, if n == .text "x" then 0 else 1, .position⟩)
  describe _ := .datum .null
  noise := .int 3

/-- The formula `(noise - x) / 2 + (y + x) * noise`, in which a variable comes twice. -/
def mixedFormula : Formula ℚ :=
  add (div (sub noise (name "x")) (datum (.int 2))) (mul (add (name "y") (name "x")) noise)

theorem value_of_mixedFormula : ∃ o, mixedFormula.eval twoVariables = .ok o ∧
    ∀ σ, o.amount σ =
      (3 - σ ⟨0, 0, .position⟩) / 2 + (σ ⟨0, 1, .position⟩ + σ ⟨0, 0, .position⟩) * 3 := by
  have check : (mixedFormula.eval twoVariables).toBool = true := by decide +kernel
  obtain ⟨o, ho⟩ := Except.exists_of_toBool check
  have tree : mixedFormula.isTree twoVariables = true := by decide +kernel
  obtain ⟨-, means, -⟩ := eval_of_isTree tree
  exact ⟨o, ho, (means o ho).2.1⟩

-- an expression whose value is always zero is no number
example : (mul (sub (name "x") (name "x")) (name "y")).eval twoVariables = .error .notScalable :=
    rfl

end Formula

end Multistage
