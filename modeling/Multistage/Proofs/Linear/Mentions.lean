import Multistage.Linear.Formula
import Multistage.Proofs.Dict
import Multistage.Proofs.Except
import Mathlib.Data.Rat.Defs
import Mathlib.Tactic.Tauto

/-!
# What formulas mention

The value of a formula mentions only the variables and constraints that names stand for. It depends
on what names and noise stand for, and on nothing else.

## Main definitions

- `Variable.Within`, `Affine.Within`, `Operand.Within`: only the first variables and constraints of
  one subproblem are mentioned.

## Main statements

- `Formula.eval_within`: a value mentions what names stand for.
- `Formula.eval_of_describe`: a value does not depend on how constraints are described.
- `Formula.eval_congr`: nor does the lack of one depend on constraints that no name stands for.
-/

namespace Multistage

/-- The variable is one of the first of a subproblem. -/
def Variable.Within (owner count : ℕ) (v : Variable) : Prop := v.owner = owner ∧ v.index < count

/-- All variables are among the first of a subproblem. -/
def Affine.Within (owner count : ℕ) (e : Affine ℚ) : Prop :=
  ∀ v ∈ e.terms.keys, v.Within owner count

/-- What can be reached from an operand are the first variables and constraints of a subproblem. -/
def Operand.Within (owner count constraints : ℕ) : Operand ℚ → Prop
  | .decision v => v.Within owner count
  | .affine e => e.Within owner count
  | .state s => s.incoming.Within owner count ∧ s.outgoing.Within owner count
  | .constraint h => h.index < constraints
  | .datum _ => True
  | .tuple _ => True

theorem Variable.Within.mono {owner count count' : ℕ} {v : Variable} (h : v.Within owner count)
    (hle : count ≤ count') : v.Within owner count' := ⟨h.1, lt_of_lt_of_le h.2 hle⟩

theorem Operand.Within.mono {owner count count' constraints constraints' : ℕ} {o : Operand ℚ}
    (h : o.Within owner count constraints) (hle : count ≤ count')
    (hle' : constraints ≤ constraints') : o.Within owner count' constraints' := by
  cases o with
  | decision v => exact Variable.Within.mono h hle
  | affine e => exact fun v hv => (h v hv).mono hle
  | state s => exact ⟨h.1.mono hle, h.2.mono hle⟩
  | constraint k => exact lt_of_lt_of_le h hle'
  | datum d => trivial
  | tuple items => trivial

namespace Affine

variable {owner count : ℕ} {e f : Affine ℚ}

theorem within_ofVariable {v : Variable} (h : v.Within owner count) :
    (ofVariable v : Affine ℚ).Within owner count := by
  intro u hu
  rw [List.mem_singleton.1 hu]
  exact h

theorem within_ofScalar (c : ℚ) : (ofScalar c).Within owner count := nofun

/-- A term that is added is mentioned, beside those that were there. -/
theorem mem_keys_addTerm {α : Type} [Scalar α] {terms : Dict Variable α} {v u : Variable} {c : α} :
    u ∈ (addTerm terms v c).keys ↔ u = v ∨ u ∈ terms.keys := by
  rw [addTerm, Dict.keys_insert]
  split
  next hv =>
    obtain ⟨t, ht, htv⟩ := List.any_eq_true.1 hv
    have known : v ∈ terms.keys := List.mem_map.2 ⟨t, ht, eq_of_beq htv⟩
    exact ⟨.inr, fun h => h.elim (fun h => h ▸ known) id⟩
  next => rw [List.mem_append, List.mem_singleton, or_comm]

/-- A sum mentions what its summands mention. -/
theorem mem_keys_add {α : Type} [Scalar α] {e f : Affine α} {u : Variable} :
    u ∈ (e.add f).terms.keys ↔ u ∈ e.terms.keys ∨ u ∈ f.terms.keys := by
  have folded : ∀ (es : List (Variable × α)) (terms : Dict Variable α),
      u ∈ (es.foldl (fun terms t => addTerm terms t.1 t.2) terms).keys ↔
        u ∈ terms.keys ∨ u ∈ es.map (·.1) := by
    intro es
    induction es with
    | nil => simp
    | cons t rest ih =>
      intro terms
      rw [List.foldl_cons, ih, mem_keys_addTerm, List.map_cons, List.mem_cons]
      tauto
  exact folded f.terms.entries e.terms

/-- A multiple mentions what the expression mentions, also the multiple by zero. -/
theorem mem_keys_scale {α : Type} [Scalar α] {e : Affine α} {c : α} {u : Variable} :
    u ∈ (e.scale c).terms.keys ↔ u ∈ e.terms.keys := by
  rw [scale, Dict.keys_mapValues]

/-- A difference mentions what its two sides mention. -/
theorem mem_keys_sub {α : Type} [Scalar α] {e f : Affine α} {u : Variable} :
    u ∈ (e.sub f).terms.keys ↔ u ∈ e.terms.keys ∨ u ∈ f.terms.keys := by
  rw [sub, mem_keys_add, neg, mem_keys_scale]

/-- A sum of operands mentions what these mention. -/
theorem Within.add (he : e.Within owner count) (hf : f.Within owner count) :
    (e.add f).Within owner count := fun v hv => (mem_keys_add.1 hv).elim (he v) (hf v)

theorem Within.scale (he : e.Within owner count) (c : ℚ) : (e.scale c).Within owner count := by
  intro v hv
  exact he v (mem_keys_scale.1 hv)

theorem Within.neg (he : e.Within owner count) : e.neg.Within owner count := he.scale _

/-- A difference of operands mentions what these mention. -/
theorem Within.sub (he : e.Within owner count) (hf : f.Within owner count) :
    (e.sub f).Within owner count := he.add hf.neg

end Affine

namespace Operand

variable {owner count constraints : ℕ} {a b o : Operand ℚ} {e : Affine ℚ}
  {describe describe' : ConstraintHandle → Misfit ℚ}

/-! ### What operations mention -/

theorem Within.expression (h : a.Within owner count constraints) (he : a.expression? = some e) :
    e.Within owner count := by
  cases a with
  | decision v =>
    cases he
    exact Affine.within_ofVariable h
  | affine f =>
    cases he
    exact h
  | _ => cases he

/-- What an operand reads as mentions only variables that the operand mentions. -/
theorem Within.toAffine (h : a.Within owner count constraints) (he : a.toAffine describe = .ok e) :
    e.Within owner count := by
  cases a with
  | decision v =>
    cases he
    exact Affine.within_ofVariable h
  | affine f =>
    cases he
    exact h
  | datum d =>
    rw [Operand.toAffine] at he
    split at he
    · obtain ⟨c, -, rfl⟩ := Except.map_eq_ok.1 he
      exact Affine.within_ofScalar c
    · cases he
  | _ => cases he

/-- What is joined is a tuple, which mentions no variables. -/
theorem within_append (h : a.append b = .ok o) : o.Within owner count constraints := by
  unfold append at h
  split at h
  · cases h
    trivial
  · cases h

/-- What is repeated is a tuple, which mentions no variables. -/
theorem within_repeated (h : a.repeated b = .ok o) : o.Within owner count constraints := by
  unfold repeated at h
  split at h
  · obtain ⟨_, -, h⟩ := Except.bind_eq_ok.1 h
    obtain ⟨_, -, h⟩ := Except.bind_eq_ok.1 h
    cases h
    trivial
  · cases h

theorem within_map {x : Except (Failure ℚ) (Datum ℚ)} (h : x.map datum = .ok o) :
    o.Within owner count constraints := by
  obtain ⟨_, -, rfl⟩ := Except.map_eq_ok.1 h
  trivial

/-- A sum of operands mentions what these mention. -/
theorem Within.add (ha : a.Within owner count constraints) (hb : b.Within owner count constraints)
    (h : a.add describe b = .ok o) : o.Within owner count constraints := by
  unfold Operand.add at h
  split at h
  · obtain ⟨f, hf, h⟩ := Except.bind_eq_ok.1 h
    cases h
    exact (ha.expression ‹_›).add (hb.toAffine hf)
  · obtain ⟨f, hf, h⟩ := Except.bind_eq_ok.1 h
    cases h
    exact (hb.expression ‹_›).add (ha.toAffine hf)
  · exact within_map h
  · exact within_append h

/-- A difference of operands mentions what these mention. -/
theorem Within.sub (ha : a.Within owner count constraints) (hb : b.Within owner count constraints)
    (h : a.sub describe b = .ok o) : o.Within owner count constraints := by
  unfold Operand.sub at h
  split at h
  · obtain ⟨f, hf, h⟩ := Except.bind_eq_ok.1 h
    cases h
    exact (ha.expression ‹_›).sub (hb.toAffine hf)
  · obtain ⟨f, hf, h⟩ := Except.bind_eq_ok.1 h
    cases h
    exact (ha.toAffine hf).sub (hb.expression ‹_›)
  · exact within_map h
  · cases h

/-- A product of operands mentions what these mention. -/
theorem Within.mul (ha : a.Within owner count constraints) (hb : b.Within owner count constraints)
    (h : a.mul b = .ok o) : o.Within owner count constraints := by
  unfold Operand.mul at h
  split at h
  · obtain ⟨c, -, h⟩ := Except.bind_eq_ok.1 h
    cases h
    exact (ha.expression ‹_›).scale c
  · obtain ⟨c, -, h⟩ := Except.bind_eq_ok.1 h
    cases h
    exact (hb.expression ‹_›).scale c
  · exact within_map h
  · exact within_repeated h
  · exact within_repeated h

/-- A quotient mentions what the dividend mentions. -/
theorem Within.div (ha : a.Within owner count constraints) (h : a.div b = .ok o) :
    o.Within owner count constraints := by
  unfold Operand.div at h
  split at h
  · obtain ⟨c, -, h⟩ := Except.bind_eq_ok.1 h
    cases h
    exact (ha.expression ‹_›).scale c
  · exact within_map h
  · cases h

theorem Within.neg (ha : a.Within owner count constraints) (h : a.neg = .ok o) :
    o.Within owner count constraints := by
  unfold Operand.neg at h
  split at h
  · cases h
    exact (ha.expression ‹_›).neg
  · exact within_map h
  · cases h

/-! ### What operations depend on -/

/-- An operand that is read is read with any description of misfits. -/
theorem toAffine_of_describe {α : Type} [Scalar α] {a : Operand α} {e : Affine α}
    {describe describe' : ConstraintHandle → Misfit α} (h : a.toAffine describe = .ok e) :
    a.toAffine describe' = .ok e := by
  cases a with
  | datum d =>
    rw [Operand.toAffine] at h ⊢
    split at h
    next hd => rw [if_pos hd, h]
    next => cases h
  | constraint k => cases h
  | decision v => exact h
  | affine f => exact h
  | state s => cases h
  | tuple items => cases h

/-- A sum that exists does not depend on the description of misfits. -/
theorem add_of_describe (h : a.add describe b = .ok o) : a.add describe' b = .ok o := by
  unfold Operand.add at h ⊢
  cases ha : a.expression? with
  | some e =>
    simp only [ha] at h ⊢
    obtain ⟨f, hf, h⟩ := Except.bind_eq_ok.1 h
    exact Except.bind_eq_ok.2 ⟨f, toAffine_of_describe hf, h⟩
  | none =>
    cases hb : b.expression? with
    | some f =>
      simp only [ha, hb] at h ⊢
      obtain ⟨e, he, h⟩ := Except.bind_eq_ok.1 h
      exact Except.bind_eq_ok.2 ⟨e, toAffine_of_describe he, h⟩
    | none =>
      simp only [ha, hb] at h ⊢
      cases a <;> cases b <;> exact h

/-- A difference that exists does not depend on the description of misfits. -/
theorem sub_of_describe (h : a.sub describe b = .ok o) : a.sub describe' b = .ok o := by
  unfold Operand.sub at h ⊢
  cases ha : a.expression? with
  | some e =>
    simp only [ha] at h ⊢
    obtain ⟨f, hf, h⟩ := Except.bind_eq_ok.1 h
    exact Except.bind_eq_ok.2 ⟨f, toAffine_of_describe hf, h⟩
  | none =>
    cases hb : b.expression? with
    | some f =>
      simp only [ha, hb] at h ⊢
      obtain ⟨e, he, h⟩ := Except.bind_eq_ok.1 h
      exact Except.bind_eq_ok.2 ⟨e, toAffine_of_describe he, h⟩
    | none =>
      simp only [ha, hb] at h ⊢
      cases a <;> cases b <;> exact h

/-- Only the first constraints are described. -/
theorem Within.toAffine_congr (ha : a.Within owner count constraints)
    (h : ∀ k, k.index < constraints → describe' k = describe k) :
    a.toAffine describe' = a.toAffine describe := by
  cases a with
  | constraint k => exact congrArg (fun m => Except.error (Failure.notAffine m)) (h k ha)
  | _ => rfl

/-- A sum depends on the description of constraints that there are. -/
theorem Within.add_congr (ha : a.Within owner count constraints)
    (hb : b.Within owner count constraints)
    (h : ∀ k, k.index < constraints → describe' k = describe k) :
    a.add describe' b = a.add describe b := by
  unfold Operand.add
  rw [ha.toAffine_congr h, hb.toAffine_congr h]

/-- A difference depends on the description of constraints that there are. -/
theorem Within.sub_congr (ha : a.Within owner count constraints)
    (hb : b.Within owner count constraints)
    (h : ∀ k, k.index < constraints → describe' k = describe k) :
    a.sub describe' b = a.sub describe b := by
  unfold Operand.sub
  rw [ha.toAffine_congr h, hb.toAffine_congr h]

end Operand

namespace Formula

variable {owner count constraints : ℕ} {f : Formula ℚ} {o : Operand ℚ}

/-- A value mentions what names stand for. -/
theorem eval_within {scope : Scope ℚ}
    (hscope : ∀ name o, scope.lookup name = .ok o → o.Within owner count constraints)
    (h : f.eval scope = .ok o) : o.Within owner count constraints := by
  induction f generalizing o with
  | datum d =>
    cases h
    trivial
  | name n => exact hscope _ o h
  | noise =>
    cases h
    trivial
  | component i => exact Operand.within_map h
  | neg a iha =>
    obtain ⟨x, hx, h⟩ := Except.bind_eq_ok.1 h
    exact (iha hx).neg h
  | add a b iha ihb =>
    obtain ⟨x, hx, h⟩ := Except.bind_eq_ok.1 h
    obtain ⟨y, hy, h⟩ := Except.bind_eq_ok.1 h
    exact (iha hx).add (ihb hy) h
  | sub a b iha ihb =>
    obtain ⟨x, hx, h⟩ := Except.bind_eq_ok.1 h
    obtain ⟨y, hy, h⟩ := Except.bind_eq_ok.1 h
    exact (iha hx).sub (ihb hy) h
  | mul a b iha ihb =>
    obtain ⟨x, hx, h⟩ := Except.bind_eq_ok.1 h
    obtain ⟨y, hy, h⟩ := Except.bind_eq_ok.1 h
    exact (iha hx).mul (ihb hy) h
  | div a b iha ihb =>
    obtain ⟨x, hx, h⟩ := Except.bind_eq_ok.1 h
    obtain ⟨y, hy, h⟩ := Except.bind_eq_ok.1 h
    exact (iha hx).div h

/-- A value does not depend on how constraints are described. -/
theorem eval_of_describe {lookup : Name → Except (Failure ℚ) (Operand ℚ)} {noise : Datum ℚ}
    {describe describe' : ConstraintHandle → Misfit ℚ}
    (h : f.eval ⟨lookup, describe, noise⟩ = .ok o) : f.eval ⟨lookup, describe', noise⟩ = .ok o := by
  induction f generalizing o with
  | datum d => exact h
  | name n => exact h
  | noise => exact h
  | component i => exact h
  | neg a iha =>
    obtain ⟨x, hx, h⟩ := Except.bind_eq_ok.1 h
    exact Except.bind_eq_ok.2 ⟨x, iha hx, h⟩
  | add a b iha ihb =>
    obtain ⟨x, hx, h⟩ := Except.bind_eq_ok.1 h
    obtain ⟨y, hy, h⟩ := Except.bind_eq_ok.1 h
    exact Except.bind_eq_ok.2
      ⟨x, iha hx, Except.bind_eq_ok.2 ⟨y, ihb hy, Operand.add_of_describe h⟩⟩
  | sub a b iha ihb =>
    obtain ⟨x, hx, h⟩ := Except.bind_eq_ok.1 h
    obtain ⟨y, hy, h⟩ := Except.bind_eq_ok.1 h
    exact Except.bind_eq_ok.2
      ⟨x, iha hx, Except.bind_eq_ok.2 ⟨y, ihb hy, Operand.sub_of_describe h⟩⟩
  | mul a b iha ihb =>
    obtain ⟨x, hx, h⟩ := Except.bind_eq_ok.1 h
    obtain ⟨y, hy, h⟩ := Except.bind_eq_ok.1 h
    exact Except.bind_eq_ok.2 ⟨x, iha hx, Except.bind_eq_ok.2 ⟨y, ihb hy, h⟩⟩
  | div a b iha ihb =>
    obtain ⟨x, hx, h⟩ := Except.bind_eq_ok.1 h
    obtain ⟨y, hy, h⟩ := Except.bind_eq_ok.1 h
    exact Except.bind_eq_ok.2 ⟨x, iha hx, Except.bind_eq_ok.2 ⟨y, ihb hy, h⟩⟩

/-- How later constraints are described does not matter, also if there is no value. -/
theorem eval_congr {lookup : Name → Except (Failure ℚ) (Operand ℚ)} {noise : Datum ℚ}
    {describe describe' : ConstraintHandle → Misfit ℚ}
    (hlookup : ∀ name o, lookup name = .ok o → o.Within owner count constraints)
    (h : ∀ k, k.index < constraints → describe' k = describe k) :
    f.eval ⟨lookup, describe', noise⟩ = f.eval ⟨lookup, describe, noise⟩ := by
  have within : ∀ {g : Formula ℚ} {o : Operand ℚ}, g.eval ⟨lookup, describe, noise⟩ = .ok o →
      o.Within owner count constraints := fun ho => eval_within hlookup ho
  induction f with
  | datum d => rfl
  | name n => rfl
  | noise => rfl
  | component i => rfl
  | neg a iha => exact congrArg (· >>= _) iha
  | add a b iha ihb =>
    simp only [eval, iha, ihb]
    exact Except.bind_congr fun x hx => Except.bind_congr fun y hy =>
      (within hx).add_congr (within hy) h
  | sub a b iha ihb =>
    simp only [eval, iha, ihb]
    exact Except.bind_congr fun x hx => Except.bind_congr fun y hy =>
      (within hx).sub_congr (within hy) h
  | mul a b iha ihb => simp only [eval, iha, ihb]
  | div a b iha ihb => simp only [eval, iha, ihb]

end Formula

end Multistage
