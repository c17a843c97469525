import Multistage.Proofs.Linear.Assembly
import Multistage.Proofs.Linear.Sensitivity

/-!
# Constraints that relate two expressions

A constraint is kept as coefficients by position and a right hand side. It holds at a point iff the
expressions that it was made of are related there, as long as different variables of them have
different positions.

## Main definitions

- `Affine.Separated`: different variables have different positions.

## Main statements

- `Subproblem.excess_constraintOf`, `Subproblem.holds_constraintOf`: a constraint holds where its
  expressions are related.
-/

namespace Multistage

namespace Affine

variable {e f : Affine ℚ} {v : Variable}

theorem distinct_add (he : e.terms.Distinct) : (e.add f).terms.Distinct := by
  have folded : ∀ (es : List (Variable × ℚ)) (terms : Dict Variable ℚ), terms.Distinct →
      (es.foldl (fun terms t => addTerm terms t.1 t.2) terms).Distinct := by
    intro es
    induction es with
    | nil => exact fun _ h => h
    | cons t rest ih => exact fun terms h => ih _ h.insert
  exact folded f.terms.entries e.terms he

/-- The variables of an expression are listed once, and different ones have different positions. -/
structure Separated (e : Affine ℚ) : Prop where
  distinct : e.terms.Distinct
  injective : ∀ u ∈ e.terms.keys, ∀ v ∈ e.terms.keys, u.index = v.index → u = v

/-- The terms of such an expression have different positions. -/
theorem Separated.distinct_indices (h : e.Separated) :
    (⟨e.terms.entries.map fun t => (t.1.index, t.2)⟩ : Dict ℕ ℚ).Distinct := by
  refine List.pairwise_map.2 (h.distinct.imp_of_mem fun {s t} hs ht hne => ?_)
  have hne : s.1 ≠ t.1 := by simpa using hne
  simpa using fun hi =>
    hne (h.injective s.1 (List.mem_map_of_mem hs) t.1 (List.mem_map_of_mem ht) hi)

end Affine

namespace Subproblem

variable {p : Subproblem ℚ} {lhs rhs : Affine ℚ} {relation : Relation} {name : Name}
  {k : Constraint ℚ}

theorem constraintOf_eq_ok (h : p.constraintOf lhs rhs relation name = .ok k) :
    k = ⟨Dict.ofList ((lhs.sub rhs).terms.entries.map fun t => (t.1.index, t.2)), relation,
      -(lhs.sub rhs).constant, name, true⟩ := by
  obtain ⟨coefficients, hcoefficients, h⟩ := Except.bind_eq_ok.1 h
  cases h
  have entries : coefficients = (lhs.sub rhs).terms.entries.map fun t => (t.1.index, t.2) := by
    have := Except.map_eq_of_mapM hcoefficients (k := id) (g := fun t => (t.1.index, t.2))
      fun t _ c hc => by
        obtain ⟨i, hi, rfl⟩ := Except.map_eq_ok.1 hc
        rw [(position_eq_ok hi).2]
        rfl
    rwa [List.map_id] at this
  rw [entries]

/-- What a constraint misses at a point is what its expressions differ by there. -/
theorem excess_constraintOf (h : p.constraintOf lhs rhs relation name = .ok k) {size : ℕ}
    (hseparated : (lhs.sub rhs).Separated) (hsize : ∀ v ∈ (lhs.sub rhs).terms.keys, v.index < size)
    (z : ℕ → ℝ) : k.coefficients.combination size z - k.rhs = lhs.value z - rhs.value z := by
  have split : (lhs.sub rhs).value z = (lhs.sub rhs).constant +
      (Dict.ofList ((lhs.sub rhs).terms.entries.map fun t => (t.1.index, t.2))).combination
      size z := by
    rw [Dict.combination_eq_sum hseparated.distinct_indices fun e he => ?_, List.map_map]
    · rfl
    · obtain ⟨t, ht, rfl⟩ := List.mem_map.1 he
      exact hsize t.1 (List.mem_map_of_mem ht)
  rw [constraintOf_eq_ok h, ← Affine.value_sub, split]
  push_cast
  ring

/-- A constraint holds where its expressions are related. -/
theorem holds_constraintOf (h : p.constraintOf lhs rhs relation name = .ok k) {size : ℕ}
    (hseparated : (lhs.sub rhs).Separated) (hsize : ∀ v ∈ (lhs.sub rhs).terms.keys, v.index < size)
    (z : ℕ → ℝ) : k.Holds size z ↔ relation.Holds (lhs.value z) (rhs.value z) := by
  have same : k.relation = relation := by rw [constraintOf_eq_ok h]
  rw [Constraint.Holds, same]
  exact Relation.holds_congr (excess_constraintOf h hseparated hsize z)

/-- Expressions over the variables of a subproblem can be related. -/
theorem exists_constraintOf (h : ∀ v ∈ (lhs.sub rhs).terms.keys, v.owner = p.owner) :
    ∃ k, p.constraintOf lhs rhs relation name = .ok k := by
  refine ⟨_, Except.bind_eq_ok.2
    ⟨(lhs.sub rhs).terms.entries.map fun t => (t.1.index, t.2), ?_, rfl⟩⟩
  rw [Except.mapM_eq_ok, List.forall₂_map_right_iff, List.forall₂_same]
  intro t ht
  have place : p.position t.1 = .ok t.1.index :=
    if_pos (by simpa using h t.1 (List.mem_map_of_mem ht))
  exact Except.map_eq_ok.2 ⟨t.1.index, place, rfl⟩

end Subproblem

end Multistage
