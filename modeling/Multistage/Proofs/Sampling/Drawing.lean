import Mathlib.Algebra.Order.BigOperators.Group.List
import Mathlib.Algebra.Order.Ring.Rat
import Mathlib.Tactic.Linarith
import Multistage.Sampling
import Multistage.Proofs.Action
import Multistage.Proofs.Sums

/-!
# Choices by draws

A draw chooses a position by weights, and thereby an edge or the end of a walk, or a noise term. It
also chooses a number below another one.

## Main definitions

- `Decisive`: the draw only chooses positive weights.
- `Edge.drawn`, `Node.drawnNoise`: what a draw chooses.

## Main statements

- `decisive_of_nonneg`: in exact arithmetic every draw is decisive that is not negative.
- `chooseEdge_eq`, `chooseNoise_eq`: the choices in terms of the next draw.
- `chooseBelow_ends`: a number that is chosen is below the other one.
-/

namespace Multistage

variable {α : Type} [Scalar α]

/-- Whatever weights the draw chooses from, if one can, it chooses a positive one. -/
def Decisive (u : α) : Prop :=
  ∀ weights, validWeights weights = true → ∃ w, weights[indexOfDraw weights u]? = some w ∧ 0 < w

/-- The weights of the edges and of the end of the walk. -/
def Edge.weights (edges : List (Edge α)) : List α :=
  edges.map (·.probability) ++ [missingMass (edges.map (·.probability))]

/-- The edge that a draw chooses, or none if the walk stops. -/
def Edge.drawn (edges : List (Edge α)) (u : α) : Option (Edge α) :=
    edges[indexOfDraw (weights edges) u]?

/-- The weights of the noise terms of a node. -/
def Node.noiseWeights (n : Node α) : List α := n.stage.noise.map (·.probability)

/-- The noise term that a draw chooses. -/
def Node.drawnNoise (n : Node α) (u : α) : Option (NoiseTerm α) :=
  n.stage.noise[indexOfDraw n.noiseWeights u]?

/-! ### Exact arithmetic -/

/-- The first position at which the running sum exceeds the target is that of a positive weight. -/
theorem pos_of_firstAbove {target : ℚ} {weights : List ℚ} {sum : ℚ} {position i : ℕ}
    (hsum : sum ≤ target) (h : firstAbove target weights sum position = some i) :
    ∃ k w, i = position + k ∧ weights[k]? = some w ∧ 0 < w := by
  induction weights generalizing sum position with
  | nil => cases h
  | cons w rest ih =>
    rw [firstAbove] at h
    split at h
    next habove =>
      cases h
      exact ⟨0, w, rfl, rfl, by linarith⟩
    next hbelow =>
      obtain ⟨k, v, rfl, hv, hpos⟩ := ih (not_lt.1 hbelow) h
      exact ⟨k + 1, v, by omega, hv, hpos⟩

theorem pos_of_lastPositive {weights : List ℚ} (h : ∃ w ∈ weights, 0 < w) :
    ∃ w, weights[lastPositive weights]? = some w ∧ 0 < w := by
  obtain ⟨w, hw, hpos⟩ := h
  obtain ⟨k, hk⟩ := List.mem_iff_getElem?.1 hw
  have mem : (w, k) ∈ weights.zipIdx.filter fun e => 0 < e.1 :=
    List.mem_filter.2 ⟨List.mem_zipIdx_iff_getElem?.2 hk, by simpa using hpos⟩
  obtain ⟨last, hlast⟩ :=
    Option.isSome_iff_exists.1 (List.getLast?_isSome.2 (List.ne_nil_of_mem mem))
  obtain ⟨hin, hlastpos⟩ := List.mem_filter.1 (List.mem_of_getLast? hlast)
  refine ⟨last.1, ?_, by simpa using hlastpos⟩
  unfold lastPositive
  rw [hlast]
  exact List.mem_zipIdx_iff_getElem?.1 hin

/-- In exact arithmetic every draw is decisive that is not negative. -/
theorem decisive_of_nonneg {u : ℚ} (hu : 0 ≤ u) : Decisive u := by
  intro weights hvalid
  obtain ⟨hweights, hsum⟩ := Bool.and_eq_true_iff.1 hvalid
  have total : 0 < Scalar.sum weights := by simpa using hsum
  unfold indexOfDraw
  cases h : firstAbove (u * Scalar.sum weights) weights 0 0 with
  | some i =>
    obtain ⟨k, w, rfl, hw, hpos⟩ := pos_of_firstAbove (mul_nonneg hu total.le) h
    rw [Nat.zero_add, Option.getD_some]
    exact ⟨w, hw, hpos⟩
  | none =>
    refine pos_of_lastPositive ?_
    by_contra hnone
    have bounded :=
      List.sum_le_card_nsmul weights 0 fun w hw => not_lt.1 fun hpos => hnone ⟨w, hw, hpos⟩
    rw [nsmul_zero, ← Scalar.sum_eq_listSum] at bounded
    exact absurd total (not_lt.2 bounded)

/-! ### What is chosen -/

/-- The number that a draw chooses is below the other one. -/
theorem numberOfDraw_lt {n : ℕ} (hn : 0 < n) (u : α) : numberOfDraw n u < n := by
  have := List.length_filter_le (fun k => decide (Scalar.ofNat (k + 1) ≤ u * Scalar.ofNat n))
    (List.range (n - 1))
  rw [List.length_range] at this
  unfold numberOfDraw
  omega

/-- A number below another one is drawn if there is a draw. -/
theorem chooseBelow_ends {n : ℕ} (hn : 0 < n) (draws : Draws α) :
    Action.Ends (fun i _ => i < n) (fun e _ => e = .drawsExhausted) (chooseBelow n draws) := by
  cases draws with
  | nil => exact rfl
  | cons u rest => exact numberOfDraw_lt hn u

/-- What is chosen depends on the next draw only, if there are weights to choose from. -/
theorem chooseIndex_eq (weights : List α) (draws : List α) :
    chooseIndex weights draws =
      if validWeights weights then
        match draws with
        | [] => .error .drawsExhausted []
        | u :: rest => .ok (indexOfDraw weights u) rest
      else .error .invalidWeights draws := by
  unfold chooseIndex
  cases hvalid : validWeights weights with
  | false => rfl
  | true =>
    cases draws with
    | nil => rfl
    | cons u rest => rfl

theorem chooseEdge_eq (edges : List (Edge α)) (draws : List α) :
    chooseEdge edges draws =
      if validWeights (Edge.weights edges) then
        match draws with
        | [] => .error .drawsExhausted []
        | u :: rest => .ok ((Edge.drawn edges u).map (·.child)) rest
      else .error .invalidWeights draws := by
  -- the position after the last edge stands for the end of the walk
  have chosen :
      ∀ i, ((if i == (edges.map (·.probability)).length then none else some i).bind fun i =>
      edges[i]?.map (·.child)) = edges[i]?.map (·.child) := by
    intro i
    split
    next hi =>
      rw [List.length_map, beq_iff_eq] at hi
      rw [List.getElem?_eq_none hi.ge]
      rfl
    next => rfl
  unfold chooseEdge chooseCategory
  show EStateM.bind (EStateM.bind (chooseIndex (Edge.weights edges)) _) _ draws = _
  rw [EStateM.bind, EStateM.bind, chooseIndex_eq]
  cases validWeights (Edge.weights edges) with
  | false => rfl
  | true =>
    cases draws with
    | nil => rfl
    | cons u rest =>
      exact congrArg (EStateM.Result.ok · rest) (chosen (indexOfDraw (Edge.weights edges) u))

theorem chooseNoise_eq (n : Node α) (draws : List α) :
    chooseNoise n draws =
      if validWeights n.noiseWeights then
        match draws with
        | [] => .error .drawsExhausted []
        | u :: rest =>
          match n.drawnNoise u with
          | some t => .ok t.term rest
          | none => .error .indexOutOfRange rest
      else .error .invalidWeights draws := by
  unfold chooseNoise
  show EStateM.bind (chooseIndex n.noiseWeights) _ draws = _
  rw [EStateM.bind, chooseIndex_eq]
  cases validWeights n.noiseWeights with
  | false => rfl
  | true =>
    cases draws with
    | nil => rfl
    | cons u rest =>
      show Action.ofOption _ ((n.drawnNoise u).map (·.term)) rest = match n.drawnNoise u with
        | some t => .ok t.term rest
        | none => .error .indexOutOfRange rest
      cases n.drawnNoise u with
      | none => rfl
      | some t => rfl

/-- A decisive draw goes on along an edge of positive probability. -/
theorem Edge.pos_of_drawn {edges : List (Edge α)} {u : α} (hu : Decisive u)
    (hvalid : validWeights (weights edges) = true) {e : Edge α} (h : drawn edges u = some e) :
    e ∈ edges ∧ 0 < e.probability := by
  obtain ⟨w, hw, hpos⟩ := hu _ hvalid
  refine ⟨List.mem_of_getElem? h, ?_⟩
  have inside : ∀ i : ℕ, edges[i]? = some e → (weights edges)[i]? = some e.probability := by
    intro i hi
    rw [weights, List.getElem?_append_left, List.getElem?_map, hi]
    · rfl
    · rw [List.length_map]
      exact (List.getElem?_eq_some_iff.1 hi).1
  rw [inside _ h] at hw
  cases hw
  exact hpos

/-- A decisive draw chooses a noise term of positive probability. -/
theorem Node.exists_drawnNoise {n : Node α} {u : α} (hu : Decisive u)
    (hvalid : validWeights n.noiseWeights = true) :
    ∃ t ∈ n.stage.noise, n.drawnNoise u = some t ∧ 0 < t.probability := by
  obtain ⟨w, hw, hpos⟩ := hu _ hvalid
  unfold noiseWeights at hw
  rw [List.getElem?_map] at hw
  obtain ⟨t, ht, rfl⟩ := Option.map_eq_some_iff.1 hw
  exact ⟨t, List.mem_of_getElem? ht, ht, hpos⟩

end Multistage
