import Mathlib.Tactic.Ring
import Multistage.Cut
import Multistage.Proofs.Dict
import Multistage.Proofs.Except
import Multistage.Proofs.Risk.Mirror
import Multistage.Proofs.Twin

/-!
# Cuts of the other sense

The negative of a cut has the negative height everywhere, and it is the best of the negative cuts
where the cut was the best, since the comparison is turned round with the sense. So the counts of a
pool and the best cuts at the visited states are the same.

## Main definitions

- `Cut.mirror`, `CutPool.mirror`: negative cuts.

## Main statements

- `CutPool.mirrors_add`: a new cut does the same to both pools.
-/

namespace Multistage

/-- The negative of a cut. -/
def Cut.mirror (c : Cut ℚ) : Cut ℚ :=
  { c with intercept := -c.intercept, coefficients := c.coefficients.mapValues fun _ a => -a }

/-- The state with the negative height. -/
def VisitedState.mirror (v : VisitedState ℚ) : VisitedState ℚ :=
    { v with bestHeight := -v.bestHeight }

/-- The pool of the negative cuts. -/
def CutPool.mirror (pool : CutPool ℚ ℚ) : CutPool ℚ ℚ :=
  { pool with cuts := pool.cuts.map Cut.mirror, visited := pool.visited.map VisitedState.mirror }

theorem Cut.height_mirror (c : Cut ℚ) (state : State ℚ) :
    (c.mirror.height state : Except (Failure ℚ) ℚ) = (c.height state).map (-·) := by
  unfold height
  refine Except.bind_image (h := (-·)) ?_ fun slope _ => congrArg Except.ok ?_
  · simp only [mirror, Dict.mapValues, List.foldlM_map]
    have zero : (Quantity.zero : ℚ) = -Quantity.zero := neg_zero.symm
    rw [zero]
    refine Except.foldlM_image (h := (-·)) (fun sum e _ => ?_) Quantity.zero
    cases state.get? e.1 with
    | none => rfl
    | some x => exact congrArg Except.ok (show -sum + -e.2 * x = -(sum + e.2 * x) by ring)
  · exact show -c.intercept + -slope = -(c.intercept + slope) by ring

/-- The comparison of heights is turned round with the sense. -/
theorem Sense.improves_flip (sense : Sense) (a b : ℚ) :
    (sense.flip.improves (-a) (-b) : Except (Failure ℚ) Bool) = sense.improves a b := by
  cases sense with
  | min => exact congrArg Except.ok (decide_eq_decide.2 neg_lt_neg_iff)
  | max => exact congrArg Except.ok (decide_eq_decide.2 neg_lt_neg_iff)

namespace CutPool

open Multistage.Action (Mirrors Twin)

variable {sense : Sense}

theorem modify_mirror (cuts : List (Cut ℚ)) (i : ℕ) (difference : ℤ) :
    (cuts.map Cut.mirror).modify i (fun c => { c with count := c.count + difference }) =
      (cuts.modify i fun c => { c with count := c.count + difference }).map Cut.mirror := by
  refine List.ext_getElem? fun k => ?_
  simp only [List.getElem?_modify, List.getElem?_map]
  cases cuts[k]? with
  | none => rfl
  | some c => by_cases hi : i = k <;> simp [hi, Cut.mirror]

theorem addCount_mirror (pool : CutPool ℚ ℚ) (cut : ℕ) (difference : ℤ) :
    pool.mirror.addCount cut difference = (pool.addCount cut difference).mirror :=
  congrArg (CutPool.mk · _ _) (modify_mirror pool.cuts cut difference)

theorem award_mirror (pool : CutPool ℚ ℚ) (place cut : ℕ) (height : ℚ) :
    pool.mirror.award place cut (-height) = (pool.award place cut height).mirror := by
  unfold award
  have visited : pool.mirror.visited[place]? = (pool.visited[place]?).map VisitedState.mirror :=
    List.getElem?_map ..
  rw [visited]
  cases pool.visited[place]? with
  | none => rfl
  | some v =>
    simp only [Option.map_some, addCount_mirror]
    simp only [mirror, List.map_set]
    rfl

theorem mirrors_contest (cut place : ℕ) :
    Mirrors mirror id (fun _ => True) (contest (β := ℚ) sense cut place)
      (contest sense.flip cut place) := by
  refine .get_bind fun pool _ => ?_
  have cuts : pool.mirror.cuts[cut]? = (pool.cuts[cut]?).map Cut.mirror := List.getElem?_map ..
  have visited : pool.mirror.visited[place]? = (pool.visited[place]?).map VisitedState.mirror :=
    List.getElem?_map ..
  rw [cuts, visited]
  cases pool.cuts[cut]? with
  | none => exact .pure (h := id)
  | some c =>
    cases pool.visited[place]? with
    | none => exact .pure (h := id)
    | some v =>
      refine .ofExcept_bind (c.height_mirror v.state) fun height _ => ?_
      refine .ofExcept_bind (h := id)
        ((sense.improves_flip height v.bestHeight).trans (congrFun Except.map_id _).symm)
        fun better _ => ?_
      refine .ite (fun _ => ?_) fun _ => .pure (h := id)
      rw [award_mirror]
      exact fun _ _ => rfl

theorem twin_visit (cut : ℕ) (state : State ℚ) (key : StateKey ℚ) :
    Twin mirror id (fun _ => True) (fun _ => True) (visit sense cut state key)
      (visit sense.flip cut state key) := by
  refine .bind (.modify (fun _ _ => trivial) fun _ _ => rfl) fun _ _ => .bind .get fun pool _ => ?_
  have cuts : pool.mirror.cuts[cut]? = (pool.cuts[cut]?).map Cut.mirror := List.getElem?_map ..
  simp only [cuts]
  cases pool.cuts[cut]? with
  | none => exact .pure (h := id) trivial
  | some c =>
    refine .bind (.ofExcept (c.height_mirror state) fun _ _ => trivial) fun height _ => ?_
    refine .bind .get fun pool _ => ?_
    have place : pool.mirror.visited.length = pool.visited.length := List.length_map ..
    refine .bind (.modify (fun _ _ => trivial) fun pool' _ => ?_) fun _ _ =>
      .bind .get fun pool' _ => ?_
    · simp only [addCount_mirror]
      simp only [mirror, List.map_append]
      rfl
    · have count : pool'.mirror.cuts.length = pool'.cuts.length := List.length_map ..
      rw [count, place]
      exact .forM fun other _ => (mirrors_contest other _).twin

/-- A new cut at a state does to the pool of the negative cuts what it does to the pool. -/
theorem mirrors_add (c : Cut ℚ) (state given : State ℚ) :
    Mirrors mirror id (fun _ => True) (add sense c state given)
      (add sense.flip c.mirror state given) := by
  refine Twin.mirrors (R := fun _ => True) (.bind .get fun pool _ => ?_)
  have place : pool.mirror.cuts.length = pool.cuts.length := List.length_map ..
  refine .bind (.modify (fun _ _ => trivial) fun pool' _ => ?_) fun _ _ =>
    .bind .get fun pool' _ => ?_
  · simp only [mirror, List.map_append]
    rfl
  have count : pool'.mirror.visited.length = pool'.visited.length := List.length_map ..
  rw [count, place]
  refine .bind (.forM fun i _ => (mirrors_contest _ i).twin) fun _ _ => ?_
  refine .ite (fun _ => .pure (h := id) trivial) fun _ => ?_
  refine .bind (h := id) (R := fun _ => True)
    (.ofExcept (congrFun Except.map_id _).symm fun _ _ => trivial)
    fun key _ => .bind .get fun pool'' _ => ?_
  exact .ite (fun _ => twin_visit _ state key) fun _ => .pure (h := id) trivial

end CutPool

end Multistage
