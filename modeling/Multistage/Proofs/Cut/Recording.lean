import Multistage.Proofs.Cut.LevelOne

/-!
# What recording a cut leaves alone

A cut is recorded behind the cuts that are there. Whether the comparisons at the visited states
succeed or not, they change nothing but the counts of the cuts.

## Main statements

- `CutPool.triple_add`: the cuts of a pool to which one was added.
-/

namespace Multistage

namespace CutPool

variable {sense : Sense} {cuts : List (Cut ℚ)}

/-- Comparisons change the counts of the cuts at most. -/
theorem ensures_contest (cut place : ℕ) :
    Action.Ensures (fun pool : CutPool ℚ ℚ => pool.cuts.map Cut.uncounted = cuts)
      (contest sense cut place) fun _ => True := by
  refine .bind .get fun pool hpool => ?_
  split
  next hv =>
    refine .bind (.ofExcept fun _ _ => trivial) fun height _ => ?_
    refine .bind (.ofExcept fun _ _ => trivial) fun better _ => ?_
    refine .ite (fun _ => ?_) fun _ => .pure trivial
    refine Action.Triple.set fun _ _ => ⟨?_, trivial⟩
    exact (congrArg Frame.cuts (frame_award hv)).trans hpool
  next => exact .pure trivial

theorem ensures_visit (cut : ℕ) (x : State ℚ) (key : StateKey ℚ) :
    Action.Ensures (fun pool : CutPool ℚ ℚ => pool.cuts.map Cut.uncounted = cuts)
      (visit sense cut x key) fun _ => True := by
  refine .bind (.modify fun _ => id) fun _ _ => .bind .get fun pool _ => ?_
  split
  · exact .pure trivial
  · refine .bind (.ofExcept fun _ _ => trivial) fun height _ => .bind .get fun pool _ => ?_
    refine .bind (.modify fun pool hpool => ?_) fun _ _ => .bind .get fun pool _ => ?_
    · exact (congrArg Frame.cuts (frame_addCount pool cut 1)).trans hpool
    · exact .forM fun other _ => ensures_contest other _

/-- A cut is recorded at the end, also if it cannot be compared. -/
theorem triple_add (c : Cut ℚ) (x given : State ℚ) (pool : CutPool ℚ ℚ) :
    Action.Triple (· = pool) (add sense c x given)
      (fun _ pool' => pool'.cuts.map Cut.uncounted = pool.cuts.map Cut.uncounted ++ [c.uncounted])
      fun pool' => pool'.cuts.map Cut.uncounted = pool.cuts.map Cut.uncounted ++ [c.uncounted] := by
  let I : CutPool ℚ ℚ → Prop := fun pool' =>
    pool'.cuts.map Cut.uncounted = pool.cuts.map Cut.uncounted ++ [c.uncounted]
  have compared : ∀ place, Action.Ensures I (do
      (List.range (← get).visited.length).forM (contest sense place)
      if x.isEmpty then return ()
      let key ← Action.ofExcept (StateKey.ofState given)
      if !(← get).seen.any key.same then visit sense place x key) fun _ => True := by
    intro place
    refine .bind .get fun _ _ => .bind (.forM fun other _ => ensures_contest place other)
      fun _ _ => ?_
    refine .ite (fun _ => .pure trivial) fun _ => ?_
    refine .bind (.ofExcept fun _ _ => trivial) fun key _ => .bind .get fun _ _ => ?_
    exact .ite (fun _ => ensures_visit place x key) fun _ => .pure trivial
  refine .get_bind ?_
  rintro pool rfl
  refine .bind (.modify (Q := fun _ => I) ?_) fun _ => ?_
  · rintro pool rfl
    exact List.map_append
  · exact (compared _).consequence (fun _ => id) (fun _ _ h => h.1) fun _ => id

end CutPool

end Multistage
