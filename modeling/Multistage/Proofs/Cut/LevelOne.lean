import Multistage.Proofs.Action
import Multistage.Proofs.Cut.Height
import Mathlib.Algebra.BigOperators.Group.List.Basic
import Mathlib.Algebra.BigOperators.Ring.Finset
import Mathlib.Algebra.Order.BigOperators.Group.Finset

/-!
# The bookkeeping of cuts

A pool moves counts from cut to cut, first while a new cut competes at the visited states, then
while all cuts compete at a new state. The counts have a closed form: the count of a cut is the
number of visited states whose best cut it is.

## Main definitions

- `Offer`: a cut together with the state that it is added for.
- `CutPool.Ledger`: best cuts and counts agree, and some pairs of a cut and a place have competed.
- `CutPool.LevelOne`: what holds of a pool to which offers were added.

## Main statements

- `CutPool.ledger_contest`: what one comparison does to the ledger.
- `CutPool.levelOne_add`: what adding a cut does to the pool.
- `CutPool.levelOne_of_offers`: offers can be added, and the pool then has the closed form.
-/

namespace Multistage

/-- A cut that is added to a pool for a state. -/
structure Offer where
  cut : Cut ℚ
  state : State ℚ

/-- The cut is fresh and over the names, and so is the state unless it is empty. -/
structure Offer.Over (names : List String) (o : Offer) : Prop where
  fresh : o.cut.count = 0
  cut_over : ∀ name ∈ o.cut.coefficients.keys, name ∈ names.map Datum.text
  state_over : o.state.isEmpty = false → o.state.Over names

namespace CutPool

/-- Best cuts and counts agree, and the best height at a place is at least as good as the heights of
the cuts that have competed there. -/
structure Ledger (names : List String) (sense : Sense) (done : ℕ → ℕ → Prop)
    (pool : CutPool ℚ ℚ) : Prop where
  cut_over : ∀ c ∈ pool.cuts, ∀ name ∈ c.coefficients.keys, name ∈ names.map Datum.text
  state_over : ∀ v ∈ pool.visited, v.state.Over names
  best : ∀ v ∈ pool.visited, ∃ c, pool.cuts[v.bestCut]? = some c ∧
    c.height v.state = .ok v.bestHeight
  count_eq : ∀ (k : ℕ) (c : Cut ℚ), pool.cuts[k]? = some c →
    c.count = ((pool.visited.countP fun v => v.bestCut == k : ℕ) : ℤ)
  settled : ∀ k place c v h, done k place → pool.cuts[k]? = some c →
    pool.visited[place]? = some v → c.height v.state = .ok h → sense.AtMost h v.bestHeight

/-- What comparisons leave alone: all of the cuts but their counts, the visited states, the keys. -/
@[ext] structure Frame where
  cuts : List (Cut ℚ)
  visited : List (State ℚ)
  seen : List (StateKey ℚ)

/-- The parts of a pool that comparisons leave alone. -/
def frame (pool : CutPool ℚ ℚ) : Frame :=
  ⟨pool.cuts.map Cut.uncounted, pool.visited.map (·.state), pool.seen⟩

variable {names : List String} {sense : Sense} {done : ℕ → ℕ → Prop} {pool : CutPool ℚ ℚ}

/-! ### Changing counts -/

theorem getElem?_addCount (pool : CutPool ℚ ℚ) (i : ℕ) (d : ℤ) (k : ℕ) :
    (pool.addCount i d).cuts[k]? =
      pool.cuts[k]?.map fun c => { c with count := c.count + if i = k then d else 0 } := by
  show (pool.cuts.modify i _)[k]? = _
  rw [List.getElem?_modify]
  by_cases h : i = k
  · simp [h]
  · simp [h]

theorem frame_addCount (pool : CutPool ℚ ℚ) (i : ℕ) (d : ℤ) :
    (pool.addCount i d).frame = pool.frame := by
  refine Frame.ext ?_ rfl rfl
  apply List.ext_getElem?
  intro k
  simp only [frame, List.getElem?_map, getElem?_addCount, Option.map_map]
  rfl

theorem length_of_frame_eq {pool' : CutPool ℚ ℚ} (h : pool'.frame = pool.frame) :
    pool'.cuts.length = pool.cuts.length := by
  have cuts := congrArg (fun f => f.cuts.length) h
  simpa [frame] using cuts

/-! ### One comparison -/

theorem award_eq {place cut : ℕ} {h : ℚ} {v : VisitedState ℚ} (hv : pool.visited[place]? = some v) :
    pool.award place cut h =
      { (pool.addCount v.bestCut (-1)).addCount cut 1 with
        visited := pool.visited.set place ⟨v.state, h, cut⟩ } := by
  unfold award
  rw [hv]
  rfl

theorem frame_award {place cut : ℕ} {h : ℚ} {v : VisitedState ℚ}
    (hv : pool.visited[place]? = some v) : (pool.award place cut h).frame = pool.frame := by
  have counts : ((pool.addCount v.bestCut (-1)).addCount cut 1).frame.cuts = pool.frame.cuts := by
    rw [frame_addCount, frame_addCount]
  rw [award_eq hv]
  refine Frame.ext ?_ ?_ rfl
  · exact counts
  · apply List.ext_getElem?
    intro i
    simp only [frame, List.getElem?_map, List.getElem?_set]
    by_cases hi : place = i
    · subst hi
      rw [if_pos rfl, hv, if_pos (List.getElem?_eq_some_iff.1 hv).1]
      rfl
    · rw [if_neg hi]

theorem getElem?_award {place cut : ℕ} {h : ℚ} {v : VisitedState ℚ}
    (hv : pool.visited[place]? = some v) (k : ℕ) :
    (pool.award place cut h).cuts[k]? = pool.cuts[k]?.map fun c =>
      { c with
        count := c.count + (if v.bestCut = k then -1 else 0) + if cut = k then 1 else 0 } := by
  rw [award_eq hv]
  show ((pool.addCount v.bestCut (-1)).addCount cut 1).cuts[k]? = _
  rw [getElem?_addCount, getElem?_addCount, Option.map_map]
  rfl

/-- A cut of a pool in which another has become the best is a cut of the pool before. -/
theorem exists_of_getElem?_award {place cut : ℕ} {h : ℚ} {v : VisitedState ℚ}
    (hv : pool.visited[place]? = some v) {k : ℕ} {c' : Cut ℚ}
    (hc : (pool.award place cut h).cuts[k]? = some c') :
    ∃ c, pool.cuts[k]? = some c ∧ c'.uncounted = c.uncounted ∧
      c'.count = c.count + (if v.bestCut = k then -1 else 0) + if cut = k then 1 else 0 := by
  rw [getElem?_award hv] at hc
  obtain ⟨c, hk, rfl⟩ := Option.map_eq_some_iff.1 hc
  exact ⟨c, hk, rfl, rfl⟩

theorem getElem?_visited_award {place cut : ℕ} {h : ℚ} {v : VisitedState ℚ}
    (hv : pool.visited[place]? = some v) (l : ℕ) :
    (pool.award place cut h).visited[l]? =
      if l = place then some ⟨v.state, h, cut⟩ else pool.visited[l]? := by
  rw [award_eq hv]
  show (pool.visited.set place _)[l]? = _
  rw [List.getElem?_set]
  by_cases hl : l = place
  · rw [if_pos hl.symm, if_pos hl, if_pos (List.getElem?_eq_some_iff.1 hv).1]
  · rw [if_neg (Ne.symm hl), if_neg hl]

namespace Ledger

/-- A cut that is as good as the best one at a place may become the best one there. -/
theorem award {place cut : ℕ} {c : Cut ℚ} {v : VisitedState ℚ} {h : ℚ}
    (L : pool.Ledger names sense done) (hc : pool.cuts[cut]? = some c)
    (hv : pool.visited[place]? = some v) (hh : c.height v.state = .ok h)
    (better : sense.AtMost v.bestHeight h) :
    (pool.award place cut h).Ledger names sense fun k l => done k l ∨ k = cut ∧ l = place := by
  have hmem : v ∈ pool.visited := List.mem_of_getElem? hv
  refine ⟨?_, ?_, ?_, ?_, ?_⟩
  · intro c' hc'
    obtain ⟨k, hk⟩ := List.getElem?_of_mem hc'
    obtain ⟨d, hd, hcd, -⟩ := exists_of_getElem?_award hv hk
    have hover := L.cut_over d (List.mem_of_getElem? hd)
    rw [← show c'.coefficients = d.coefficients from congrArg (·.coefficients) hcd] at hover
    exact hover
  · intro w hw
    obtain ⟨l, hl⟩ := List.getElem?_of_mem hw
    rw [getElem?_visited_award hv] at hl
    by_cases hp : l = place
    · rw [if_pos hp] at hl
      cases hl
      exact L.state_over v hmem
    · rw [if_neg hp] at hl
      exact L.state_over w (List.mem_of_getElem? hl)
  · intro w hw
    obtain ⟨l, hl⟩ := List.getElem?_of_mem hw
    rw [getElem?_visited_award hv] at hl
    by_cases hp : l = place
    · rw [if_pos hp] at hl
      cases hl
      refine ⟨_, by rw [getElem?_award hv, hc]; rfl, ?_⟩
      exact hh
    · rw [if_neg hp] at hl
      obtain ⟨d, hd, hheight⟩ := L.best w (List.mem_of_getElem? hl)
      refine ⟨_, by rw [getElem?_award hv, hd]; rfl, ?_⟩
      exact hheight
  · intro k c' hk
    obtain ⟨d, hd, -, hcount⟩ := exists_of_getElem?_award hv hk
    obtain ⟨hlt, hget⟩ := List.getElem?_eq_some_iff.1 hv
    have counted := L.count_eq k d hd
    have visited : (pool.award place cut h).visited = pool.visited.set place ⟨v.state, h, cut⟩ := by
      rw [award_eq hv]
    have positive : (v.bestCut == k) = true →
        0 < pool.visited.countP fun w => w.bestCut == k := fun hk =>
      List.countP_pos_iff.2 ⟨v, hmem, hk⟩
    rw [hcount, counted, visited, List.countP_set hlt, hget]
    by_cases hold : v.bestCut = k
    · have := positive (beq_iff_eq.2 hold)
      by_cases hnew : cut = k
      · simp only [hold, hnew, beq_self_eq_true, if_true]
        omega
      · simp only [hold, hnew, beq_self_eq_true, if_true, if_false, beq_eq_false_iff_ne.2 hnew,
          Bool.false_eq_true]
        omega
    · by_cases hnew : cut = k
      · simp only [hold, hnew, beq_self_eq_true, if_true, if_false, beq_eq_false_iff_ne.2 hold,
          Bool.false_eq_true]
        omega
      · simp only [hold, hnew, if_false, beq_eq_false_iff_ne.2 hold, beq_eq_false_iff_ne.2 hnew,
          Bool.false_eq_true]
        omega
  · intro k l c' w h' hdone hk hl hheight
    obtain ⟨d, hd, hcd, -⟩ := exists_of_getElem?_award hv hk
    rw [Cut.height_eq_of_uncounted_eq hcd] at hheight
    rw [getElem?_visited_award hv] at hl
    by_cases hp : l = place
    · rw [if_pos hp] at hl
      cases hl
      rcases hdone with hdone | ⟨rfl, -⟩
      · exact (L.settled k l d v h' hdone hd (hp ▸ hv) hheight).trans better
      · rw [hc] at hd
        cases hd
        rw [hh] at hheight
        cases hheight
        exact .refl sense h
    · rw [if_neg hp] at hl
      rcases hdone with hdone | ⟨-, hlp⟩
      · exact L.settled k l d w h' hdone hd hl hheight
      · exact absurd hlp hp

/-- A cut that is not better than the best one at a place has competed there. -/
theorem keep {place cut : ℕ} {c : Cut ℚ} {v : VisitedState ℚ} {h : ℚ}
    (L : pool.Ledger names sense done) (hc : pool.cuts[cut]? = some c)
    (hv : pool.visited[place]? = some v) (hh : c.height v.state = .ok h)
    (worse : sense.AtMost h v.bestHeight) :
    pool.Ledger names sense fun k l => done k l ∨ k = cut ∧ l = place := by
  refine { L with settled := ?_ }
  rintro k l c' w h' (hdone | ⟨rfl, rfl⟩) hk hl hheight
  · exact L.settled k l c' w h' hdone hk hl hheight
  · rw [hc] at hk
    cases hk
    rw [hv] at hl
    cases hl
    rw [hh] at hheight
    cases hheight
    exact worse

/-- Pairs of which one side does not exist have competed. -/
theorem extend {done' : ℕ → ℕ → Prop} (L : pool.Ledger names sense done)
    (h : ∀ k l, k < pool.cuts.length → l < pool.visited.length → done' k l → done k l) :
    pool.Ledger names sense done' := by
  refine { L with settled := ?_ }
  intro k l c v height hdone hk hl
  exact L.settled k l c v height
    (h k l (List.getElem?_eq_some_iff.1 hk).1 (List.getElem?_eq_some_iff.1 hl).1 hdone) hk hl

end Ledger

/-- One comparison: the pair has competed, and all else is as before. -/
theorem ledger_contest (names : List String) (sense : Sense) (done : ℕ → ℕ → Prop) (f : Frame)
    (cut place : ℕ) :
    Action.Triple (fun pool => pool.Ledger names sense done ∧ pool.frame = f)
      (contest sense cut place)
      (fun _ pool => pool.Ledger names sense (fun k l => done k l ∨ k = cut ∧ l = place) ∧
        pool.frame = f)
      fun _ => False := by
  refine .get_bind ?_
  rintro pool ⟨L, rfl⟩
  cases hc : pool.cuts[cut]? with
  | none =>
    refine .pure ?_
    rintro _ rfl
    refine ⟨L.extend ?_, rfl⟩
    rintro k l hk - (hdone | ⟨rfl, -⟩)
    · exact hdone
    · exact absurd (List.getElem?_eq_none_iff.1 hc) (by omega)
  | some c =>
    cases hv : pool.visited[place]? with
    | none =>
      refine .pure ?_
      rintro _ rfl
      refine ⟨L.extend ?_, rfl⟩
      rintro k l - hl (hdone | ⟨-, rfl⟩)
      · exact hdone
      · exact absurd (List.getElem?_eq_none_iff.1 hv) (by omega)
    | some v =>
      obtain ⟨h, hh, -⟩ := Cut.exists_height_of_over (L.cut_over c (List.mem_of_getElem? hc))
        (L.state_over v (List.mem_of_getElem? hv))
      obtain ⟨hi, better⟩ | ⟨hi, worse⟩ := sense.improves_cases h v.bestHeight
      · simp only [hh, hi, Action.ofExcept, pure_bind, if_true]
        refine .set ?_
        rintro _ rfl
        exact ⟨L.award hc hv hh better, frame_award hv⟩
      · simp only [hh, hi, Action.ofExcept, pure_bind, Bool.false_eq_true, if_false]
        refine .pure ?_
        rintro _ rfl
        exact ⟨L.keep hc hv hh worse, rfl⟩

/-! ### Visiting a state -/

namespace Ledger

/-- A state at which a cut is the best so far, and at which no cut has competed. -/
theorem enter {cut : ℕ} {c : Cut ℚ} {x : State ℚ} {h : ℚ}
    (L : pool.Ledger names sense fun _ _ => True) (hc : pool.cuts[cut]? = some c)
    (hx : x.Over names) (hh : c.height x = .ok h) :
    Ledger names sense (fun _ l => l < pool.visited.length)
      { pool.addCount cut 1 with visited := pool.visited ++ [⟨x, h, cut⟩] } := by
  have cut_of : ∀ {k : ℕ} {c' : Cut ℚ}, (pool.addCount cut 1).cuts[k]? = some c' →
      ∃ d, pool.cuts[k]? = some d ∧ c'.uncounted = d.uncounted ∧
        c'.count = d.count + if cut = k then 1 else 0 := by
    intro k c' hk
    rw [getElem?_addCount] at hk
    obtain ⟨d, hd, rfl⟩ := Option.map_eq_some_iff.1 hk
    exact ⟨d, hd, rfl, rfl⟩
  refine ⟨?_, ?_, ?_, ?_, ?_⟩
  · intro c' hc'
    obtain ⟨k, hk⟩ := List.getElem?_of_mem hc'
    obtain ⟨d, hd, hcd, -⟩ := cut_of hk
    have hover := L.cut_over d (List.mem_of_getElem? hd)
    rw [← show c'.coefficients = d.coefficients from congrArg (·.coefficients) hcd] at hover
    exact hover
  · intro v hv
    rcases List.mem_append.1 hv with hv | hv
    · exact L.state_over v hv
    · rw [List.mem_singleton.1 hv]
      exact hx
  · intro v hv
    rcases List.mem_append.1 hv with hv | hv
    · obtain ⟨d, hd, hheight⟩ := L.best v hv
      refine ⟨_, (getElem?_addCount pool cut 1 v.bestCut).trans (by rw [hd]; rfl), ?_⟩
      exact hheight
    · rw [List.mem_singleton.1 hv]
      refine ⟨_, (getElem?_addCount pool cut 1 cut).trans (by rw [hc]; rfl), ?_⟩
      exact hh
  · intro k c' hk
    obtain ⟨d, hd, -, hcount⟩ := cut_of hk
    rw [hcount, L.count_eq k d hd, List.countP_append, List.countP_singleton]
    by_cases hk : cut = k
    · simp [hk]
    · simp [hk]
  · intro k l c' v height hl hk hv hheight
    obtain ⟨d, hd, hcd, -⟩ := cut_of hk
    rw [Cut.height_eq_of_uncounted_eq hcd] at hheight
    have hv : pool.visited[l]? = some v := by
      rwa [List.getElem?_append_left hl] at hv
    exact L.settled k l d v height trivial hd hv hheight

end Ledger

/-- A new state is visited, and all cuts compete there. -/
theorem ledger_visit {f : Frame} {cut : ℕ} {x : State ℚ} (hx : x.Over names) (key : StateKey ℚ) :
    Action.Triple
      (fun pool => pool.Ledger names sense (fun _ _ => True) ∧ pool.frame = f ∧
        cut < pool.cuts.length)
      (visit sense cut x key)
      (fun _ pool => pool.Ledger names sense (fun _ _ => True) ∧
        pool.frame = ⟨f.cuts, f.visited ++ [x], f.seen ++ [key]⟩)
      fun _ => False := by
  refine .bind (.modify (Q := fun _ pool => pool.Ledger names sense (fun _ _ => True) ∧
    pool.frame = ⟨f.cuts, f.visited, f.seen ++ [key]⟩ ∧ cut < pool.cuts.length) ?_) fun _ =>
    .get_bind ?_
  · rintro pool ⟨L, rfl, hcut⟩
    exact ⟨⟨L.cut_over, L.state_over, L.best, L.count_eq, L.settled⟩, rfl, hcut⟩
  · rintro pool ⟨L, hframe, hcut⟩
    obtain ⟨c, hc⟩ : ∃ c, pool.cuts[cut]? = some c := ⟨_, List.getElem?_eq_getElem hcut⟩
    obtain ⟨h, hh, -⟩ := Cut.exists_height_of_over (L.cut_over c (List.mem_of_getElem? hc)) hx
    simp only [hc, hh, Action.ofExcept, pure_bind]
    refine .get_bind ?_
    rintro pool rfl
    -- all pairs at old places have competed, and those at the new place do so one after the other
    let I : ℕ → CutPool ℚ ℚ → Prop := fun n p =>
      p.Ledger names sense (fun k l => l < pool.visited.length ∨ k < n) ∧
        p.frame = ⟨f.cuts, f.visited ++ [x], f.seen ++ [key]⟩
    refine .bind (.modify (Q := fun _ p => I 0 p ∧ p.cuts.length = pool.cuts.length) ?_) fun _ =>
      .get_bind ?_
    · rintro pool rfl
      have hlength : (pool.addCount cut 1).cuts.length = pool.cuts.length :=
        length_of_frame_eq (frame_addCount pool cut 1)
      have hcuts : (pool.addCount cut 1).frame.cuts = pool.frame.cuts := by rw [frame_addCount]
      obtain ⟨hfc, hfv, hfs⟩ := Frame.ext_iff.1 hframe
      refine ⟨⟨(L.enter hc hx hh).extend ?_, Frame.ext ?_ ?_ ?_⟩, hlength⟩
      · rintro k l - - (hl | hk)
        · exact hl
        · omega
      · exact hcuts.trans hfc
      · show (pool.visited ++ [_]).map _ = f.visited ++ [x]
        rw [List.map_append, ← hfv]
        rfl
      · exact hfs
    · rintro p ⟨hp, hlength⟩
      refine ((Action.Triple.forM_range (I := I) fun k hk => ?_).consequence ?_ ?_
        fun _ => id)
      · refine (ledger_contest names sense _ _ k pool.visited.length).consequence (fun _ => id) ?_
          fun _ => id
        rintro - q ⟨hq, hqf⟩
        refine ⟨hq.extend ?_, hqf⟩
        rintro k' l - hl (hdone | hdone)
        · exact .inl (.inl hdone)
        · have hvisited := congrArg (fun f => f.visited.length) hqf
          have hbefore := congrArg (fun f => f.visited.length) hframe
          simp only [frame, List.length_map, List.length_append, List.length_singleton]
            at hvisited hbefore
          omega
      · rintro _ rfl
        exact hp
      · rintro - q ⟨hq, hqf⟩
        refine ⟨hq.extend fun k l hk _ _ => .inr ?_, hqf⟩
        have hcuts := congrArg (fun f => f.cuts.length) (hqf.trans hp.2.symm)
        simp only [frame, List.length_map] at hcuts
        omega

/-! ### Adding a cut -/

/-- The visited states are the distinct ones of the states that are not empty, each once. -/
structure Frame.Visits (states : List (State ℚ)) (f : Frame) : Prop where
  keys : List.Forall₂ (fun key x => StateKey.ofState x = .ok key) f.seen f.visited
  given : ∀ x ∈ f.visited, x ∈ states ∧ x.isEmpty = false
  visited : ∀ y ∈ states, y.isEmpty = false → ∃ x ∈ f.visited, x.entries.Perm y.entries
  distinct : f.visited.Pairwise fun x y => ¬x.entries.Perm y.entries

namespace Frame.Visits

variable {states : List (State ℚ)} {f g : Frame} {y : State ℚ}

theorem of_eq (V : f.Visits states) (hs : g.seen = f.seen) (hv : g.visited = f.visited) :
    g.Visits states :=
  ⟨by rw [hs, hv]; exact V.keys, by rw [hv]; exact V.given, by rw [hv]; exact V.visited,
    by rw [hv]; exact V.distinct⟩

theorem skip (V : f.Visits states) (hs : g.seen = f.seen) (hv : g.visited = f.visited)
    (h : y.isEmpty = false → ∃ x ∈ f.visited, x.entries.Perm y.entries) :
    g.Visits (states ++ [y]) := by
  refine ⟨by rw [hs, hv]; exact V.keys, ?_, ?_, by rw [hv]; exact V.distinct⟩
  · intro x hx
    rw [hv] at hx
    obtain ⟨hmem, hne⟩ := V.given x hx
    exact ⟨List.mem_append_left _ hmem, hne⟩
  · intro z hz hne
    rw [hv]
    rcases List.mem_append.1 hz with hz | hz
    · exact V.visited z hz hne
    · rw [List.mem_singleton.1 hz] at hne ⊢
      exact h hne

theorem push (V : f.Visits states) {key : StateKey ℚ} (hs : g.seen = f.seen ++ [key])
    (hv : g.visited = f.visited ++ [y]) (hne : y.isEmpty = false)
    (hkey : StateKey.ofState y = .ok key) (h : ∀ x ∈ f.visited, ¬x.entries.Perm y.entries) :
    g.Visits (states ++ [y]) := by
  refine ⟨?_, ?_, ?_, ?_⟩
  · rw [hs, hv]
    exact List.rel_append V.keys (.cons hkey .nil)
  · intro x hx
    rw [hv] at hx
    rcases List.mem_append.1 hx with hx | hx
    · obtain ⟨hmem, hne⟩ := V.given x hx
      exact ⟨List.mem_append_left _ hmem, hne⟩
    · rw [List.mem_singleton.1 hx]
      exact ⟨List.mem_append_right _ (List.mem_singleton_self y), hne⟩
  · intro z hz hne
    rw [hv]
    rcases List.mem_append.1 hz with hz | hz
    · obtain ⟨x, hx, hxp⟩ := V.visited z hz hne
      exact ⟨x, List.mem_append_left _ hx, hxp⟩
    · rw [List.mem_singleton.1 hz]
      exact ⟨y, List.mem_append_right _ (List.mem_singleton_self y), .refl _⟩
  · rw [hv, List.pairwise_append]
    refine ⟨V.distinct, List.pairwise_singleton _ _, ?_⟩
    intro x hx z hz
    rw [List.mem_singleton.1 hz]
    exact h x hx

end Frame.Visits

/-- A state has been seen iff a state with the same entries was visited. -/
theorem any_same_iff (hn : names.Nodup) {seen : List (StateKey ℚ)} {states : List (State ℚ)}
    (hkeys : List.Forall₂ (fun key x => StateKey.ofState x = .ok key) seen states)
    (hstates : ∀ x ∈ states, x.Over names) {y : State ℚ} {key : StateKey ℚ} (hy : y.Over names)
    (hkey : StateKey.ofState y = .ok key) :
    seen.any key.same = true ↔ ∃ x ∈ states, x.entries.Perm y.entries := by
  induction hkeys with
  | nil => simp
  | @cons k x seen states hk hkeys ih =>
    have here := StateKey.same_iff_perm hn hy (hstates x List.mem_cons_self) hkey hk
    rw [List.any_cons, Bool.or_eq_true, here, ih fun z hz => hstates z (List.mem_cons_of_mem _ hz)]
    rw [List.exists_mem_cons_iff]
    exact or_congr_left List.perm_comm

/-- A new cut is recorded before it competes. -/
theorem Ledger.record {o : Offer} (L : pool.Ledger names sense fun _ _ => True)
    (ho : o.Over names) :
    ({ pool with cuts := pool.cuts ++ [o.cut] } : CutPool ℚ ℚ).Ledger names sense
      fun k l => k < pool.cuts.length ∨ l < 0 := by
  refine ⟨?_, L.state_over, ?_, ?_, ?_⟩
  · intro c hc
    rcases List.mem_append.1 hc with hc | hc
    · exact L.cut_over c hc
    · rw [List.mem_singleton.1 hc]
      exact ho.cut_over
  · intro v hv
    obtain ⟨c, hc, hheight⟩ := L.best v hv
    exact ⟨c, by rw [List.getElem?_append_left (List.getElem?_eq_some_iff.1 hc).1, hc], hheight⟩
  · intro k c hk
    rw [List.getElem?_append] at hk
    split at hk
    · exact L.count_eq k c hk
    next hlt =>
      have hk0 : k - pool.cuts.length = 0 := by
        have := (List.getElem?_eq_some_iff.1 hk).1
        simp only [List.length_singleton] at this
        omega
      rw [hk0] at hk
      cases hk
      rw [ho.fresh, List.countP_eq_zero.2]
      · rfl
      · intro v hv hbest
        obtain ⟨c, hc, -⟩ := L.best v hv
        have := (List.getElem?_eq_some_iff.1 hc).1
        rw [beq_iff_eq.1 hbest] at this
        exact hlt this
  · rintro k l c v h (hk | hl) hc
    · rw [List.getElem?_append_left hk] at hc
      exact L.settled k l c v h trivial hc
    · omega

/-- What adding a cut does: it competes everywhere, and its state is visited if it is new. -/
theorem ledger_add (hn : names.Nodup) {cuts : List (Cut ℚ)} {states : List (State ℚ)} {o : Offer}
    (ho : o.Over names) :
    Action.Triple
      (fun pool => pool.Ledger names sense (fun _ _ => True) ∧ pool.frame.cuts = cuts ∧
        pool.frame.Visits states)
      (add sense o.cut o.state o.state)
      (fun _ pool => pool.Ledger names sense (fun _ _ => True) ∧
        pool.frame.cuts = cuts ++ [o.cut.uncounted] ∧ pool.frame.Visits (states ++ [o.state]))
      fun _ => False := by
  refine .get_bind ?_
  rintro pool ⟨L, rfl, V⟩
  -- all old cuts have competed, and the new one does so at one place after the other
  let f : Frame := ⟨pool.frame.cuts ++ [o.cut.uncounted], pool.frame.visited, pool.frame.seen⟩
  let I : ℕ → CutPool ℚ ℚ → Prop := fun n p =>
    p.Ledger names sense (fun k l => k < pool.cuts.length ∨ l < n) ∧ p.frame = f
  refine .bind (.modify (Q := fun _ p => I 0 p ∧ p.visited.length = pool.visited.length) ?_)
    fun _ => .get_bind ?_
  · rintro pool rfl
    exact ⟨⟨L.record ho, Frame.ext List.map_append rfl rfl⟩, rfl⟩
  rintro p ⟨hp, hlength⟩
  have competed : Action.Triple (· = p)
      ((List.range p.visited.length).forM (contest sense pool.cuts.length))
      (fun _ q => q.Ledger names sense (fun _ _ => True) ∧ q.frame = f) fun _ => False := by
    refine (Action.Triple.forM_range (I := I) fun l hl => ?_).consequence ?_ ?_ fun _ => id
    · refine (ledger_contest names sense _ _ pool.cuts.length l).consequence (fun _ => id) ?_
        fun _ => id
      rintro - q ⟨hq, hqf⟩
      refine ⟨hq.extend ?_, hqf⟩
      rintro k l' hk - (hdone | hdone)
      · exact .inl (.inl hdone)
      · have hcuts := congrArg (fun f => f.cuts.length) hqf
        simp only [frame, f, List.length_map, List.length_append, List.length_singleton] at hcuts
        omega
    · rintro _ rfl
      exact hp
    · rintro - q ⟨hq, hqf⟩
      refine ⟨hq.extend fun k l _ hl _ => .inr ?_, hqf⟩
      have hvisited := congrArg (fun f => f.visited.length) (hqf.trans hp.2.symm)
      simp only [frame, List.length_map] at hvisited
      omega
  refine .bind competed fun _ => ?_
  by_cases hempty : o.state.isEmpty = true
  · rw [if_pos hempty]
    refine .pure ?_
    rintro q ⟨hq, hqf⟩
    rw [hqf]
    exact ⟨hq, rfl, V.skip rfl rfl fun h => by rw [hempty] at h; cases h⟩
  · rw [if_neg hempty]
    have hne : o.state.isEmpty = false := Bool.eq_false_iff.2 hempty
    have hover := ho.state_over hne
    obtain ⟨key, hkey⟩ := StateKey.exists_ofState hover
    have visited_over : ∀ x ∈ pool.frame.visited, x.Over names := by
      intro x hx
      obtain ⟨v, hv, rfl⟩ := List.mem_map.1 hx
      exact L.state_over v hv
    have hseen := any_same_iff hn V.keys visited_over hover hkey
    simp only [hkey, Action.ofExcept, pure_bind]
    refine .get_bind ?_
    rintro q ⟨hq, hqf⟩
    have hqs : q.seen = pool.frame.seen := congrArg Frame.seen hqf
    refine .ite (fun hnew => ?_) (fun hold => ?_)
    · have hunseen : ¬∃ x ∈ pool.frame.visited, x.entries.Perm o.state.entries := by
        rw [← hseen, ← hqs]
        simpa using hnew
      have hcut : pool.cuts.length < q.cuts.length := by
        have hcuts := congrArg (fun f => f.cuts.length) hqf
        simp only [frame, f, List.length_map, List.length_append, List.length_singleton] at hcuts
        omega
      refine (ledger_visit (f := f) hover key).consequence ?_ ?_ fun _ => id
      · rintro _ rfl
        exact ⟨hq, hqf, hcut⟩
      rintro - r ⟨hr, hrf⟩
      rw [hrf]
      exact ⟨hr, rfl, V.push rfl rfl hne hkey fun x hx hperm => hunseen ⟨x, hx, hperm⟩⟩
    · refine .pure ?_
      rintro _ rfl
      rw [hqf]
      refine ⟨hq, rfl, V.skip rfl rfl fun _ => hseen.1 ?_⟩
      rw [← hqs]
      simpa using hold

/-! ### Pools of offers -/

/-- What holds of a pool to which offers were added: the best cuts are the extremal ones, the counts
are the numbers of visited states at which a cut is the best, and the visited states are the
distinct states of the offers. -/
structure LevelOne (sense : Sense) (offers : List Offer) (pool : CutPool ℚ ℚ) : Prop where
  cuts_eq : pool.cuts.map Cut.uncounted = offers.map (·.cut.uncounted)
  best : ∀ v ∈ pool.visited, ∃ c, pool.cuts[v.bestCut]? = some c ∧
    c.height v.state = .ok v.bestHeight
  extremal : ∀ v ∈ pool.visited, ∀ c ∈ pool.cuts, ∃ h, c.height v.state = .ok h ∧
    sense.AtMost h v.bestHeight
  count_eq : ∀ (k : ℕ) (c : Cut ℚ), pool.cuts[k]? = some c →
    c.count = ((pool.visited.countP fun v => v.bestCut == k : ℕ) : ℤ)
  count_nonneg : ∀ c ∈ pool.cuts, 0 ≤ c.count
  sum_count : (pool.cuts.map (·.count)).sum = pool.visited.length
  offered : ∀ v ∈ pool.visited, ∃ o ∈ offers, o.state.isEmpty = false ∧ o.state = v.state
  visited : ∀ o ∈ offers, o.state.isEmpty = false →
    ∃ v ∈ pool.visited, v.state.entries.Perm o.state.entries
  distinct : pool.visited.Pairwise fun v w => ¬v.state.entries.Perm w.state.entries

/-- The counts sum to the number of visited states. -/
theorem Ledger.sum_count (L : pool.Ledger names sense done) :
    (pool.cuts.map (·.count)).sum = pool.visited.length := by
  let winners : Multiset ℕ := ↑(pool.visited.map (·.bestCut))
  have counts : pool.cuts.map (·.count) =
      (List.range pool.cuts.length).map fun k => ((winners.count k : ℕ) : ℤ) := by
    apply List.ext_getElem?
    intro k
    rw [List.getElem?_map, List.getElem?_map]
    by_cases hk : k < pool.cuts.length
    · rw [List.getElem?_range hk, List.getElem?_eq_getElem hk]
      have counted := L.count_eq k _ (List.getElem?_eq_getElem hk)
      refine congrArg some (counted.trans (congrArg Nat.cast ?_))
      show _ = Multiset.count k ↑(pool.visited.map (·.bestCut))
      rw [Multiset.coe_count, List.count, List.countP_map]
      rfl
    · rw [List.getElem?_eq_none (by omega), List.getElem?_eq_none (by simpa using hk)]
      rfl
  have valid : ∀ k ∈ winners, k ∈ Finset.range pool.cuts.length := by
    intro k hk
    obtain ⟨v, hv, rfl⟩ := List.mem_map.1 (Multiset.mem_coe.1 hk)
    obtain ⟨c, hc, -⟩ := L.best v hv
    exact Finset.mem_range.2 (List.getElem?_eq_some_iff.1 hc).1
  have total := Multiset.sum_count_eq_card valid
  rw [Multiset.coe_card, List.length_map] at total
  rw [counts, ← total, Nat.cast_sum]
  exact (Multiset.sum_coe _).symm

/-- A ledger in which all pairs have competed, over the cuts and states of offers, has the closed
form. -/
theorem Ledger.levelOne {offers : List Offer} (L : pool.Ledger names sense fun _ _ => True)
    (hcuts : pool.frame.cuts = offers.map (·.cut.uncounted))
    (V : pool.frame.Visits (offers.map (·.state))) : pool.LevelOne sense offers := by
  refine ⟨hcuts, L.best, ?_, L.count_eq, ?_, L.sum_count, ?_, ?_, List.pairwise_map.1 V.distinct⟩
  · intro v hv c hc
    obtain ⟨h, hh, -⟩ := Cut.exists_height_of_over (L.cut_over c hc) (L.state_over v hv)
    obtain ⟨k, hk⟩ := List.getElem?_of_mem hc
    obtain ⟨l, hl⟩ := List.getElem?_of_mem hv
    exact ⟨h, hh, L.settled k l c v h trivial hk hl hh⟩
  · intro c hc
    obtain ⟨k, hk⟩ := List.getElem?_of_mem hc
    rw [L.count_eq k c hk]
    exact Int.natCast_nonneg _
  · intro v hv
    obtain ⟨hmem, hne⟩ := V.given v.state (List.mem_map_of_mem hv)
    obtain ⟨o, ho, hstate⟩ := List.mem_map.1 hmem
    exact ⟨o, ho, by rw [hstate]; exact hne, hstate⟩
  · intro o ho hne
    obtain ⟨x, hx, hperm⟩ := V.visited o.state (List.mem_map_of_mem ho) hne
    obtain ⟨v, hv, rfl⟩ := List.mem_map.1 hx
    exact ⟨v, hv, hperm⟩

theorem ledger_empty (names : List String) (sense : Sense) (done : ℕ → ℕ → Prop) :
    (CutPool.empty : CutPool ℚ ℚ).Ledger names sense done := by
  refine ⟨?_, ?_, ?_, ?_, ?_⟩
  · rintro c ⟨⟩
  · rintro v ⟨⟩
  · rintro v ⟨⟩
  · rintro k c ⟨⟩
  · rintro k l c v height - ⟨⟩

theorem visits_empty : (CutPool.empty : CutPool ℚ ℚ).frame.Visits [] := by
  refine ⟨.nil, ?_, ?_, .nil⟩
  · rintro x ⟨⟩
  · rintro y ⟨⟩

/-- Offers can be added to the empty pool one after the other, and the pool then has the closed
form. -/
theorem levelOne_of_offers (sense : Sense) {names : List String} (hn : names.Nodup)
    {offers : List Offer} (h : ∀ o ∈ offers, o.Over names) :
    ∃ pool : CutPool ℚ ℚ,
      (offers.forM fun o => add sense o.cut o.state o.state) CutPool.empty = .ok () pool ∧
      pool.LevelOne sense offers := by
  -- the ledger of the offers that were added so far
  let I : List Offer → CutPool ℚ ℚ → Prop := fun before pool =>
    pool.Ledger names sense (fun _ _ => True) ∧
      pool.frame.cuts = before.map (·.cut.uncounted) ∧
      pool.frame.Visits (before.map (·.state))
  have run : Action.Triple (I []) (offers.forM fun o => add sense o.cut o.state o.state)
      (fun _ => I offers) fun _ => False := by
    refine Action.Triple.forM_prefix ?_
    rintro before o after rfl
    have ho := h o (List.mem_append_right _ List.mem_cons_self)
    refine (ledger_add hn ho).consequence (fun _ => id) ?_ fun _ => id
    rintro - pool ⟨L, hcuts, V⟩
    refine ⟨L, ?_, ?_⟩
    · rw [List.map_append, hcuts]
      rfl
    · rw [List.map_append]
      exact V
  obtain ⟨⟨⟩, pool, hrun, L, hcuts, V⟩ :=
    run.exists_ok (s := CutPool.empty) ⟨ledger_empty names sense _, rfl, visits_empty⟩
  exact ⟨pool, hrun, L.levelOne hcuts V⟩

/-- Two cuts over one name, at the same state and at another one, can be added. -/
theorem levelOne_of_three_offers :
    let state (x : ℚ) : State ℚ := ⟨[(.text "x", x)]⟩
    let cut (intercept slope : ℚ) : Cut ℚ := ⟨intercept, ⟨[(.text "x", slope)]⟩, none, 0, false⟩
    let offers : List Offer := [⟨cut 1 2, state 1⟩, ⟨cut 5 (-1), state 1⟩, ⟨cut 0 3, state 4⟩]
    ∃ pool : CutPool ℚ ℚ,
      (offers.forM fun o => add .min o.cut o.state o.state) CutPool.empty = .ok () pool ∧
      pool.LevelOne .min offers := by
  intro state cut offers
  refine levelOne_of_offers .min (List.nodup_singleton "x") fun o ho => ?_
  simp only [offers, List.mem_cons, List.not_mem_nil, or_false] at ho
  rcases ho with rfl | rfl | rfl
  all_goals
    refine ⟨rfl, fun name hname => ?_, fun _ => .refl _⟩
    exact hname

end CutPool

end Multistage
