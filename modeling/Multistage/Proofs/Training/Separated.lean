import Mathlib.Tactic.Linarith
import Multistage.Proofs.Linear.Certified
import Multistage.Proofs.Scalar.Extended
import Multistage.Proofs.Training.Starting

/-!
# Starting states are few and far apart

A state becomes a starting state of a node only if it is far from all that the node has, and a walk
that enters a node takes one of its starting states away. So the starting states of a node are far
apart, each from those that were there before it, and there are never more of them than walks that
were cut short. The distance of two states is not symmetric: differences are relative to the later
state.

## Main definitions

- `State.FarFrom`: a state is far from an earlier one.
- `Run.Separated`: the starting states of every node are far apart.
- `Run.Cache.size`: the number of starting states.
- `Run.isCutShort`: the walk of the next pass is cut short.

## Main statements

- `State.farFrom_of_distanceTo`: what an offered state passes.
- `Run.starting_separated`: starting states are far apart and few.
-/

namespace Multistage

section Extremes

variable {α : Type} [Scalar α]

/-- The largest number of a list is one of its numbers. -/
theorem Scalar.largest_mem {xs : List α} (h : xs ≠ []) : Scalar.largest xs ∈ xs := by
  have among : ∀ (rest : List α) (x : α), rest.foldl Scalar.greater x ∈ x :: rest := by
    intro rest
    induction rest with
    | nil => exact fun x => List.mem_cons_self
    | cons y rest ih =>
      intro x
      rw [List.foldl_cons]
      rcases List.mem_cons.1 (ih (Scalar.greater x y)) with heq | hmem
      · rw [heq]
        unfold Scalar.greater
        split
        · exact List.mem_cons_of_mem _ List.mem_cons_self
        · exact List.mem_cons_self
      · exact List.mem_cons_of_mem _ (List.mem_cons_of_mem _ hmem)
  cases xs with
  | nil => contradiction
  | cons x rest => exact among rest x

/-- The smallest number of a list is at most each of them. -/
theorem Scalar.foldl_lesser_le (x : ℚ) (rest : List ℚ) :
    ∀ y ∈ x :: rest, rest.foldl Scalar.lesser x ≤ y := by
  induction rest generalizing x with
  | nil => simp
  | cons z rest ih =>
    have first := ih (Scalar.lesser x z) (Scalar.lesser x z) List.mem_cons_self
    have below : Scalar.lesser x z ≤ x ∧ Scalar.lesser x z ≤ z := by
      unfold Scalar.lesser
      split
      next h => exact ⟨h.le, le_rfl⟩
      next h => exact ⟨le_rfl, not_lt.1 h⟩
    intro y hy
    rw [List.foldl_cons]
    rcases List.mem_cons.1 hy with rfl | hy
    · exact first.trans below.1
    · rcases List.mem_cons.1 hy with rfl | hy
      · exact first.trans below.2
      · exact ih _ y (List.mem_cons_of_mem _ hy)

end Extremes

/-! ### Distances -/

/-- A state is far from an earlier one: the difference of some entry, relative to one plus the size
of the entry of the later state, exceeds a distance. -/
def State.FarFrom (distance : Extended ℚ) (x y : State ℚ) : Prop :=
  ∃ e ∈ y.entries, ∃ u, x.get? e.1 = some u ∧ distance.lt (.finite (|u - e.2| / (1 + |e.2|))) = true

variable {δ : Extended ℚ}

theorem Extended.lt_finite_mono {a b : ℚ} (h : δ.lt (.finite a) = true) (hab : a ≤ b) :
    δ.lt (.finite b) = true := by
  cases δ with
  | finite d => exact decide_eq_true ((of_decide_eq_true h).trans_le hab)
  | negInf => rfl
  | posInf => cases h
  | nan => cases h

/-- A distance that is not negative is not below zero. -/
theorem Extended.lt_finite_pos {a : ℚ} (hδ : (Extended.finite 0).le δ = true)
    (h : δ.lt (.finite a) = true) :
    0 < a := by
  cases δ with
  | finite d => exact (Extended.finite_le.1 hδ).trans_lt (of_decide_eq_true h)
  | negInf => cases hδ
  | posInf => cases h
  | nan => cases h

/-- A state whose distance from an earlier one exceeds a distance is far from it. -/
theorem State.farFrom_of_stateDistance {x y : State ℚ} {d : ℚ}
    (hδ : (Extended.finite 0).le δ = true)
    (measured : stateDistance x y = .ok d) (exceeds : δ.lt (.finite d) = true) : x.FarFrom δ y := by
  obtain ⟨differences, hdifferences, hlargest⟩ := Except.bind_eq_ok.1 measured
  have hd : Scalar.largest differences = d := Except.ok.inj hlargest
  have some_entry : differences ≠ [] := by
    rintro rfl
    have zero : (0 : ℚ) = d := hd
    have := Extended.lt_finite_pos hδ exceeds
    linarith
  obtain ⟨⟨name, value⟩, he, hratio⟩ := Except.exists_of_mem_mapM hdifferences
    (hd ▸ Scalar.largest_mem some_entry)
  dsimp only at hratio
  split at hratio
  next u hu =>
    have ratio : |u - value| / (1 + |value|) = d := by
      rw [← Scalar.abs_rat, ← Scalar.abs_rat]
      exact Except.ok.inj hratio
    exact ⟨(name, value), he, u, hu, ratio ▸ exceeds⟩
  next => cases hratio

/-- A state whose distance from the nearest of given states exceeds a distance is far from all of
them. -/
theorem State.farFrom_of_distanceTo {states : List (State ℚ)} {y : State ℚ} {d : Extended ℚ}
    (hδ : (Extended.finite 0).le δ = true) (measured : distanceTo states y = .ok d)
    (exceeds : δ.lt (d.bind Scalar.exact) = true) : ∀ x ∈ states, x.FarFrom δ y := by
  intro x hx
  obtain ⟨distances, hdistances, hleast⟩ := Except.bind_eq_ok.1 measured
  obtain ⟨dx, hdx, measuredx⟩ := Except.exists_of_mem_items hdistances hx
  refine State.farFrom_of_stateDistance hδ measuredx ?_
  cases distances with
  | nil => cases hdx
  | cons first rest =>
    have least : Extended.finite (rest.foldl Scalar.lesser first) = d := Except.ok.inj hleast
    subst least
    exact Extended.lt_finite_mono exceeds (Scalar.foldl_lesser_le first rest dx hdx)

namespace Run

/-- The starting states of every node are far apart, each from those before it. -/
def Separated (δ : Extended ℚ) (c : Cache ℚ) : Prop :=
  ∀ i states, c.get? i = some states → states.Pairwise (State.FarFrom δ)

/-- The number of starting states of all nodes. -/
def Cache.size {α : Type} (c : Cache α) : ℕ := (c.entries.map (·.2.length)).sum

/-- The walk of the next pass is cut short. -/
def isCutShort {α : Type} [Scalar α] (r : Run α) : Bool :=
  match r.nextScenario with
  | .ok scenario => scenario.cutShort
  | .error _ => false

/-- The distance of a run is that of its options. -/
theorem distance_of_start {α : Type} [Scalar α] {session : Session α} {options : TrainingOptions α}
    {r : Run α} (h : Run.start session options = .ok r) {δ : Extended ℚ}
    (hoption : options.distance.value = .ok δ) :
    r.settings.distance = δ := by
  obtain ⟨_, -, h⟩ := Except.bind_eq_ok.1 h
  obtain ⟨distance, hdistance, h⟩ := Except.bind_eq_ok.1 h
  cases h
  exact Except.ok.inj (hdistance.symm.trans hoption)

/-- A changed list changes the number of starting states by as much as its length. -/
theorem Cache.size_modify {α : Type} [Scalar α] {c : Cache α} {index : Datum α}
    {states : List (State α)}
    (found : c.get? index = some states) (f : List (State α) → List (State α)) :
    size (c.modify index f) + states.length = size c + (f states).length := by
  obtain ⟨before, k, after, hentries, -, hmodify⟩ := Dict.exists_split found
  unfold size
  rw [hmodify f, hentries]
  simp only [List.map_append, List.map_cons, List.sum_append, List.sum_cons]
  omega

section Changes

variable {α : Type} [Scalar α] {settings : PassSettings α} {index : Datum α} {state : State α}
  {c c' : Cache α}

theorem Offered.size_le (h : Offered settings index state c c') :
    Cache.size c' ≤ Cache.size c + 1 := by
  cases h with
  | near => omega
  | far found measured exceeds =>
    have changed := Cache.size_modify found (· ++ [state])
    rw [List.length_append, List.length_singleton] at changed
    omega

/-- Entering a node leaves no more starting states than there were: one is taken for one that is
offered. -/
theorem Entered.size_le (h : Entered settings index state c c') : Cache.size c' ≤ Cache.size c := by
  cases h with
  | untouched => exact le_rfl
  | @exchanged c' states i offered found inside =>
    have more := offered.size_le
    have changed := Cache.size_modify found (·.eraseIdx i)
    rw [List.length_eraseIdx_of_lt inside] at changed
    omega

end Changes

variable {settings : PassSettings ℚ} {index : Datum ℚ} {state : State ℚ} {c c' : Cache ℚ}

/-- Far states are put at the end. -/
theorem Separated.offered (h : Separated settings.distance c)
    (hδ : (Extended.finite 0).le settings.distance = true)
    (hoffered : Offered settings index state c c') :
    Separated settings.distance c' := by
  cases hoffered with
  | near => exact h
  | @far old distance found measured exceeds =>
    intro i states hi
    rw [Dict.get?_modify] at hi
    split at hi
    next hindex =>
      rw [← Dict.get?_congr hindex, found] at hi
      cases hi
      refine List.pairwise_append.2 ⟨h index old found, List.pairwise_singleton _ _,
        fun x hx y hy => ?_⟩
      rw [List.mem_singleton.1 hy]
      exact State.farFrom_of_distanceTo hδ measured exceeds x hx
    next => exact h i states hi

/-- What is left of states that are far apart is. -/
theorem Separated.entered (h : Separated settings.distance c)
    (hδ : (Extended.finite 0).le settings.distance = true)
    (hentered : Entered settings index state c c') :
    Separated settings.distance c' := by
  cases hentered with
  | untouched => exact h
  | exchanged offered found inside =>
    intro i states hi
    rw [Dict.get?_modify] at hi
    split at hi
    · obtain ⟨old, hold, rfl⟩ := Option.map_eq_some_iff.1 hi
      exact (h.offered hδ offered i old hold).sublist (List.eraseIdx_sublist old _)
    · exact h.offered hδ offered i states hi

/-- One more pass leaves the starting states far apart, and at most one more of them if its walk was
cut short. -/
theorem Separated.forward {solver : Solver ℚ} {r : Run ℚ}
    (h : Separated r.settings.distance r.starting)
    (hδ : (Extended.finite 0).le r.settings.distance = true)
    (hdraws : ∀ t, Run.forward solver r ≠ .error .drawsExhausted t) :
    Separated r.settings.distance ((Run.forward solver).final r).starting ∧
      Cache.size ((Run.forward solver).final r).starting ≤
        Cache.size r.starting + if r.isCutShort then 1 else 0 := by
  have entering : ∀ {index : Datum ℚ} {state : State ℚ} {c c' : Cache ℚ}, True →
      Entered r.settings index state c c' →
      Separated r.settings.distance c ∧ Cache.size c ≤ Cache.size r.starting →
        Separated r.settings.distance c' ∧ Cache.size c' ≤ Cache.size r.starting :=
    fun _ hentered hc => ⟨hc.1.entered hδ hentered, hentered.size_le.trans hc.2⟩
  obtain ⟨-, c, ⟨separated, size⟩, ends⟩ := forward_keeps entering ⟨⟨h, le_rfl⟩, rfl⟩
    (fun _ _ _ _ => trivial) (fun _ _ _ _ _ _ => trivial) hdraws
  rcases ends with heq | ⟨scenario, k, p, through, hcut, -, offered⟩
  · rw [heq]
    exact ⟨separated, size.trans (Nat.le_add_right _ _)⟩
  · have cut : r.isCutShort = true := by
      unfold isCutShort
      rw [through.visit.1]
      exact hcut
    rw [if_pos cut]
    exact ⟨separated.offered hδ offered, offered.size_le.trans (Nat.add_le_add_right size 1)⟩

end Run

/-- Whatever forward passes a run has seen, and whatever their walks and draws were, the starting
states of every node are far apart by more than the distance of the options, each from all that
stand before it in the list; and over all nodes there are at most as many as there were passes whose
walk was cut short. -/
theorem Run.starting_separated {solver : Solver ℚ} {session : Session ℚ}
    {options : TrainingOptions ℚ}
    {passes : List (Run ℚ)} {r : Run ℚ} (h : Course solver session options passes r)
    {δ : Extended ℚ}
    (hoption : options.distance.value = .ok δ) (hδ : (Extended.finite 0).le δ = true) :
    (∀ i states, r.starting.get? i = some states → states.Pairwise fun x y =>
      ∃ e ∈ y.entries, ∃ u, x.get? e.1 = some u ∧ δ.lt (.finite (|u - e.2| / (1 + |e.2|))) = true) ∧
    (r.starting.entries.map (·.2.length)).sum ≤ passes.countP isCutShort := by
  suffices all : (r.settings.distance = δ ∧ Separated δ r.starting) ∧
      Cache.size r.starting ≤ passes.countP isCutShort from ⟨all.1.2, all.2⟩
  induction h with
  | @start r starts =>
    obtain ⟨hstarting, -, -⟩ := starting_of_start starts
    have none_there : ∀ i states, r.starting.get? i = some states → states = [] := by
      intro i states hi
      rw [hstarting, Dict.get?_mapValues] at hi
      obtain ⟨_, -, rfl⟩ := Option.map_eq_some_iff.1 hi
      rfl
    refine ⟨⟨distance_of_start starts hoption, fun i states hi => ?_⟩, ?_⟩
    · rw [none_there i states hi]
      exact .nil
    · rw [hstarting]
      simp [Cache.size, Dict.mapValues, Function.comp_def]
  | @forward passes r before draws ih =>
    obtain ⟨⟨hdistance, separated⟩, size⟩ := ih
    subst hdistance
    obtain ⟨separated', size'⟩ := separated.forward hδ draws
    obtain ⟨r₀, hstart⟩ := before.exists_start
    have same := ((before.forward draws).settings_eq hstart).trans (before.settings_eq hstart).symm
    refine ⟨⟨congrArg (·.distance) same, separated'⟩, size'.trans ?_⟩
    rw [List.countP_append, List.countP_singleton]
    omega
  | between _ starting settings _ ih =>
    rw [starting, settings]
    exact ih

/-! ### A stage that forgets its state -/

/-- A stage that is left in the state that its noise says, three or five. -/
def forgetting : StagePlan ℚ where
  states := [⟨⟨.text "x", some (.int 0), some (.int 10)⟩, .int 1⟩]
  objective := some (.name "x.out")
  noise := [([.int 3, .int 5], none)]
  edits := [.fix (.text "x.out") .noise]

/-- What solves such stages. -/
def forgettingSolver : Solver ℚ :=
  .certified fun p => ⟨[(p.equation 0).rhs, (p.equation 1).rhs, 0], [], [0, 1]⟩

/-- Two passes along walks of one node that were cut short, at three and at five. The first leaves
the state three. The second enters the node in the state one, which is far from three, takes three
in exchange for it, and leaves five, which is far from one. -/
theorem Run.starting_of_two_passes :
    ∃ (graph : Graph ℚ) (m : Model ℚ) (first second last : Run ℚ) (x y : State ℚ),
      Graph.ofEdges (.int 0) [.int 1]
        [(.int 0, .int 1, .real 1), (.int 1, .int 1, .real (1 / 2))] [] = .ok graph ∧
      Model.build graph ⟨.finite 0, .posInf, 0⟩ (.text "min") ⟨[], forgetting⟩ = .ok m ∧
      (let session : Session ℚ :=
        ⟨m, [0, 0], .ofReadings fun _ => .int 0, .ofReadings fun _ => .int 0⟩
      let options := { TrainingOptions.standard with
        scheme := .given [⟨[⟨.int 1, .int 3⟩], true⟩, ⟨[⟨.int 1, .int 5⟩], true⟩]
        distance := .real (1 / 2) }
      Run.start session options = .ok first ∧
        (Run.forward forgettingSolver).final first = second ∧
        (Run.forward forgettingSolver).final second = last ∧
        last.starting.get? (.int 1) = some [x, y] ∧
        (∃ e ∈ y.entries, ∃ u, x.get? e.1 = some u ∧
          (Extended.finite (1 / 2)).lt (.finite (|u - e.2| / (1 + |e.2|))) = true) ∧
        (last.starting.entries.map (·.2.length)).sum ≤ [first, second].countP isCutShort) := by
  let start (m : Model ℚ) : Session ℚ :=
    ⟨m, [0, 0], .ofReadings fun _ => .int 0, .ofReadings fun _ => .int 0⟩
  let options : TrainingOptions ℚ := { TrainingOptions.standard with
    scheme := .given [⟨[⟨.int 1, .int 3⟩], true⟩, ⟨[⟨.int 1, .int 5⟩], true⟩]
    distance := .real (1 / 2) }
  have check : (do
      let graph ← Graph.ofEdges (.int 0) [.int 1]
        [(.int 0, .int 1, .real 1), (.int 1, .int 1, .real (1 / 2))] []
      let m ← Model.build graph ⟨.finite 0, .posInf, 0⟩ (.text "min") ⟨[], forgetting⟩
      let first ← Run.start (start m) options
      let passed ← (Run.forward forgettingSolver).answer first
      let passed' ← (Run.forward forgettingSolver).answer passed.2
      let left ← (passed'.2.starting.get? (.int 1)).elim (.error .missingKey) .ok
      if left.length = 2 then return () else .error .missingKey : Except (Failure ℚ) Unit).toBool =
          true := by
    decide +kernel
  simp only [Except.toBool_bind, Except.toBool_ite, Except.elim_eq_ok, Action.answer_eq_ok] at check
  obtain ⟨graph, hgraph, m, hm, first, hfirst, ⟨result, second⟩, passed, ⟨result', last⟩, passed',
    left, found, hlength⟩ := check
  have hsecond : (Run.forward forgettingSolver).final first = second := Action.final_of_ok passed
  have hlast : (Run.forward forgettingSolver).final second = last := Action.final_of_ok passed'
  obtain ⟨x, y, rfl⟩ := List.length_eq_two.1 hlength
  have one : Course forgettingSolver (start m) options [first] second :=
    hsecond ▸ Course.forward (.start hfirst) fun t ht => nomatch passed.symm.trans ht
  have two : Course forgettingSolver (start m) options [first, second] last :=
    hlast ▸ one.forward fun t ht => nomatch passed'.symm.trans ht
  have half : options.distance.value = .ok (.finite (1 / 2)) := rfl
  obtain ⟨apart, few⟩ := starting_separated two half (Extended.finite_le.2 (by norm_num))
  exact ⟨graph, m, first, second, last, x, y, hgraph, hm, hfirst, hsecond, hlast, found,
    List.pairwise_pair.1 (apart _ _ found), few⟩

end Multistage
