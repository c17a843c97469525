import Mathlib.Algebra.BigOperators.Group.List.Basic
import Mathlib.Algebra.BigOperators.Ring.List
import Mathlib.Tactic.FieldSimp
import Mathlib.Tactic.Ring
import Multistage.Proofs.Lists
import Multistage.Proofs.Model.Build
import Multistage.Proofs.Model.Declaration
import Multistage.Proofs.Sums

/-!
# The weights of similar nodes

The solutions for the children of a visited node also refine the nodes whose children are among
them. The probabilities of such a node are read off the transition map, in which of several edges
between the same two nodes only the last one counts, and every edge of the visited node adds the
entry of its child once more. The weights are the distribution of the similar node only where this
makes no difference.

## Main definitions

- `Edge.countTo`, `Edge.lastTo`, `Edge.totalTo`: the edges to a child, and their probabilities.
- `Session.places`: the child and the entry of its noise terms that every outcome stands for.
- `weightAt`: the weight of an entry in a vector of probabilities.

## Main statements

- `Run.weight_probabilitiesAt`: the weights of a similar node, and when they are its distribution.
-/

namespace Multistage

/-! ### Edges to a child -/

namespace Edge

variable (edges : List (Edge ℚ)) (c : Datum ℚ)

/-- The edges that lead to a child. -/
def leadingTo : List (Edge ℚ) := edges.filter (·.child == c)

/-- The number of edges to a child. -/
def countTo : ℕ := (leadingTo edges c).length

/-- The probability of the last edge to a child. -/
def lastTo : ℚ := ((leadingTo edges c).getLast?.map (·.probability)).getD 0

/-- The probability to move to a child. -/
def totalTo : ℚ := ((leadingTo edges c).map (·.probability)).sum

variable {edges c} {d : Datum ℚ}

theorem leadingTo_congr (h : (c == d) = true) : leadingTo edges c = leadingTo edges d := by
  unfold leadingTo
  refine List.filter_congr fun e _ => ?_
  rw [Bool.eq_iff_iff]
  exact ⟨fun he => BEq.trans he h, fun he => BEq.trans he (BEq.symm h)⟩

theorem countTo_congr (h : (c == d) = true) : countTo edges c = countTo edges d := by
  rw [countTo, countTo, leadingTo_congr h]

theorem lastTo_congr (h : (c == d) = true) : lastTo edges c = lastTo edges d := by
  rw [lastTo, lastTo, leadingTo_congr h]

theorem totalTo_congr (h : (c == d) = true) : totalTo edges c = totalTo edges d := by
  rw [totalTo, totalTo, leadingTo_congr h]

theorem countTo_pos {e : Edge ℚ} (he : e ∈ edges) (hc : (e.child == c) = true) :
    0 < countTo edges c :=
  List.length_pos_of_mem (List.mem_filter.2 ⟨he, hc⟩)

theorem lastTo_nonneg (h : ∀ e ∈ edges, 0 ≤ e.probability) : 0 ≤ lastTo edges c := by
  rw [lastTo]
  cases hlast : (leadingTo edges c).getLast? with
  | none => exact le_rfl
  | some e => exact h e (List.mem_filter.1 (List.mem_of_getLast? hlast)).1

/-- The last edge to a child is the only one if there are no two. -/
theorem totalTo_eq_lastTo (h : countTo edges c ≤ 1) : totalTo edges c = lastTo edges c := by
  unfold countTo at h
  unfold totalTo lastTo
  match leadingTo edges c, h with
  | [], _ => rfl
  | [e], _ => exact List.sum_singleton

end Edge

/-- The transition map has the probability of the last edge between two nodes. -/
theorem transitionMap_getD {nodes : Dict (Datum ℚ) (Node ℚ)} (hd : nodes.Distinct)
    {index : Datum ℚ} {n : Node ℚ} (hn : nodes.get? index = some n) (c : Datum ℚ) :
    (transitionMap nodes).getD (index, c) 0 = Edge.lastTo n.children c := by
  have at_node : ∀ (i : Datum ℚ) (edges : List (Edge ℚ)),
      ((edges.map fun e => ((i, e.child), e.probability)).filter (·.1 == (index, c))) =
        if (i == index) = true then
          (Edge.leadingTo edges c).map fun e => ((i, e.child), e.probability)
        else [] := by
    intro i edges
    have key : ∀ e : Edge ℚ, ((i, e.child) == (index, c)) = (i == index && e.child == c) :=
      fun _ => rfl
    rw [List.filter_map, Edge.leadingTo]
    by_cases hi : (i == index) = true
    · simp only [Function.comp_def, key, hi, Bool.true_and, if_true]
    · simp only [Function.comp_def, key, hi, Bool.false_and, List.filter_false, if_false,
        List.map_nil, Bool.false_eq_true]
  have found : ∀ es : List (Datum ℚ × Node ℚ), (⟨es⟩ : Dict (Datum ℚ) (Node ℚ)).Distinct →
      (⟨es⟩ : Dict (Datum ℚ) (Node ℚ)).get? index = some n →
      ((es.flatMap fun e => e.2.children.map fun f => ((e.1, f.child), f.probability)).filter
        (·.1 == (index, c))).map (·.2) = (Edge.leadingTo n.children c).map (·.probability) := by
    intro es
    induction es with
    | nil => intro _ h; cases h
    | cons e rest ih =>
      intro hdist hget
      obtain ⟨hfirst, hrest⟩ := List.pairwise_cons.1 hdist
      rw [List.flatMap_cons, List.filter_append, at_node, List.map_append]
      by_cases he : (e.1 == index) = true
      · have : e.2 = n := by
          rw [Dict.get?_cons, if_pos he] at hget
          exact Option.some.inj hget
        subst this
        -- no later entry has the index
        have none : (rest.flatMap fun e => e.2.children.map fun f =>
            ((e.1, f.child), f.probability)).filter (·.1 == (index, c)) = [] := by
          refine List.filter_eq_nil_iff.2 fun x hx hkey => ?_
          obtain ⟨f, hf, hx⟩ := List.mem_flatMap.1 hx
          obtain ⟨g, -, rfl⟩ := List.mem_map.1 hx
          have := hfirst f hf
          rw [BEq.trans he (BEq.symm (Bool.and_eq_true_iff.1 hkey).1)] at this
          cases this
        rw [none, if_pos he, List.map_map, List.map_nil, List.append_nil]
        rfl
      · rw [Dict.get?_cons, if_neg he] at hget
        rw [if_neg he, List.map_nil, List.nil_append]
        exact ih hrest hget
  unfold Dict.getD transitionMap
  rw [Dict.get?_ofList, ← List.getLast?_map, found nodes.entries hd hn, List.getLast?_map]
  rfl

/-! ### Places in vectors of probabilities -/

/-- The weight of an entry of the noise terms of a child in a vector of probabilities. -/
def weightAt (places : List (Datum ℚ × ℕ)) (vector : List ℚ) (c : Datum ℚ) (entry : ℕ) : ℚ :=
  (((places.zip vector).filter fun e => e.1.1 == c && e.1.2 == entry).map (·.2)).sum

theorem weightAt_append {places places' : List (Datum ℚ × ℕ)} {vector vector' : List ℚ}
    (h : places.length = vector.length) (c : Datum ℚ) (entry : ℕ) :
    weightAt (places ++ places') (vector ++ vector') c entry =
      weightAt places vector c entry + weightAt places' vector' c entry := by
  unfold weightAt
  rw [List.zip_append h, List.filter_append, List.map_append, List.sum_append]

theorem weightAt_entries (d c : Datum ℚ) (vector : List ℚ) (entry : ℕ) :
    weightAt ((List.range vector.length).map fun k => (d, k)) vector c entry =
      if (d == c) = true then vector[entry]?.getD 0 else 0 := by
  by_cases hd : (d == c) = true
  · have from_start : ∀ (vector : List ℚ) (start : ℕ),
        weightAt ((List.range' start vector.length).map fun k => (d, k)) vector c entry =
          if start ≤ entry then vector[entry - start]?.getD 0 else 0 := by
      intro vector
      induction vector with
      | nil => intro start; simp [weightAt]
      | cons x rest ih =>
        intro start
        rw [List.length_cons, List.range'_succ, List.map_cons,
          show ((d, start) :: (List.range' (start + 1) rest.length).map fun k => (d, k)) =
            [(d, start)] ++ (List.range' (start + 1) rest.length).map fun k => (d, k) from rfl,
          show x :: rest = [x] ++ rest from rfl, weightAt_append rfl, ih]
        by_cases hs : start = entry
        · subst hs
          simp [weightAt, hd]
        · by_cases hlt : start ≤ entry
          · have : entry - start = entry - (start + 1) + 1 := by omega
            simp [weightAt, hs, hlt, this, show start + 1 ≤ entry by omega]
          · simp [weightAt, hs, hlt, show ¬start + 1 ≤ entry by omega]
    rw [if_pos hd, List.range_eq_range', from_start]
    simp
  · rw [if_neg hd]
    have none : ∀ zipped : List ((Datum ℚ × ℕ) × ℚ), (∀ e ∈ zipped, e.1.1 = d) →
        zipped.filter (fun e => e.1.1 == c && e.1.2 == entry) = [] := by
      intro zipped hz
      refine List.filter_eq_nil_iff.2 fun e he h => hd ?_
      rw [← hz e he]
      exact (Bool.and_eq_true_iff.1 h).1
    unfold weightAt
    rw [none]
    · rfl
    · intro e he
      obtain ⟨k, -, hk⟩ := List.mem_map.1 (List.of_mem_zip he).1
      rw [← hk]

section Outcomes

variable {noise : Datum ℚ → List (NoiseTerm ℚ)} {weight : Datum ℚ → ℚ}

/-- The places of the outcomes of edges. -/
def placesOf (noise : Datum ℚ → List (NoiseTerm ℚ)) (edges : List (Edge ℚ)) :
    List (Datum ℚ × ℕ) :=
  edges.flatMap fun e => (List.range (noise e.child).length).map fun k => (e.child, k)

/-- The probabilities of the outcomes of edges, if every child has a weight. -/
def weightsOf (noise : Datum ℚ → List (NoiseTerm ℚ)) (weight : Datum ℚ → ℚ)
    (edges : List (Edge ℚ)) : List ℚ :=
  edges.flatMap fun e => (noise e.child).map fun t => weight e.child * t.probability

/-- Every edge to a child adds the weight of the child once more. -/
theorem weightAt_weightsOf (hnoise : ∀ c d, (c == d) = true → noise c = noise d)
    (hweight : ∀ c d, (c == d) = true → weight c = weight d) (edges : List (Edge ℚ))
    {c : Datum ℚ} {entry : ℕ} {t : NoiseTerm ℚ} (ht : (noise c)[entry]? = some t) :
    weightAt (placesOf noise edges) (weightsOf noise weight edges) c entry =
      Edge.countTo edges c * weight c * t.probability := by
  induction edges with
  | nil => simp [placesOf, weightsOf, weightAt, Edge.countTo, Edge.leadingTo]
  | cons e rest ih =>
    have first := weightAt_entries e.child c
      ((noise e.child).map fun t => weight e.child * t.probability) entry
    rw [List.length_map] at first
    unfold placesOf weightsOf at ih ⊢
    rw [List.flatMap_cons, List.flatMap_cons, weightAt_append (by simp), ih, first]
    by_cases he : (e.child == c) = true
    · have count : Edge.countTo (e :: rest) c = Edge.countTo rest c + 1 := by
        unfold Edge.countTo Edge.leadingTo
        rw [List.filter_cons_of_pos (p := fun x : Edge ℚ => x.child == c) he, List.length_cons]
      rw [if_pos he, count, hnoise _ _ he, hweight _ _ he, List.getElem?_map, ht, Option.map_some,
        Option.getD_some]
      push_cast
      ring
    · have count : Edge.countTo (e :: rest) c = Edge.countTo rest c := by
        unfold Edge.countTo Edge.leadingTo
        rw [List.filter_cons_of_neg (p := fun x : Edge ℚ => x.child == c) he]
      rw [if_neg he, count, zero_add]

theorem sum_weightsOf (edges : List (Edge ℚ)) :
    (weightsOf noise weight edges).sum =
      (edges.map fun e => weight e.child * ((noise e.child).map (·.probability)).sum).sum := by
  induction edges with
  | nil => rfl
  | cons e rest ih =>
    unfold weightsOf at ih ⊢
    rw [List.flatMap_cons, List.sum_append, ih, List.map_cons, List.sum_cons, List.sum_map_mul_left]

end Outcomes

/-- If the edges of a first list count the probabilities of a second one exactly, then so do sums
over them. -/
theorem sum_lastTo {edges own : List (Edge ℚ)} {g : Datum ℚ → ℚ}
    (hg : ∀ c d, (c == d) = true → g c = g d)
    (hsub : ∀ e ∈ own, ∃ f ∈ edges, (f.child == e.child) = true)
    (h : ∀ e ∈ own, Edge.countTo edges e.child * Edge.lastTo own e.child =
      Edge.totalTo own e.child) :
    (edges.map fun f => Edge.lastTo own f.child * g f.child).sum =
      (own.map fun e => e.probability * g e.child).sum := by
  -- every edge of the first list takes an equal part of the edges to its child
  let part (f e : Edge ℚ) : ℚ :=
    if (e.child == f.child) =
        true then e.probability / Edge.countTo edges f.child * g f.child else 0
  have parts : ∀ f ∈ edges, Edge.lastTo own f.child * g f.child = (own.map (part f)).sum := by
    intro f hf
    have total : (own.map (part f)).sum =
        Edge.totalTo own f.child * (1 / Edge.countTo edges f.child * g f.child) := by
      simp only [part]
      rw [sum_map_ite (fun e : Edge ℚ => e.child == f.child), Edge.totalTo,
        ← List.sum_map_mul_right]
      refine congrArg List.sum (List.map_congr_left fun e _ => ?_)
      ring
    have count : (Edge.countTo edges f.child : ℚ) ≠ 0 :=
      Nat.cast_ne_zero.2 (Nat.ne_of_gt (Edge.countTo_pos hf BEq.rfl))
    rw [total]
    by_cases hown : ∃ e ∈ own, (e.child == f.child) = true
    · obtain ⟨e, he, hef⟩ := hown
      have at_e : (Edge.countTo edges f.child : ℚ) * Edge.lastTo own f.child =
          Edge.totalTo own f.child := by
        rw [← Edge.countTo_congr hef, ← Edge.lastTo_congr hef, ← Edge.totalTo_congr hef]
        exact h e he
      rw [← at_e]
      field_simp
    · have none : Edge.leadingTo own f.child = [] :=
        List.filter_eq_nil_iff.2 fun e he hef => hown ⟨e, he, hef⟩
      rw [Edge.lastTo, Edge.totalTo, none]
      simp
  -- together these edges take all of the probability
  have whole : ∀ e ∈ own, (edges.map fun f => part f e).sum = e.probability * g e.child := by
    intro e he
    obtain ⟨f₀, hf₀, hchild⟩ := hsub e he
    have count : (Edge.countTo edges e.child : ℚ) ≠ 0 :=
      Nat.cast_ne_zero.2 (Nat.ne_of_gt (Edge.countTo_pos hf₀ hchild))
    have equal : ∀ f ∈ Edge.leadingTo edges e.child,
        e.probability / Edge.countTo edges f.child * g f.child =
          e.probability / Edge.countTo edges e.child * g e.child := by
      intro f hf
      have hfe := (List.mem_filter.1 hf).2
      rw [Edge.countTo_congr hfe, hg _ _ hfe]
    have reversed : ∀ f : Edge ℚ, (e.child == f.child) = (f.child == e.child) := fun _ => BEq.comm
    simp only [part, reversed]
    rw [sum_map_ite (fun f : Edge ℚ => f.child == e.child)]
    show ((Edge.leadingTo edges e.child).map _).sum = _
    rw [List.map_congr_left equal, List.map_const', List.sum_replicate, nsmul_eq_mul]
    show (Edge.countTo edges e.child : ℚ) * _ = _
    field_simp
  rw [List.map_congr_left parts, sum_map_sum_comm, List.map_congr_left whole]

/-- The children of a similar node are children of the node. -/
theorem Model.children_of_mem_similar {m : Model ℚ} (hd : m.nodes.Distinct) {index other : Datum ℚ}
    {others : List (Datum ℚ)} (h : m.similar.get? index = some others) (hother : other ∈ others) :
    ∃ n k, m.nodes.get? index = some n ∧ m.nodes.get? other = some k ∧
      ∀ e ∈ k.children, ∃ f ∈ n.children, (f.child == e.child) = true := by
  obtain ⟨e, he, hindex, rfl⟩ := Dict.exists_mem_of_get? h
  obtain ⟨entry, hentry, rfl⟩ := List.mem_map.1 he
  obtain ⟨found, hfound, rfl⟩ := List.mem_map.1 hother
  obtain ⟨hmem, hsimilar⟩ := List.mem_filter.1 hfound
  refine ⟨entry.2, found.2, (Dict.get?_eq_some_iff hd).2 ⟨entry, hentry, hindex, rfl⟩,
    (Dict.get?_eq_some_iff hd).2 ⟨found, hmem, BEq.rfl, rfl⟩, fun f hf => ?_⟩
  have all := (Bool.and_eq_true_iff.1 hsimilar).2
  have := List.all_eq_true.1 all f.child (List.mem_map_of_mem hf)
  obtain ⟨c, hc, hcf⟩ := List.contains_iff_exists_mem_beq.1 this
  obtain ⟨g, hg, rfl⟩ := List.mem_map.1 hc
  exact ⟨g, hg, BEq.symm hcf⟩

theorem Model.isEmpty_of_mem_similar {m : Model ℚ} (hd : m.nodes.Distinct) {index other : Datum ℚ}
    {others : List (Datum ℚ)} (h : m.similar.get? index = some others) (hother : other ∈ others)
    {k : Node ℚ} (hk : m.nodes.get? other = some k) : k.children.isEmpty = false := by
  obtain ⟨e, he, -, rfl⟩ := Dict.exists_mem_of_get? h
  obtain ⟨entry, -, rfl⟩ := List.mem_map.1 he
  obtain ⟨found, hfound, rfl⟩ := List.mem_map.1 hother
  obtain ⟨hmem, hsimilar⟩ := List.mem_filter.1 hfound
  cases ((Dict.get?_eq_some_iff hd).2 ⟨found, hmem, BEq.rfl, rfl⟩).symm.trans hk
  simpa using (Bool.and_eq_true_iff.1 (Bool.and_eq_true_iff.1 hsimilar).1).2

/-! ### Outcomes of a step -/

/-- The noise terms of a node; none if there is no such node. -/
def Model.noiseOf (m : Model ℚ) (c : Datum ℚ) : List (NoiseTerm ℚ) :=
  ((m.nodes.get? c).map (·.stage.noise)).getD []

theorem Model.noiseOf_congr (m : Model ℚ) {c d : Datum ℚ} (h : (c == d) = true) :
    m.noiseOf c = m.noiseOf d := by
  rw [noiseOf, noiseOf, Dict.get?_congr h]

theorem Model.noiseOf_declaration {m m' : Model ℚ} (h : m'.declaration = m.declaration)
    (c : Datum ℚ) : m'.noiseOf c = m.noiseOf c := by
  have same : ∀ m : Model ℚ, m.declaration.noiseOf c = m.noiseOf c := by
    intro m
    unfold noiseOf declaration
    rw [Dict.get?_mapValues, Option.map_map]
    rfl
  rw [← same m', h, same m]

namespace Session

variable {m : Model ℚ} {edges : List (Edge ℚ)}

/-- The child and the entry of its noise terms that every outcome of a step stands for. -/
def places (m : Model ℚ) (edges : List (Edge ℚ)) : Except (Failure ℚ) (List (Datum ℚ × ℕ)) := do
  let perEdge ← edges.mapM fun e => do
    let n ← m.node e.child
    return (List.range n.stage.noise.length).map fun k => (e.child, k)
  return perEdge.flatten

theorem noise_of_node {index : Datum ℚ} {n : Node ℚ} (h : m.node index = .ok n) :
    m.noiseOf index = n.stage.noise := by
  rw [Model.noiseOf, (Model.node_eq_ok.1 h).2]
  rfl

/-- The outcomes of a step are those of its edges, whose children exist. -/
theorem outcomes_eq_ok {steps : List (Datum ℚ × NoiseTerm ℚ × ℚ)}
    (h : outcomes m edges = .ok steps) :
    (∀ e ∈ edges, ∃ n, m.node e.child = .ok n) ∧
      steps = edges.flatMap fun e =>
        (m.noiseOf e.child).map fun t => (e.child, t, e.probability * t.probability) := by
  obtain ⟨perEdge, hperEdge, h⟩ := Except.bind_eq_ok.1 h
  cases h
  have lists := Except.map_eq_of_mapM hperEdge (k := id)
    (g := fun e => (m.noiseOf e.child).map fun t => (e.child, t, e.probability * t.probability))
    fun e _ list hlist => by
      obtain ⟨n, hn, hlist⟩ := Except.bind_eq_ok.1 hlist
      cases hlist
      rw [noise_of_node hn]
      rfl
  rw [List.map_id] at lists
  refine ⟨fun e he => ?_, by rw [lists, List.flatMap_def]⟩
  obtain ⟨list, -, hlist⟩ := Except.exists_of_mem_items hperEdge he
  obtain ⟨n, hn, -⟩ := Except.bind_eq_ok.1 hlist
  exact ⟨n, hn⟩

theorem places_eq_ok (h : ∀ e ∈ edges, ∃ n, m.node e.child = .ok n) :
    places m edges = .ok (placesOf m.noiseOf edges) := by
  refine Except.bind_eq_ok.2 ⟨edges.map fun e =>
    (List.range (m.noiseOf e.child).length).map fun k => (e.child, k), ?_, ?_⟩
  · rw [Except.mapM_eq_ok, List.forall₂_map_right_iff, List.forall₂_same]
    intro e he
    obtain ⟨n, hn⟩ := h e he
    exact Except.bind_eq_ok.2 ⟨n, hn, by rw [noise_of_node hn]; rfl⟩
  · rw [placesOf, List.flatMap_def]
    rfl

/-- Every place stands for its outcome. -/
theorem forall₂_placesOf (noise : Datum ℚ → List (NoiseTerm ℚ)) (edges : List (Edge ℚ)) :
    List.Forall₂ (fun place (step : Datum ℚ × NoiseTerm ℚ × ℚ) =>
        step.1 = place.1 ∧ (noise place.1)[place.2]? = some step.2.1)
      (placesOf noise edges) (edges.flatMap fun e =>
        (noise e.child).map fun t => (e.child, t, e.probability * t.probability)) := by
  induction edges with
  | nil => exact .nil
  | cons e rest ih =>
    unfold placesOf at ih ⊢
    rw [List.flatMap_cons, List.flatMap_cons]
    refine List.rel_append ?_ ih
    rw [List.forall₂_map_left_iff, List.forall₂_map_right_iff, List.forall₂_iff_get]
    refine ⟨List.length_range, fun k hk hk' => ?_⟩
    simp [List.getElem?_eq_getElem hk']

end Session

namespace Run

variable {solver : Solver ℚ} {run r : Run ℚ}

/-- The passes of a training run, and what comes between them, lead from one state of the run to
another. -/
inductive Reached (solver : Solver ℚ) (run : Run ℚ) : Run ℚ → Prop where
  | start : Reached solver run run
  | forward {r : Run ℚ} (before : Reached solver run r) :
      Reached solver run ((Run.forward solver).final r)
  | refineAt {β : Type} [Quantity β ℚ] {r : Run ℚ} (index : Datum ℚ) (state : State β)
      (before : Reached solver run r) :
      Reached solver run ((Run.refineAt solver index state).final r)
  | bound {r : Run ℚ} (state : State ℚ) (measure : Measure ℚ) (before : Reached solver run r) :
      Reached solver run ((onSession (Session.bound solver state measure)).final r)
  | clock {r : Run ℚ} (before : Reached solver run r) :
      Reached solver run ((onSession Session.readClock).final r)
  | stopwatch {r : Run ℚ} (note : Datum ℚ → Action ℚ (Timer ℚ) Unit)
      (before : Reached solver run r) : Reached solver run ((readStopwatch note).final r)

/-- The passes keep the settings of the run and what is declared of its model. -/
theorem Reached.keeping (h : Reached solver run r) :
    r.Keeping (fun m => m.declaration = run.session.model.declaration) run.settings := by
  induction h with
  | start => exact ⟨rfl, rfl⟩
  | forward _ ih =>
    exact (ensures_forward (P := fun _ => True) Model.keeps_declaration
      fun _ _ _ _ _ => trivial).final ih
  | refineAt index state _ ih => exact (declaration_refineAt index state).final ih
  | bound state measure _ ih =>
    exact (ensures_onSession (Session.ensures_bound Model.keeps_declaration state measure)).final ih
  | clock _ ih => exact (ensures_onSession Session.ensures_readClock).final ih
  | stopwatch note _ ih => exact (ensures_readStopwatch note).final ih

/-- What is known of the vector that refines a similar node `k` along the edges of a visited node:
its positions stand for the entries of the noise terms of the children, and its weights are as far
from the distribution of `k` as the edges are from being single. -/
structure Weighs (m : Model ℚ) (edges : List (Edge ℚ)) (k : Node ℚ)
    (results : List (ChildSolution ℚ)) (places : List (Datum ℚ × ℕ)) (vector : List ℚ) : Prop where
  places_eq : Session.places m edges = .ok places
  standing : List.Forall₂ (fun place c => c.child = place.1 ∧
    (m.noiseOf place.1)[place.2]? = some c.noise) places results
  length_eq : vector.length = places.length
  weight_eq : ∀ e ∈ k.children, ∀ (entry : ℕ) (t : NoiseTerm ℚ),
    (m.noiseOf e.child)[entry]? = some t →
      weightAt places vector e.child entry =
        Edge.countTo edges e.child * Edge.lastTo k.children e.child * t.probability
  weight_iff : ∀ e ∈ k.children, ∀ (entry : ℕ) (t : NoiseTerm ℚ),
    (m.noiseOf e.child)[entry]? = some t →
      (weightAt places vector e.child entry =
          Edge.totalTo k.children e.child * t.probability ↔
        Edge.countTo edges e.child * Edge.lastTo k.children e.child =
          Edge.totalTo k.children e.child ∨ t.probability = 0)
  mass_eq : (∀ e ∈ k.children, Edge.countTo edges e.child * Edge.lastTo k.children e.child =
      Edge.totalTo k.children e.child) →
    vector.sum = (k.children.map fun e =>
      e.probability * ((m.noiseOf e.child).map (·.probability)).sum).sum
  mass_eq_total : (∀ e ∈ k.children,
      Edge.countTo edges e.child * Edge.lastTo k.children e.child =
        Edge.totalTo k.children e.child ∧ ((m.noiseOf e.child).map (·.probability)).sum = 1) →
    vector.sum = (k.children.map (·.probability)).sum

/-- The vector that refines a similar node weighs every child by the last edge to it. -/
theorem probabilitiesAt_eq_weightsOf {m : Model ℚ} (hd : m.nodes.Distinct) {other : Datum ℚ}
    {k : Node ℚ} (hk : m.nodes.get? other = some k) {edges : List (Edge ℚ)}
    {steps : List (Datum ℚ × NoiseTerm ℚ × ℚ)}
    (hsteps : steps = edges.flatMap fun e =>
      (m.noiseOf e.child).map fun t => (e.child, t, e.probability * t.probability))
    {S : Datum ℚ → Datum ℚ → Solution ℚ → Prop} {results : List (ChildSolution ℚ)}
    (hall : List.Forall₂ (Session.Solves S) steps results) {settings : PassSettings ℚ}
    (hsettings : settings.transitions = transitionMap m.nodes) :
    probabilitiesAt settings other results =
      weightsOf m.noiseOf (fun c => Edge.lastTo k.children c) edges := by
  -- position by position, the weight is the transition times the noise
  have products : List.Forall₂ (fun (c : ChildSolution ℚ) (step : Datum ℚ × NoiseTerm ℚ × ℚ) =>
      settings.transitions.getD (other, c.child) 0 * c.noise.probability =
        Edge.lastTo k.children step.1 * step.2.1.probability) results steps := by
    refine hall.flip.imp fun c step h => ?_
    rw [h.child, h.noise, hsettings, transitionMap_getD hd hk]
  have lists := List.rel_map (P := Eq) (fun _ _ h => h) products
  rw [List.forall₂_eq_eq_eq] at lists
  unfold probabilitiesAt weightsOf
  rw [lists, hsteps, List.map_flatMap]
  simp only [List.map_map, Function.comp_def]

/-- The weights of a node whose children are among those of a visited node. -/
theorem weighs_of_children {m m' : Model ℚ} (hd : m.nodes.Distinct)
    (hdecl : m'.declaration = m.declaration) {edges : List (Edge ℚ)} {other : Datum ℚ} {k : Node ℚ}
    (hk : m.nodes.get? other = some k)
    (hsub : ∀ e ∈ k.children, ∃ f ∈ edges, (f.child == e.child) = true)
    {steps : List (Datum ℚ × NoiseTerm ℚ × ℚ)} (hsteps : Session.outcomes m' edges = .ok steps)
    {S : Datum ℚ → Datum ℚ → Solution ℚ → Prop} {results : List (ChildSolution ℚ)}
    (hall : List.Forall₂ (Session.Solves S) steps results) {settings : PassSettings ℚ}
    (hsettings : settings.transitions = transitionMap m.nodes) :
    ∃ places, Weighs m edges k results places (probabilitiesAt settings other results) := by
  obtain ⟨hexist, hflat⟩ := Session.outcomes_eq_ok hsteps
  have noise : m'.noiseOf = m.noiseOf := funext fun c => Model.noiseOf_declaration hdecl c
  rw [noise] at hflat
  have vector := probabilitiesAt_eq_weightsOf hd hk hflat hall hsettings
  have weight := @weightAt_weightsOf m.noiseOf (fun c => Edge.lastTo k.children c)
    (fun c d => m.noiseOf_congr) (fun c d => Edge.lastTo_congr) edges
  -- where edges are counted exactly, so is their mass
  have mass : (∀ e ∈ k.children, Edge.countTo edges e.child * Edge.lastTo k.children e.child =
      Edge.totalTo k.children e.child) → (probabilitiesAt settings other results).sum =
      (k.children.map fun e =>
        e.probability * ((m.noiseOf e.child).map (·.probability)).sum).sum := by
    intro h
    rw [vector, sum_weightsOf]
    exact sum_lastTo (g := fun c => ((m.noiseOf c).map (·.probability)).sum)
      (fun c d hcd => by rw [m.noiseOf_congr hcd]) hsub h
  refine ⟨placesOf m.noiseOf edges, ?_, ?_, ?_, ?_, ?_, mass, ?_⟩
  · refine Session.places_eq_ok fun e he => ?_
    obtain ⟨n, hn⟩ := hexist e he
    obtain ⟨n', hn', -⟩ := Model.node_of_declaration_eq hdecl.symm hn
    exact ⟨n', hn'⟩
  · have standing := Session.forall₂_placesOf m.noiseOf edges
    rw [← hflat] at standing
    exact forall₂_comp standing hall fun place step c h hc =>
      ⟨hc.child.trans h.1, by rw [hc.noise]; exact h.2⟩
  · rw [vector, weightsOf, placesOf, List.length_flatMap, List.length_flatMap]
    simp only [List.length_map, List.length_range]
  · intro e _ entry t ht
    rw [vector, weight ht]
  · intro e _ entry t ht
    rw [vector, weight ht, ← sub_eq_zero, ← sub_mul, mul_eq_zero, sub_eq_zero]
  · intro h
    rw [mass fun e he => (h e he).1]
    refine congrArg List.sum (List.map_congr_left fun e he => ?_)
    rw [(h e he).2, mul_one]

/-- **The weights of a similar node.** In every training run of a model that was built from a graph
that was built, after any calls, and at every refinement of a visited node: the vector that refines
a node that is similar to it gives an entry of the noise terms of a child the number of edges from
the visited node to the child times the probability of the last edge from the similar node to the
child times the probability of the entry. This is the distribution of the similar node iff that
product of edges is the probability to move to the child, or the entry is impossible. -/
theorem weight_probabilitiesAt {graph : Graph ℚ} {cuts : CutSettings ℚ} {sense : Datum ℚ}
    {plans : StagePlans ℚ} {m : Model ℚ} (hg : graph.Grown)
    (hm : Model.build graph cuts sense plans = .ok m) {solver : Solver ℚ} {draws : Draws ℚ}
    {clock stopwatch : Clock (Datum ℚ)} (calls : List (Call ℚ)) {options : TrainingOptions ℚ}
    {run r r₁ r₂ : Run ℚ}
    (hstart : Run.start (Session.afterAll solver ⟨m, draws, clock, stopwatch⟩ calls) options =
      .ok run)
    (hr : Reached solver run r) {β : Type} [Quantity β ℚ] {index : Datum ℚ} {state : State β}
    {n : Node ℚ} (hn : r.session.model.node index = .ok n) {results : List (ChildSolution ℚ)}
    (hsolve : Session.solveChildren n.children (·.session.model)
      (fun child noise => Run.solve solver child state noise true) r = .ok results r₁)
    (hrefine : Run.refine index state results (results.map (·.probability)) r₁ = .ok () r₂)
    {others : List (Datum ℚ)} (hothers : r₂.settings.similar.get? index = some others)
    {other : Datum ℚ} (hother : other ∈ others) :
    ∃ k places, m.nodes.get? other = some k ∧
      Weighs m n.children k results places (probabilitiesAt r₂.settings other results) := by
  have hd := Model.distinct_of_build hg hm
  obtain ⟨hsession, htransitions, hsimilar, -⟩ := start_eq_ok hstart
  have declared : run.session.model.declaration = m.declaration := by
    rw [hsession, Session.declaration_afterAll]
  have K := hr.keeping
  -- the solutions of the children are those of the outcomes that were declared
  have solved := Session.ensures_solveChildren n.children (·.session.model)
    (K := Keeping (fun m => m.declaration = run.session.model.declaration) run.settings)
    (P := fun steps => ∃ m' : Model ℚ, m'.declaration = m.declaration ∧
      Session.outcomes m' n.children = .ok steps)
    (fun s steps hs h => ⟨s.session.model, hs.1.trans declared, h⟩)
    fun child noise => declaration_solve solver child state noise true
  obtain ⟨K₁, steps, ⟨m', hm', hsteps⟩, hall⟩ := solved.ok K hsolve
  have K₂ := ((declaration_refine index state results _).ok K₁ hrefine).1
  -- the settings speak of the model as it was built
  have transitions : r₂.settings.transitions = transitionMap m.nodes := by
    rw [K₂.2, htransitions, ← hsession, ← Model.transitionMap_declaration, declared,
      Model.transitionMap_declaration]
  have similar : r₂.settings.similar = m.similar := by
    rw [K₂.2, hsimilar, ← hsession, ← Model.similar_declaration, declared,
      Model.similar_declaration]
  rw [similar] at hothers
  obtain ⟨n₀, k, hn₀, hk, hsub⟩ := Model.children_of_mem_similar hd hothers hother
  obtain ⟨n', hn', hdecl⟩ := Model.get?_of_declaration_eq (K.1.trans declared) hn₀
  rw [(Model.node_eq_ok.1 hn).2] at hn'
  cases hn'
  rw [← show n.children = n₀.children from congrArg (·.children) hdecl] at hsub
  obtain ⟨places, hplaces⟩ := weighs_of_children hd hm' hk hsub hsteps hall transitions
  exact ⟨k, places, hk, hplaces⟩

/-- The weights of a node with one edge to a child, refined along two edges to the child: they are
twice the distribution of the node. -/
theorem weight_probabilitiesAt_of_two_edges :
    ∃ (graph : Graph ℚ) (m : Model ℚ) (run r₂ : Run ℚ) (n k : Node ℚ) (other : Datum ℚ)
      (results : List (ChildSolution ℚ)) (places : List (Datum ℚ × ℕ)),
      Graph.ofEdges (.int 0) [.int 1, .int 2, .int 3]
        [(.int 0, .int 1, .real 1), (.int 1, .int 3, .real (1 / 4)),
          (.int 1, .int 3, .real (1 / 4)), (.int 2, .int 3, .real (1 / 4))] [] = .ok graph ∧
      Model.build graph ⟨.finite 0, .posInf, 0⟩ (.text "min") {} = .ok m ∧
      run.session.model.node (.int 1) = .ok n ∧ m.nodes.get? other = some k ∧
      Weighs m n.children k results places (probabilitiesAt r₂.settings other results) ∧
      (probabilitiesAt r₂.settings other results).sum = 1 / 2 ∧
      (k.children.map (·.probability)).sum = 1 / 4 := by
  let solver : Solver ℚ := fun _ => .optimal [0] 0 []
  let clock : Clock (Datum ℚ) := .ofReadings fun _ => .int 0
  have check : (do
      let graph ← Graph.ofEdges (.int 0) [.int 1, .int 2, .int 3]
        [(.int 0, .int 1, .real 1), (.int 1, .int 3, .real (1 / 4)),
          (.int 1, .int 3, .real (1 / 4)), (.int 2, .int 3, .real (1 / 4))] []
      let m ← Model.build graph ⟨.finite 0, .posInf, 0⟩ (.text "min") {}
      let run ← Run.start ⟨m, [], clock, clock⟩ .standard
      let n ← run.session.model.node (.int 1)
      let solved ← Action.answer (Session.solveChildren n.children (·.session.model)
        fun child noise => Run.solve solver child (⟨[]⟩ : State ℚ) noise true) run
      let refined ← Action.answer (Run.refine (.int 1) (⟨[]⟩ : State ℚ) solved.1
        (solved.1.map (·.probability))) solved.2
      let others ← (refined.2.settings.similar.get? (.int 1)).elim (.error .missingKey) .ok
      let other ← others.head?.elim (.error .missingKey) .ok
      let k ← (m.nodes.get? other).elim (.error .missingKey) .ok
      if (probabilitiesAt refined.2.settings other solved.1).sum = 1 / 2 ∧
        (k.children.map (·.probability)).sum = 1 / 4 then return () else .error .missingKey :
        Except (Failure ℚ) Unit).toBool = true := by
    decide +kernel
  simp only [Except.toBool_bind, Except.toBool_ite, Except.elim_eq_ok, Action.answer_eq_ok] at check
  obtain ⟨graph, hgraph, m, hm, run, hstart, n, hn, solved, hsolve, refined, hrefine, others,
    hothers, other, hother, k, hk, hsums⟩ := check
  obtain ⟨k', places, hk', hweighs⟩ := weight_probabilitiesAt (.ofEdges hgraph) hm [] hstart .start
    hn hsolve hrefine hothers
    (List.mem_of_head? hother)
  cases hk.symm.trans hk'
  exact ⟨graph, m, run, refined.2, n, k, other, solved.1, places, hgraph, hm, hn, hk', hweighs,
    hsums⟩

end Run

end Multistage
