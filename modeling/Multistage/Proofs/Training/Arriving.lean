import Multistage.Proofs.Sampling.Walk
import Multistage.Proofs.Training.Starting

/-!
# Where starting states come from

A state becomes a starting state of a node when a random walk arrives there in it, from the root or
along an edge. The state in which a walk that was cut short ended is left with the last node that
was visited, although it is the node after it where the walk was about to arrive.

## Main definitions

- `Run.Arrived`: where a state comes from.
- `Run.AllArrived`: all starting states have arrived.

## Main statements

- `Run.along_of_nextScenario`: the scenarios of a pass follow the edges of the graph.
- `Run.starting_arrived`: where the starting states of a node come from.
-/

namespace Multistage

variable {α : Type} [Scalar α] {solver : Solver α} {graph : Graph α} {cuts : CutSettings α}
  {sense : Datum α}
  {plans : StagePlans α} {m : Model α}

namespace Run

/-- The path of a random walk follows the edges of the graph, from the root on. -/
theorem along_of_nextScenario (hg : graph.Grown) (hm : Model.build graph cuts sense plans = .ok m)
    {r : Run α} (hdeclaration : r.session.model.declaration = m.declaration) {depth : ℤ}
    {stopsOnCycle : Datum α}
    (hscheme : r.scheme = .randomWalk depth stopsOnCycle) {scenario : Scenario α}
    (hnext : r.nextScenario = .ok scenario) :
    (∀ visit ∈ scenario.path.head?, graph.Leads graph.root visit.node) ∧
      scenario.path.IsChain fun v w => graph.Leads v.node w.node := by
  obtain ⟨⟨found, draws⟩, hfound, rfl⟩ := Except.map_eq_ok.1 hnext
  have walked := Action.answer_eq_ok.1 hfound
  rw [hscheme, ← Scheme.sample_declaration, hdeclaration, Scheme.sample_declaration,
    Scheme.sample_randomWalk_eq] at walked
  have begun : m.Underway depth stopsOnCycle.truth r.session.draws [] r.session.draws :=
    ⟨⟨.start, fun hdepth => hdepth.le, fun _ => .nil⟩, fun hdepth => hdepth⟩
  have ends : m.WalkEnds depth stopsOnCycle.truth r.session.draws
      (walk m depth stopsOnCycle.truth r.session.draws) :=
    Model.walkFrom_ends hg hm begun (Nat.lt_succ_self _)
  split at walked
  next s rest heq =>
    cases walked
    rw [heq] at ends
    obtain ⟨left, sampled⟩ := ends
    exact sampled.walks.along hg hm
  next => cases walked

/-- A state of a node is the state at the root, from which an edge leads to the node, or a pass left
a node in it from which an edge leads to the node; or a pass that was cut short ended in it at the
node. -/
def Arrived (solver : Solver α) (graph : Graph α) (initial : State α) (passes : List (Run α))
    (i : Datum α) (x : State α) : Prop :=
  x = initial ∧ graph.Leads graph.root i ∨
    ∃ pass ∈ passes, ∃ scenario k p, pass.PassesThrough solver scenario k p ∧
      p.solution.outgoing = x ∧
      (graph.Leads p.visit.node i ∨
        scenario.cutShort = true ∧ k + 1 = scenario.path.length ∧ (p.visit.node == i) = true)

variable {initial : State α} {passes : List (Run α)} {i j : Datum α} {x : State α}

theorem Arrived.congr (hij : (i == j) = true) (h : Arrived solver graph initial passes i x) :
    Arrived solver graph initial passes j x := by
  rcases h with ⟨rfl, hleads⟩ | ⟨pass, hpass, scenario, k, p, through, hx, hleads | ⟨hcut, hk, hi⟩⟩
  · exact .inl ⟨rfl, hleads.congr BEq.rfl hij⟩
  · exact .inr ⟨pass, hpass, scenario, k, p, through, hx, .inl (hleads.congr BEq.rfl hij)⟩
  · exact .inr ⟨pass, hpass, scenario, k, p, through, hx, .inr ⟨hcut, hk, BEq.trans hi hij⟩⟩

theorem Arrived.mono {passes' : List (Run α)} (hsub : passes ⊆ passes')
    (h : Arrived solver graph initial passes i x) : Arrived solver graph initial passes' i x :=
  h.imp_right fun ⟨pass, hpass, hrest⟩ => ⟨pass, hsub hpass, hrest⟩

/-- All starting states have arrived. -/
def AllArrived (solver : Solver α) (graph : Graph α) (initial : State α) (passes : List (Run α))
    (c : Cache α) : Prop :=
  ∀ i states, c.get? i = some states → ∀ x ∈ states, Arrived solver graph initial passes i x

variable {c c' : Cache α} {settings : PassSettings α} {index : Datum α} {state : State α}

theorem AllArrived.offered (h : AllArrived solver graph initial passes c)
    (harrived : Arrived solver graph initial passes index state)
    (hoffered : Offered settings index state c c') :
    AllArrived solver graph initial passes c' := by
  intro i states hi x hx
  cases hoffered with
  | near => exact h i states hi x hx
  | far found measured exceeds =>
    rw [Dict.get?_modify] at hi
    split at hi
    next hindex =>
      obtain ⟨old, hold, rfl⟩ := Option.map_eq_some_iff.1 hi
      rcases List.mem_append.1 hx with hx | hx
      · exact h i old hold x hx
      · cases List.mem_singleton.1 hx
        exact harrived.congr hindex
    next => exact h i states hi x hx

theorem AllArrived.entered (h : AllArrived solver graph initial passes c)
    (harrived : Arrived solver graph initial passes index state)
    (hentered : Entered settings index state c c') :
    AllArrived solver graph initial passes c' := by
  cases hentered with
  | untouched => exact h
  | exchanged offered found inside =>
    intro i states hi x hx
    rw [Dict.get?_modify] at hi
    split at hi
    · obtain ⟨old, hold, rfl⟩ := Option.map_eq_some_iff.1 hi
      exact h.offered harrived offered i old hold x (List.mem_of_mem_eraseIdx hx)
    · exact h.offered harrived offered i states hi x hx

/-- One more pass, along a random walk. -/
theorem AllArrived.forward (hg : graph.Grown) (hm : Model.build graph cuts sense plans = .ok m)
    {r : Run α} (hdeclaration : r.session.model.declaration = m.declaration)
    (hscheme : ∃ depth stopsOnCycle, r.scheme = .randomWalk depth stopsOnCycle)
    (hdraws : ∀ t, forward solver r ≠ .error .drawsExhausted t)
    (h : AllArrived solver graph r.settings.initial passes r.starting) :
    AllArrived solver graph r.settings.initial (passes ++ [r])
      ((Run.forward solver).final r).starting := by
  obtain ⟨depth, stopsOnCycle, hscheme⟩ := hscheme
  have along : ∀ scenario, r.nextScenario = .ok scenario → _ := fun scenario =>
    along_of_nextScenario hg hm hdeclaration hscheme
  have within : r ∈ passes ++ [r] := List.mem_append_right _ (List.mem_singleton_self r)
  have before : AllArrived solver graph r.settings.initial (passes ++ [r]) r.starting :=
    fun i states hi x hx =>
    (h i states hi x hx).mono (List.subset_append_left _ _)
  have entering :
      ∀ {index state c c'}, Arrived solver graph r.settings.initial (passes ++ [r]) index state →
      Entered r.settings index state c c' →
      AllArrived solver graph r.settings.initial (passes ++ [r]) c →
        AllArrived solver graph r.settings.initial (passes ++ [r]) c' :=
    fun harrives hentered hI => hI.entered harrives hentered
  have first : ∀ scenario, r.nextScenario = .ok scenario → ∀ visit ∈ scenario.path.head?,
      Arrived solver graph r.settings.initial (passes ++ [r]) visit.node r.settings.initial :=
    fun scenario hnext visit hvisit => .inl ⟨rfl, (along scenario hnext).1 visit hvisit⟩
  have later : ∀ scenario k p next, r.PassesThrough solver scenario k p →
      scenario.path[k + 1]? = some next →
      Arrived solver graph r.settings.initial (passes ++ [r]) next.node p.solution.outgoing := by
    intro scenario k p next through hk
    obtain ⟨found, hvisit⟩ := through.visit
    obtain ⟨inside, rfl⟩ := List.getElem?_eq_some_iff.1 hk
    have leads := List.isChain_iff_getElem.1 (along scenario found).2 k inside
    rw [(List.getElem?_eq_some_iff.1 hvisit).2] at leads
    exact .inr ⟨r, within, scenario, k, p, through, rfl, .inl leads⟩
  obtain ⟨-, c, arrived, heq | ⟨scenario, k, p, through, hcut, hk, offered⟩⟩ :=
    forward_keeps entering ⟨before, rfl⟩ first later hdraws
  · exact heq ▸ arrived
  · exact arrived.offered
      (.inr ⟨r, within, scenario, k, p, through, rfl, .inr ⟨hcut, hk, BEq.rfl⟩⟩) offered

end Run

/-- Where the starting states of a node come from, whatever forward passes along random walks a run
has seen: the state at the root if an edge leads from there to the node, a state in which a pass
left a node from which an edge leads to the node, or a state in which a pass that was cut short
ended, at this very node. -/
theorem Run.starting_arrived (hg : graph.Grown) (hm : Model.build graph cuts sense plans = .ok m)
    {session : Session α} (hsession : session.model.declaration = m.declaration)
    {options : TrainingOptions α} {passes : List (Run α)} {r : Run α}
    (h : Course solver session options passes r)
    (hwalks : ∀ pass ∈ passes, ∃ depth stopsOnCycle, pass.scheme = .randomWalk depth stopsOnCycle)
    {i : Datum α} {states : List (State α)} (hi : r.starting.get? i = some states) :
    ∀ x ∈ states, x = m.initial ∧ graph.Leads graph.root i ∨
      ∃ pass ∈ passes, ∃ scenario k p, pass.PassesThrough solver scenario k p ∧
        p.solution.outgoing = x ∧
        (graph.Leads p.visit.node i ∨
          scenario.cutShort = true ∧ k + 1 = scenario.path.length ∧
          (p.visit.node == i) = true) := by
  suffices all : AllArrived solver graph r.settings.initial passes r.starting ∧
      r.settings.initial = session.model.initial by
    rw [← Model.initial_of_declaration_eq hsession, ← all.2]
    exact all.1 i states hi
  clear hi
  induction h with
  | start starts =>
    obtain ⟨hstarting, hinitial, -⟩ := starting_of_start starts
    refine ⟨fun i states hi x hx => ?_, hinitial⟩
    rw [hstarting, Dict.get?_mapValues] at hi
    obtain ⟨_, -, rfl⟩ := Option.map_eq_some_iff.1 hi
    cases hx
  | @forward passes r before draws ih =>
    obtain ⟨arrived, hinitial⟩ := ih fun pass hpass => hwalks pass (List.mem_append_left _ hpass)
    have arrived' := arrived.forward hg hm (before.declaration_eq.trans hsession)
      (hwalks r (List.mem_append_right _ (List.mem_singleton_self r))) draws
    obtain ⟨r₀, hstart⟩ := before.exists_start
    have same := (before.forward draws).settings_eq hstart
    rw [← before.settings_eq hstart] at same
    exact ⟨same ▸ arrived', same ▸ hinitial⟩
  | between _ starting settings _ ih =>
    rw [starting, settings]
    exact ih hwalks

/-- One pass on two nodes that lead to each other, which stops on cycles: it goes to both of them,
and the state in which it ends is left with the second, where it ended, although the walk was about
to arrive at the first. -/
theorem Run.starting_of_cycle :
    ∃ (graph : Graph ℚ) (m : Model ℚ) (r : Run ℚ) (x : State ℚ),
      Graph.ofEdges (.int 0) [.int 1, .int 2]
        [(.int 0, .int 1, .real 1), (.int 1, .int 2, .real 1), (.int 2, .int 1, .real (1 / 2))] [] =
        .ok graph ∧
      Model.build graph ⟨.finite 0, .posInf, 0⟩ (.text "min") ⟨[], carrying 10⟩ = .ok m ∧
      (let session : Session ℚ :=
        ⟨m, [0, 0, 0, 0, 0], .ofReadings fun _ => .int 0, .ofReadings fun _ => .int 0⟩
      let options := { TrainingOptions.standard with scheme := .randomWalk 0 (.bool true) }
      Run.start session options = .ok r ∧
        ((Run.forward carryingSolver).final r).starting.get? (.int 1) = some [] ∧
        ((Run.forward carryingSolver).final r).starting.get? (.int 2) = some [x] ∧
        (x = m.initial ∧ graph.Leads graph.root (.int 2) ∨
          ∃ pass ∈ [r], ∃ scenario k p, pass.PassesThrough carryingSolver scenario k p ∧
            p.solution.outgoing = x ∧ (graph.Leads p.visit.node (.int 2) ∨
              scenario.cutShort = true ∧ k + 1 = scenario.path.length ∧
                (p.visit.node == .int 2) = true))) := by
  let start (m : Model ℚ) : Session ℚ :=
    ⟨m, [0, 0, 0, 0, 0], .ofReadings fun _ => .int 0, .ofReadings fun _ => .int 0⟩
  let options : TrainingOptions ℚ :=
    { TrainingOptions.standard with scheme := .randomWalk 0 (.bool true) }
  have check : (do
      let graph ← Graph.ofEdges (.int 0) [.int 1, .int 2]
        [(.int 0, .int 1, .real 1), (.int 1, .int 2, .real 1), (.int 2, .int 1, .real (1 / 2))] []
      let m ← Model.build graph ⟨.finite 0, .posInf, 0⟩ (.text "min") ⟨[], carrying 10⟩
      let r ← Run.start (start m) options
      let passed ← (Run.forward carryingSolver).answer r
      let first ← (passed.2.starting.get? (.int 1)).elim (.error .missingKey) .ok
      let second ← (passed.2.starting.get? (.int 2)).elim (.error .missingKey) .ok
      if first.length = 0 ∧ second.length = 1 then return () else .error .missingKey
      : Except (Failure ℚ) Unit).toBool = true := by
    decide +kernel
  simp only [Except.toBool_bind, Except.toBool_ite, Except.elim_eq_ok, Action.answer_eq_ok] at check
  obtain ⟨graph, hgraph, m, hm, r, hr, ⟨result, r'⟩, passed, first, hfirst', second, hsecond',
    h⟩ := check
  have final : (Run.forward carryingSolver).final r = r' := Action.final_of_ok passed
  have course :
      Course carryingSolver (start m) options [r] ((Run.forward carryingSolver).final r) :=
    .forward (.start hr) fun t ht => nomatch passed.symm.trans ht
  have hscheme : r.scheme = .randomWalk 0 (.bool true) := (starting_of_start hr).2.2.1
  obtain ⟨x, hx⟩ := List.length_eq_one_iff.1 h.2
  rw [hx, ← final] at hsecond'
  rw [List.length_eq_zero_iff.1 h.1, ← final] at hfirst'
  refine ⟨graph, m, r, x, hgraph, hm, hr, hfirst', hsecond', ?_⟩
  exact starting_arrived (Graph.Grown.ofEdges hgraph) hm rfl course
    (fun pass hpass => ⟨0, .bool true, List.mem_singleton.1 hpass ▸ hscheme⟩) hsecond' x
    (List.mem_singleton_self x)

end Multistage
