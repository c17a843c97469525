import Multistage.Proofs.Node.Agreeing
import Multistage.Proofs.Session.Settling
import Multistage.Proofs.Training.Lockstep

/-!
# Backward steps

In a backward step all children of a node are solved, and the node is refined with their solutions.
Similar nodes may be refined as well. The cut that the node records is made of what the solves of
its children find one by one, and it stays where it was recorded.

## Main definitions

- `Session.stepCut`: the cut that a backward step makes, and its height.
- `Run.Recorded`: the node has the cut that a backward step finds.

## Main statements

- `Session.settles_stepCut`, `Session.found_stepCut`: the cut, made of what the solves find one by
  one.
- `Run.recorded_refineAt`: the cut that a backward step records, however it ends.
-/

namespace Multistage

open Multistage.Action (Settles)

namespace Session

variable {m₀ : Model ℚ} {edges : List (Edge ℚ)} {solver : Solver ℚ}
  {find : Datum ℚ → Datum ℚ → Option (Solution ℚ)}

/-- The cut that a backward step makes at a state, with its height: all children are solved, and a
measure weighs their solutions. -/
def stepCut (solver : Solver ℚ) (edges : List (Edge ℚ)) (measure : Measure ℚ) (x : State ℚ) :
    Action ℚ (Session ℚ) (Cut ℚ × ℚ) := do
  let results ← solveChildren edges (·.model) fun child noise => solve solver child x noise true
  let sense := (← get).model.sense
  Action.ofExcept
    (Node.newCut sense measure x (results.map (·.solution.duals)) (results.map (·.probability))
    (results.map (·.solution.objective)))

/-- The cut is made of what the solves of the children find one by one. -/
theorem settles_stepCut {I : Model ℚ → Prop} (hdecl : ∀ m, I m → m.declaration = m₀.declaration)
    {x : State ℚ}
    (hsolve : ∀ child noise, Settles I (Model.solve solver child x noise true) (find child noise))
    (measure : Measure ℚ) :
    Settles (fun s : Session ℚ => I s.model) (stepCut solver edges measure x)
      ((foundChildren m₀ edges find).bind fun results =>
        (Node.newCut m₀.sense measure x (results.map (·.solution.duals))
          (results.map (·.probability))
          (results.map (·.solution.objective))).toOption) := by
  refine .bind (settles_solveChildren (fun s hs => hdecl _ hs) fun child noise =>
    .focus (hsolve child noise) (fun _ => id) fun _ _ _ => id) fun results _ =>
      .get_bind fun s hs => ?_
  rw [Model.sense_of_declaration_eq (hdecl _ hs)]
  exact .ofExcept _

/-- The cut of a backward step in a model in use. -/
theorem found_stepCut (hblank : ∀ index start, m₀.nodes.get? index = some start → start.Blank)
    {s : Session ℚ}
    (hs : m₀.Throughout (fun _ start n => Node.Operating solver m₀.sense start n) s.model)
    (hsolver : solver.IgnoresOrder) (edges : List (Edge ℚ)) (measure : Measure ℚ) (x : State ℚ) :
    (stepCut solver edges measure x).found s =
      (foundChildren m₀ edges (s.model.solutionOf solver x)).bind fun results =>
        (Node.newCut m₀.sense measure x (results.map (·.solution.duals))
          (results.map (·.probability))
          (results.map (·.solution.objective))).toOption :=
  (settles_stepCut (fun u (hu : m₀.Inspected s.model u) => hu.declaration)
    (fun child noise => Model.settles_solve hblank hs hsolver child x noise true) measure).found_eq
      (Model.inspected_of_operating hblank hs)

end Session

namespace Run

variable {m₀ : Model ℚ} {solver : Solver ℚ} {index : Datum ℚ} {x : State ℚ}
  {settings : PassSettings ℚ}
  {readings : ℕ → Datum ℚ}

/-! ### Times -/

/-- The stopwatch has given readings, given sections are open, and the user never stops the run. -/
def Timed (readings : ℕ → Datum ℚ) (running : List (OpenSection ℚ)) (r : Run ℚ) : Prop :=
  r.session.stopwatch.reading = readings ∧ r.timer.running = running ∧ r.patience = none

/-- An action finds the same when its time is taken, if differences of times are numbers. -/
theorem settles_timed (hreadings : Clock.Measures readings) {J : Run ℚ → Prop}
    (hJ : ∀ r stopwatch timer, J r → J (retimed stopwatch timer r)) {τ : Type}
    {act : Action ℚ (Run ℚ) τ} {answer : Option τ}
    (h : ∀ running, Settles (fun r => J r ∧ r.Timed readings running) act answer)
    (part : RunSection) (running : List (OpenSection ℚ)) :
    Settles (fun r => J r ∧ r.Timed readings running) (timed part act) answer := by
  refine Action.Triple.of_forall fun r ⟨hr, hreading, hrunning, hpatience⟩ => ?_
  let opened : OpenSection ℚ := ⟨.text part.name, some r.session.stopwatch.read.1⟩
  let entered : Run ℚ :=
    retimed r.session.stopwatch.read.2 { r.timer with running := opened :: r.timer.running } r
  have henter :
      readStopwatch (fun time => Timer.enter (.text part.name) (.ok time)) r = .ok () entered := rfl
  have inside : J entered ∧ entered.Timed readings (opened :: running) :=
    ⟨hJ _ _ _ hr, hreading, congrArg (opened :: ·) hrunning, hpatience⟩
  refine .run henter
    (Action.Triple.startingAt (Settles.tryFinally (h (opened :: running)) ?_) inside)
  refine .of_forall fun t ⟨ht, hreading', hrunning', hpatience'⟩ => ?_
  obtain ⟨d, y, hd, hy⟩ := hreadings t.session.stopwatch.reads r.session.stopwatch.reads
  rw [← congrFun hreading', ← congrFun hreading] at hd
  obtain ⟨timer, hleave, houter⟩ := Timer.leave_eq_ok hrunning' hd hy
  have left : readStopwatch (fun time => Timer.leave (.ok time)) t =
      .ok () (retimed t.session.stopwatch.read.2 timer t) :=
    (readStopwatch_eq _ t).trans (Action.focus_eq_ok.2 ⟨timer, hleave, rfl⟩)
  rintro _ rfl
  rw [left]
  exact ⟨hJ _ _ _ ht, hreading', houter, hpatience'⟩

/-! ### Solving the children -/

section Operating

variable (hblank : ∀ index start, m₀.nodes.get? index = some start → start.Blank) {m : Model ℚ}
  (hm : m₀.Throughout (fun _ start n => Node.Operating solver m₀.sense start n) m)

include hblank hm

/-- Solving the children in a run finds what the solves find one by one. -/
theorem settles_foundChildren (hsolver : solver.IgnoresOrder) (hreadings : Clock.Measures readings)
    (settings : PassSettings ℚ) (running : List (OpenSection ℚ)) (edges : List (Edge ℚ))
    (x : State ℚ) :
    Settles (fun r => Keeping (m₀.Inspected m) settings r ∧ r.Timed readings running)
      (Session.solveChildren edges (·.session.model) fun child noise =>
        solve solver child x noise true)
      (Session.foundChildren m₀ edges (m.solutionOf solver x)) := by
  refine Session.settles_solveChildren (fun r hr => hr.1.1.declaration) fun child noise => ?_
  refine settles_timed hreadings (fun _ _ _ => id) (fun running => ?_) _ running
  have solved :
      Settles (fun s : Session ℚ => m₀.Inspected m s.model ∧ s.stopwatch.reading = readings)
      (Session.solve solver child x noise true) (m.solutionOf solver x child noise) :=
    .focus (Model.settles_solve hblank hm hsolver child x noise true) (fun _ => And.left)
      fun _ _ hs ht => ⟨ht, hs.2⟩
  have performed : Settles (fun r => Keeping (m₀.Inspected m) settings r ∧ r.Timed readings running)
      (onSession (Session.solve solver child x noise true)) (m.solutionOf solver x child noise) :=
    .focus solved (fun r hr => ⟨hr.1.1, hr.2.1⟩) fun r s hr hs => ⟨⟨hs.1, hr.1.2⟩, hs.2, hr.2.2⟩
  refine Action.Triple.of_forall fun r hr => ?_
  exact .run (heed_of_patience hr.2.2.2) (Action.Triple.startingAt performed hr)

omit hm in
/-- Solves keep the cuts of all nodes, whether they fail or not. -/
theorem keeps_cuts {n : Node ℚ} :
    Model.Keeps solver (m₀.Throughout fun j start k => Node.Used m₀.sense start [] k ∧
      ((index == j) = true → k.cuts = n.cuts)) fun _ _ _ _ _ => True := by
  refine Model.throughout_solve (fun j start hs noise x needsDuals => ?_) fun _ => id
  refine Action.Triple.of_forall fun k hk =>
    (Node.triple_solve (hblank j start hs) hk.1 needsDuals).consequence (fun _ => id) ?_ ?_
  · rintro _ k' ⟨⟨used, same⟩, -⟩
    exact ⟨⟨used, fun hij => same.cuts.trans (hk.2 hij)⟩, trivial⟩
  · rintro k' ⟨used, same⟩
    exact ⟨used, fun hij => same.cuts.trans (hk.2 hij)⟩

end Operating

/-! ### Refining -/

/-- The run with another node at an index. -/
def withNode (r : Run ℚ) (index : Datum ℚ) (n : Node ℚ) : Run ℚ :=
  { r with session := { r.session with model :=
    { r.session.model with nodes := r.session.model.nodes.modify index fun _ => n } } }

/-- Refining a known node in a run. -/
theorem triple_refine_node {r : Run ℚ} {n : Node ℚ} {measure : Measure ℚ}
    (hpatience : r.patience = none) (hmeasure : r.settings.measures.get? index = some measure)
    (hn : r.session.model.node index = .ok n)
    {results : List (ChildSolution ℚ)} {probabilities : List ℚ} {Q E : Node ℚ → Prop}
    (h : Action.Triple (· = n)
      (Node.refine r.session.model.sense measure x (results.map (·.solution.duals))
      probabilities (results.map (·.solution.objective))) (fun _ => Q) E) :
    Action.Triple (· = r) (refine index x results probabilities)
      (fun _ t => ∃ n', t = r.withNode index n' ∧ Q n') fun t =>
      ∃ n', t = r.withNode index n' ∧ E n' := by
  have known : measureOf index r = .ok measure r := by
    show (Action.ofOption .missingKey (r.settings.measures.get? index) : Action ℚ (Run ℚ)
        (Measure ℚ)) r = _
    rw [hmeasure]
    rfl
  refine .run (heed_of_patience hpatience) (.run known (.get_bind ?_))
  rintro _ rfl
  refine (Action.Triple.focus (Action.Triple.focus (Model.triple_onNode hn h))).consequence
    (fun _ => id) ?_ ?_
  · rintro _ _ ⟨_, rfl, _, rfl, n', rfl, hQ⟩
    exact ⟨n', rfl, hQ⟩
  · rintro _ ⟨_, rfl, _, rfl, n', rfl, hE⟩
    exact ⟨n', rfl, hE⟩

theorem get?_withNode {r : Run ℚ} {n n' : Node ℚ} (hn : r.session.model.nodes.get? index = some n) :
    (r.withNode index n').session.model.nodes.get? index = some n' := by
  rw [withNode, Dict.get?_modify, if_pos BEq.rfl, hn]
  rfl

/-- At an index the first cuts that were recorded are known. -/
def Records (index : Datum ℚ) (planes : List (ℚ × State ℚ)) (j : Datum ℚ) (_ k : Node ℚ) : Prop :=
  (index == j) = true → planes <+: k.cuts.pool.cuts.map Cut.plane

/-- What was recorded stays where it is when nodes are refined. -/
theorem ensures_refine_records (planes : List (ℚ × State ℚ)) (other : Datum ℚ)
    (results : List (ChildSolution ℚ)) (probabilities : List ℚ) :
    Action.Ensures (Keeping (m₀.Throughout (Records index planes)) settings)
      (refine other x results probabilities) fun _ => True := by
  refine throughout_refine fun j start measure _ _ _ => ?_
  by_cases hij : (index == j) = true
  · exact (Node.recorded_refine Cut.plane_congr planes measure x _ probabilities _).consequence
      (fun _ h => h hij)
      (fun _ _ h => ⟨fun _ => h.1, trivial⟩) fun _ h _ => h
  · exact .of_final fun _ _ hij' => absurd hij' hij

/-- What was recorded stays where it is when similar nodes are refined. -/
theorem ensures_similar_records (planes : List (ℚ × State ℚ)) (results : List (ChildSolution ℚ)) :
    Action.Ensures (Keeping (m₀.Throughout (Records index planes)) settings) (do
      let settings := (← get).settings
      if settings.refinesSimilar then
        let others ← Action.ofOption .missingKey (settings.similar.get? index)
        others.forM fun other => refine other x results (probabilitiesAt settings other results))
          fun _ => True := by
  refine .bind .get fun r _ => .ite (fun _ => ?_) fun _ => .pure trivial
  exact .bind (.ofOption (R := fun _ => True) fun _ _ => trivial) fun others _ =>
    .forM fun other _ =>
    ensures_refine_records planes other results _

/-- After the cuts of a node there is what a backward step finds, or nothing if it finds nothing. -/
def Recorded (index : Datum ℚ) (n : Node ℚ) (found : Option (Cut ℚ × ℚ)) (t : Run ℚ) : Prop :=
  ∃ k, t.session.model.nodes.get? index = some k ∧
    (k.cuts.pool.cuts.map Cut.plane)[n.cuts.pool.cuts.length]? = found.map fun a => a.1.plane

theorem recorded_none {n k : Node ℚ} {t : Run ℚ} (hk : t.session.model.nodes.get? index = some k)
    (same : k.cuts = n.cuts) : Recorded index n none t := ⟨k, hk, by rw [same]; simp⟩

theorem recorded_of_append {n k : Node ℚ} {found : Option (Cut ℚ × ℚ)} {t : Run ℚ}
    {rest : List (ℚ × State ℚ)} (hk : t.session.model.nodes.get? index = some k)
    (h : k.cuts.pool.cuts.map Cut.plane =
      n.cuts.pool.cuts.map Cut.plane ++ (found.map fun a => a.1.plane).toList ++ rest)
    (hrest : found = none → rest = []) : Recorded index n found t := by
  refine ⟨k, hk, ?_⟩
  rw [h, List.append_assoc, List.getElem?_append_right (by simp), List.length_map, Nat.sub_self]
  cases found with
  | none => rw [hrest rfl]; rfl
  | some a => rfl

/-- A known node that is refined has its new cut after those that were there, also if the refinement
fails after the cut was made. -/
theorem triple_refine_recorded {r : Run ℚ} {k : Node ℚ} {measure : Measure ℚ}
    {before : List (ℚ × State ℚ)}
    (hpatience : r.patience = none) (hdecl : r.session.model.declaration = m₀.declaration)
    (hk : r.session.model.node index = .ok k)
    (hmeasure : r.settings.measures.get? index = some measure) {results : List (ChildSolution ℚ)}
    {probabilities : List ℚ} {made : Except (Failure ℚ) (Cut ℚ × ℚ)}
    (hmade : Node.newCut m₀.sense measure x (results.map (·.solution.duals)) probabilities
      (results.map (·.solution.objective)) = made)
    (hcovers : ∀ cut, made = .ok cut → ∃ l, k.cutConstraint m₀.sense cut.1 = .ok l)
    (hbefore : k.cuts.pool.cuts.map Cut.plane = before) :
    Action.Triple (· = r) (refine index x results probabilities)
      (fun _ t => ∃ a, made = .ok a ∧
        Keeping (m₀.Throughout (Records index (before ++ [a.1.plane]))) r.settings t)
      fun t => ∃ k', t.session.model.nodes.get? index = some k' ∧
        k'.cuts.pool.cuts.map Cut.plane =
          before ++ (made.toOption.map fun a => a.1.plane).toList := by
  have refined :
      Action.Triple (· = k)
        (Node.refine r.session.model.sense measure x (results.map (·.solution.duals))
      probabilities (results.map (·.solution.objective)))
      (fun _ n' => n'.declaration = k.declaration ∧ ∃ a, made = .ok a ∧
        n'.cuts.pool.cuts.map Cut.plane = before ++ [a.1.plane])
      fun n' => n'.cuts.pool.cuts.map Cut.plane =
        before ++ (made.toOption.map fun a => a.1.plane).toList := by
    rw [Model.sense_of_declaration_eq hdecl, ← hbefore]
    refine .of_cases ?_ ?_
    · rintro _ _ n' rfl hrun
      obtain ⟨⟨c, height, hcut, hrecorded⟩, -⟩ :=
        (Node.triple_refine_recorded Cut.plane_congr measure x _ _ _).ok rfl hrun
      have declared :=
        ((Node.declaration_refine m₀.sense measure x (results.map (·.solution.duals)) probabilities
        (results.map (·.solution.objective))).ok rfl hrun).1
      exact ⟨declared, (c, height), hmade.symm.trans hcut, hrecorded⟩
    · rintro _ e n' rfl hrun
      have recorded := (Node.triple_refine_recorded Cut.plane_congr measure x _ _ _).error rfl hrun
      rw [hmade] at recorded
      exact recorded hcovers
  refine (triple_refine_node hpatience hmeasure hk refined).consequence (fun _ => id) ?_ ?_
  · rintro _ _ ⟨n', rfl, declared, a, ha, hrecorded⟩
    refine ⟨a, ha, ⟨(Model.declaration_put hk declared).trans hdecl, fun j _ l _ hl hij => ?_⟩, rfl⟩
    rw [withNode, Dict.get?_modify, if_pos hij] at hl
    obtain ⟨_, -, rfl⟩ := Option.map_eq_some_iff.1 hl
    rw [hrecorded]
  · rintro _ ⟨n', rfl, hrecorded⟩
    exact ⟨n', get?_withNode (Model.node_eq_ok.1 hk).2, hrecorded⟩

section Stepping

variable (hblank : ∀ index start, m₀.nodes.get? index = some start → start.Blank)
  (hsolver : solver.IgnoresOrder)
  {r : Run ℚ} (hm : m₀.Throughout
    (fun _ start n => Node.Operating solver m₀.sense start n) r.session.model)
  {n : Node ℚ} (hn : r.session.model.node index = .ok n)

include hblank hsolver hm hn

/-- Solving the children of a node finds what the solves find one by one, and keeps the cuts of the
node. -/
theorem triple_solveChildren (hwatch : Clock.Measures r.session.stopwatch.reading)
    (hpatience : r.patience = none) (x : State ℚ) :
    Action.Triple (· = r)
      (Session.solveChildren n.children (·.session.model) fun child noise =>
        solve solver child x noise true)
      (fun results t => Session.foundChildren m₀ n.children (r.session.model.solutionOf solver x) =
        some results ∧
        Keeping (m₀.Inspected r.session.model) r.settings t ∧ t.patience = none)
      fun t => Session.foundChildren m₀ n.children (r.session.model.solutionOf solver x) = none ∧
        ∃ k, t.session.model.nodes.get? index = some k ∧ k.cuts = n.cuts := by
  obtain ⟨-, hget⟩ := Model.node_eq_ok.1 hn
  obtain ⟨start, hs, -⟩ := Model.get?_of_declaration_eq hm.declaration.symm hget
  have settled :=
    settles_foundChildren hblank hm hsolver hwatch r.settings r.timer.running n.children x
  have before : Keeping (m₀.Inspected r.session.model) r.settings r ∧
      r.Timed r.session.stopwatch.reading r.timer.running := 
    ⟨⟨Model.inspected_of_operating hblank hm, rfl⟩, rfl, rfl, hpatience⟩
  have unchanged : m₀.Throughout (fun j start k => Node.Used m₀.sense start [] k ∧
      ((index == j) = true → k.cuts = n.cuts)) r.session.model := by
    refine ⟨hm.declaration,
      fun j start k hs hk => ⟨((hm.node j start k hs hk).used_backed (hblank j start hs)).1,
      fun hij => ?_⟩⟩
    cases hget.symm.trans (Dict.get?_congr hij ▸ hk)
    rfl
  have solves : ∀ child noise, Action.Ensures (Keeping (m₀.Throughout fun j start k =>
      Node.Used m₀.sense start [] k ∧ ((index == j) = true → k.cuts = n.cuts)) r.settings)
      (solve solver child x noise true) fun _ => True := fun child noise =>
    ensures_solve (keeps_cuts hblank) child x noise true
  have kept := Session.ensures_solveChildren n.children (·.session.model) (P := fun _ => True)
    (fun _ _ _ _ => trivial) solves
  refine .of_cases ?_ ?_
  · rintro _ results t rfl hrun
    obtain ⟨hfound, hkept, -, -, hpatience'⟩ := Action.Triple.ok settled before hrun
    exact ⟨hfound, hkept, hpatience'⟩
  · rintro _ e t rfl hrun
    obtain ⟨k, hk, -, -, same⟩ := (kept.error ⟨unchanged, rfl⟩ hrun).1.exists_node hs
    exact ⟨Action.Triple.error settled before hrun, k, hk, same BEq.rfl⟩

/-- However a backward step ends, the node has the cut that is made of the solutions of its
children, and no new one if none can be made. -/
theorem recorded_refineAt (hwatch : Clock.Measures r.session.stopwatch.reading)
    (hpatience : r.patience = none) (hchildren : n.children.isEmpty = false) {x : State ℚ}
    (hx : x.Distinct) (hnames : n.stage.states.keys ⊆ x.keys) {measure : Measure ℚ}
    (hmeasure : r.settings.measures.get? index = some measure) :
    Recorded index n ((Session.stepCut solver n.children measure x).found r.session)
      ((refineAt solver index x).final r) := by
  rw [Session.found_stepCut hblank hm hsolver n.children measure x]
  refine Action.Triple.final (s := r) (.get_bind ?_) rfl
  rintro _ rfl
  refine .answered_bind hn ?_
  rw [if_neg (by simp [hchildren])]
  refine .bind
    ((triple_solveChildren hblank hsolver hm hn hwatch hpatience x).consequence (fun _ => id)
    (fun _ _ => id) ?_)
    fun results => .of_forall ?_
  · rintro t ⟨hnone, k, hk, same⟩
    rw [hnone]
    exact recorded_none hk same
  rintro t ⟨hfound, ⟨inspected, settings_eq⟩, hpatience'⟩
  obtain ⟨hkey, hget⟩ := Model.node_eq_ok.1 hn
  obtain ⟨start, hs, declared⟩ := Model.get?_of_declaration_eq hm.declaration.symm hget
  obtain ⟨k, hk, declared', solved⟩ := inspected.exists_node hs
  have same := (solved n hget).same.cuts
  have states_eq : k.stage.states = n.stage.states :=
    congrArg (·.stage.states) (declared'.trans declared)
  rw [hfound, Option.bind_some]
  have covers : ∀ cut,
      Node.newCut m₀.sense measure x (results.map (·.solution.duals)) (results.map (·.probability))
      (results.map (·.solution.objective)) = .ok cut →
      ∃ l, k.cutConstraint m₀.sense cut.1 = .ok l := fun cut hcut =>
    Node.exists_cutConstraint ((hblank index start hs).placed.of_declaration_eq declared')
      (Node.covers_newCut hx (states_eq ▸ hnames) hcut) m₀.sense
  have refined :=
    triple_refine_recorded hpatience' inspected.declaration (Model.node_eq_ok.2 ⟨hkey, hk⟩)
    (settings_eq ▸ hmeasure) rfl covers (congrArg (fun cuts => cuts.pool.cuts.map Cut.plane) same)
  refine .bind (refined.consequence (fun _ => id) (fun _ _ => id) ?_) fun _ => .of_forall ?_
  · rintro u ⟨k', hk', hrecorded⟩
    exact recorded_of_append hk' (hrecorded.trans (List.append_nil _).symm) fun _ => rfl
  rintro u ⟨a, ha, after⟩
  rw [ha]
  -- what follows leaves the new cut where it is
  have left : ∀ v : Run ℚ,
      Keeping (m₀.Throughout (Records index (n.cuts.pool.cuts.map Cut.plane ++ [a.1.plane])))
      t.settings v → Recorded index n (some a) v := fun v hv => by
    obtain ⟨k', hk', -, hprefix⟩ := hv.1.exists_node hs
    obtain ⟨rest, hrest⟩ := hprefix BEq.rfl
    exact recorded_of_append hk' hrest.symm nofun
  exact ((ensures_similar_records _ results).startingAt after).consequence (fun _ => id)
    (fun _ v hv => left v hv.1)
    left

end Stepping

end Run

end Multistage
