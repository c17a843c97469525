import Multistage.Proofs.Node.Agreeing
import Multistage.Proofs.Node.Reordering
import Multistage.Proofs.Training.BackwardStep

/-!
# Models with edges and noise terms in another order

Take a model with the edges of its nodes and the noise terms in another order, used in its own way,
and let both have the same cuts installed. A solve reads neither edges nor noise terms, so all
solves find the same. What is made of them weighs the same outcomes in another order, and measures
see only the law of the outcomes: both models have the same bounds, and backward steps record cuts
of the same height.

## Main definitions

- `Model.Reorders`: the same model with its edges and its noise terms in another order.
- `Model.Counterparts`: two models in use that were built in different orders, with the same
  installed cuts.

## Main statements

- `Session.rel_foundChildren`: the solutions for the outcomes of a step.
- `Model.Counterparts.found_solve`, `Model.Counterparts.rel_stepCut`: solves, and the cuts of
  backward steps.
- `Session.agrees_of_reorders`: bounds and what backward steps record.
-/

namespace Multistage

/-- Related entries with equal keys are found alike. -/
theorem Dict.rel_get? {κ β γ : Type} [BEq κ] {R : β → γ → Prop} {d : Dict κ β} {d' : Dict κ γ}
    (h : List.Forall₂ (fun e e' => e'.1 = e.1 ∧ R e.2 e'.2) d.entries d'.entries) (key : κ) :
    Option.Rel R (d.get? key) (d'.get? key) := by
  obtain ⟨entries⟩ := d
  obtain ⟨entries'⟩ := d'
  dsimp only at h
  induction h with
  | nil => exact .none
  | @cons e e' rest rest' he hrest ih =>
    rw [get?_cons, get?_cons, he.1]
    split
    next => exact .some he.2
    next => exact ih

namespace Model

/-- The same model with the edges of its nodes and of its root, and the noise terms, in another
order. -/
structure Reorders (m m' : Model ℚ) : Prop where
  rootChildren : m'.rootChildren.Perm m.rootChildren
  nodes : List.Forall₂ (fun e e' => e'.1 = e.1 ∧ e.2.Reorders e'.2) m.nodes.entries m'.nodes.entries
  rest : m' = { m with rootChildren := m'.rootChildren, nodes := m'.nodes }

variable {m m' t t' : Model ℚ} {solver : Solver ℚ} {edges edges' : List (Edge ℚ)} {index : Datum ℚ}

namespace Reorders

theorem sense_eq (h : m.Reorders m') : m'.sense = m.sense := by
  rw [h.rest]

theorem rel_get? (h : m.Reorders m') (index : Datum ℚ) :
    Option.Rel Node.Reorders (m.nodes.get? index) (m'.nodes.get? index) :=
      Dict.rel_get? h.nodes index

/-- Both models have the same indices. -/
theorem exists_get?_iff (h : m.Reorders m') (index : Datum ℚ) :
    (∃ n, m.nodes.get? index = some n) ↔ ∃ n, m'.nodes.get? index = some n := by
  have rel := h.rel_get? index
  generalize m.nodes.get? index = found at rel ⊢
  generalize m'.nodes.get? index = found' at rel ⊢
  cases rel <;> simp

theorem exists_reorders (h : m.Reorders m') {start' : Node ℚ}
    (hs' : m'.nodes.get? index = some start') :
    ∃ start, m.nodes.get? index = some start ∧ start.Reorders start' := by
  have rel := h.rel_get? index
  rw [hs'] at rel
  cases hs : m.nodes.get? index with
  | none => rw [hs] at rel; cases rel
  | some start =>
    rw [hs] at rel
    cases rel with
    | some h => exact ⟨start, rfl, h⟩

theorem blank (h : m.Reorders m')
    (hblank : ∀ index start, m.nodes.get? index = some start → start.Blank) :
    ∀ index start, m'.nodes.get? index = some start → start.Blank := fun index start' hs' => by
  obtain ⟨start, hs, reorders⟩ := h.exists_reorders hs'
  exact reorders.blank (hblank index start hs)

/-! ### Outcomes -/

theorem noiseOf_perm (h : m.Reorders m') (child : Datum ℚ) :
    (m'.noiseOf child).Perm (m.noiseOf child) := by
  unfold noiseOf
  have rel := h.rel_get? child
  generalize m.nodes.get? child = found at rel ⊢
  generalize m'.nodes.get? child = found' at rel ⊢
  cases rel with
  | some h => exact h.noise
  | none => exact .refl _

theorem steps_perm (h : m.Reorders m') (hedges : edges'.Perm edges) :
    (m'.steps edges').Perm (m.steps edges) :=
  (hedges.flatMap_right _).trans
  (List.Perm.flatMap_left _ fun e _ => (h.noiseOf_perm e.child).map _)

end Reorders

end Model

namespace Session

variable {m m' t t' : Model ℚ} {solver : Solver ℚ} {edges edges' : List (Edge ℚ)} {index : Datum ℚ}

/-- A step has outcomes iff all children exist. -/
theorem exists_outcomes_iff :
    (∃ steps, outcomes m edges = .ok steps) ↔ ∀ e ∈ edges, ∃ n, m.node e.child = .ok n := by
  constructor
  · rintro ⟨steps, hsteps⟩
    exact (outcomes_eq_ok hsteps).1
  · intro h
    refine Except.exists_bind (Except.exists_mapM fun e he => ?_) fun _ _ => ⟨_, rfl⟩
    obtain ⟨n, hn⟩ := h e he
    exact ⟨_, Except.bind_eq_ok.2 ⟨n, hn, rfl⟩⟩

theorem rel_outcomes (h : m.Reorders m') (hedges : edges'.Perm edges) :
    Option.Rel List.Perm (outcomes m' edges').toOption (outcomes m edges).toOption := by
  have exist : ∀ c : Datum ℚ, (∃ n, m'.node c = .ok n) ↔ ∃ n, m.node c = .ok n := fun c => by
    simp only [Model.node_eq_ok, exists_and_left, h.exists_get?_iff c]
  refine rel_toOption ?_ fun steps steps' hsteps hsteps' => ?_
  · rw [exists_outcomes_iff, exists_outcomes_iff]
    simp only [hedges.mem_iff, exist]
  · rw [(outcomes_eq_ok hsteps).2, (outcomes_eq_ok hsteps').2]
    exact h.steps_perm hedges

/-- The solutions for the outcomes of a step, in another order. -/
theorem rel_foundChildren (h : m.Reorders m') (hedges : edges'.Perm edges)
    (find : Datum ℚ → Datum ℚ → Option (Solution ℚ)) :
    Option.Rel List.Perm (foundChildren m' edges' find) (foundChildren m edges find) :=
  rel_bind (rel_outcomes h hedges) fun _ _ _ _ hperm => rel_mapM_of_perm hperm _

/-- Solutions have the probabilities of their outcomes. -/
theorem nonneg_of_foundChildren (hedges : ∀ e ∈ edges, 0 ≤ e.probability)
    (hnoise : ∀ e ∈ m.nodes.entries, ∀ t ∈ e.2.stage.noise, 0 ≤ t.probability)
    {find : Datum ℚ → Datum ℚ → Option (Solution ℚ)} {results : List (ChildSolution ℚ)}
    (h : foundChildren m edges find = some results) : ∀ r ∈ results, 0 ≤ r.probability := by
  obtain ⟨steps, hsteps, h⟩ := Option.bind_eq_some_iff.1 h
  have nonneg := Model.steps_nonneg hedges hnoise
  rw [← (steps_of_outcomes rfl (Except.eq_ok_of_toOption hsteps)).1] at nonneg
  refine (forall_mem_iff_of_forall₂ (mapM_eq_some_iff.1 h) fun step r hr => ?_).1 nonneg
  obtain ⟨s, -, hs⟩ := Option.bind_eq_some_iff.1 hr
  cases hs
  rfl

end Session

/-! ### Models in use -/

/-- Two models in use that were built in different orders, with the same installed cuts. Where the
objective of a stage cannot be installed, both must have tried or neither. -/
structure Model.Counterparts (solver : Solver ℚ) (m m' t t' : Model ℚ) : Prop where
  reorders : m.Reorders m'
  blank : ∀ index start, m.nodes.get? index = some start → start.Blank
  left : m.Throughout (fun _ start n => Node.Operating solver m.sense start n) t
  right : m'.Throughout (fun _ start n => Node.Operating solver m'.sense start n) t'
  cuts : ∀ index n n', t.nodes.get? index = some n → t'.nodes.get? index = some n' →
  n'.installed.Perm n.installed
  objectives : ∀ index start n n', m.nodes.get? index = some start → t.nodes.get? index = some n →
    t'.nodes.get? index = some n' → ¬start.Poses →
    n'.stage.objectiveInstalled = n.stage.objectiveInstalled

namespace Model.Counterparts

variable {m m' t t' : Model ℚ} {solver : Solver ℚ} {index : Datum ℚ}

/-- Nodes of both models at an index were built in different orders. -/
theorem related (h : Counterparts solver m m' t t') {n n' : Node ℚ} (hn : t.node index = .ok n)
    (hn' : t'.node index = .ok n') :
    ∃ start start', m.nodes.get? index = some start ∧ start.Reorders start' ∧
      Node.Operating solver m.sense start n ∧ Node.Operating solver m.sense start' n' := by
  obtain ⟨-, hn⟩ := Model.node_eq_ok.1 hn
  obtain ⟨-, hn'⟩ := Model.node_eq_ok.1 hn'
  obtain ⟨start, hs, -⟩ := get?_of_declaration_eq h.left.declaration.symm hn
  obtain ⟨start', hs', -⟩ := get?_of_declaration_eq h.right.declaration.symm hn'
  have rel := h.reorders.rel_get? index
  rw [hs, hs'] at rel
  cases rel with
  | some reorders =>
    exact ⟨start, start', hs, reorders, h.left.node index start n hs hn,
      h.reorders.sense_eq ▸ h.right.node index start' n' hs' hn'⟩

/-- Both models have the node of an index, or neither has. -/
theorem rel_node (h : Counterparts solver m m' t t') (index : Datum ℚ) :
    Option.Rel (fun n n' => t.node index = .ok n ∧ t'.node index = .ok n')
      (t.node index).toOption (t'.node index).toOption := by
  refine rel_toOption ?_ fun n n' hn hn' => ⟨hn, hn'⟩
  have here : ∀ {a b : Model ℚ}, a.declaration = b.declaration →
      ((∃ n, a.nodes.get? index = some n) ↔ ∃ n, b.nodes.get? index = some n) := fun same =>
    ⟨fun ⟨_, hn⟩ => (get?_of_declaration_eq same.symm hn).imp fun _ => And.left,
      fun ⟨_, hn⟩ => (get?_of_declaration_eq same hn).imp fun _ => And.left⟩
  simp only [Model.node_eq_ok, exists_and_left]
  rw [here h.left.declaration, here h.right.declaration, h.reorders.exists_get?_iff]

/-- Whatever is solved in one model is solved in the other with the same solution, or fails in
both. -/
theorem found_solve (h : Counterparts solver m m' t t') (hsolver : solver.IgnoresOrder)
    (index : Datum ℚ) (x : State ℚ) (noise : Datum ℚ) (needsDuals : Bool) :
    (Model.solve solver index x noise needsDuals).found t' =
    (Model.solve solver index x noise needsDuals).found t := by
  have sense_eq : t.sense = m.sense := sense_of_declaration_eq h.left.declaration
  have sense_eq' : t'.sense = m.sense :=
    (sense_of_declaration_eq h.right.declaration).trans h.reorders.sense_eq
  rw [Model.found_solve, Model.found_solve, sense_eq, sense_eq']
  have rel := h.rel_node index
  generalize (t.node index).toOption = found at rel ⊢
  generalize (t'.node index).toOption = found' at rel ⊢
  cases rel with
  | none => rfl
  | some rel =>
    obtain ⟨start, start', hs, reorders, operating, operating'⟩ := h.related rel.1 rel.2
    have hn := (Model.node_eq_ok.1 rel.1).2
    have hn' := (Model.node_eq_ok.1 rel.2).2
    exact reorders.found_solve hsolver (h.blank index start hs) operating operating'
      (h.cuts index _ _ hn hn')
      (h.objectives index start _ _ hs hn hn') x noise needsDuals

/-! ### Bounds and cuts -/

section Weighing

variable {s s' : Session ℚ} {measure : Measure ℚ} {x : State ℚ} {edges edges' : List (Edge ℚ)}
  (h : Counterparts solver m m' s.model s'.model) (hsolver : solver.IgnoresOrder)
  (hnoise : ∀ e ∈ m.nodes.entries, ∀ t ∈ e.2.stage.noise, 0 ≤ t.probability)
  (hmeasure : measure.Coherent)

include h hsolver

theorem solutionOf_eq (x : State ℚ) : s'.model.solutionOf solver x = s.model.solutionOf solver x :=
  funext fun child => funext fun noise => h.found_solve hsolver child x noise true

include hnoise hmeasure

/-- Both models have the same bound, or neither has one. -/
theorem found_bound (hroot : ∀ e ∈ m.rootChildren, 0 ≤ e.probability) (x : State ℚ) :
    (Session.bound solver x measure).found s' = (Session.bound solver x measure).found s := by
  rw [Session.found_bound h.blank h.left hsolver,
    Session.found_bound (h.reorders.blank h.blank) h.right hsolver,
    h.solutionOf_eq hsolver, h.reorders.sense_eq]
  refine bind_eq_of_rel (Session.rel_foundChildren h.reorders h.reorders.rootChildren _) ?_
  intro results' results _ hresults hperm
  rw [hmeasure.value_of_perm m.sense hperm (Session.nonneg_of_foundChildren hroot hnoise hresults)]

/-- A backward step makes cuts that agree, or none in both models. -/
theorem rel_stepCut (hedges : edges'.Perm edges) (hnonneg : ∀ e ∈ edges, 0 ≤ e.probability)
    (hx : x.Distinct) :
    Option.Rel (fun a' a => Cut.AgreesAt measure x a'.1 a.1)
      ((Session.stepCut solver edges' measure x).found s')
      ((Session.stepCut solver edges measure x).found s) := by
  rw [Session.found_stepCut h.blank h.left hsolver,
    Session.found_stepCut (h.reorders.blank h.blank) h.right hsolver,
    h.solutionOf_eq hsolver, h.reorders.sense_eq]
  refine rel_bind (Session.rel_foundChildren h.reorders hedges _) ?_
  intro results' results _ hresults hperm
  exact Node.rel_newCut m.sense hmeasure hx hperm
    (Session.nonneg_of_foundChildren hnonneg hnoise hresults)

end Weighing

end Model.Counterparts

namespace Run

variable {m m' : Model ℚ} {solver : Solver ℚ} {index : Datum ℚ} {x : State ℚ} {r r' : Run ℚ}
  {n n' : Node ℚ}
  {measure : Measure ℚ}

/-- Where no cut can be made nothing is recorded. -/
theorem recorded_of_leaf (hn : r.session.model.node index = .ok n)
    (hchildren : n.children.isEmpty = true) :
    Recorded index n none ((refineAt solver index x).final r) := by
  have done : refineAt solver index x r = .ok () r := by
    refine Action.bind_eq_ok.2
      ⟨r, r, rfl, Action.bind_eq_ok.2 ⟨n, r, Action.ofExcept_eq_ok.2 ⟨hn, rfl⟩, ?_⟩⟩
    rw [if_pos hchildren]
    rfl
  rw [Action.final_of_ok done]
  exact recorded_none (Model.node_eq_ok.1 hn).2 rfl

/-- What is recorded in two runs agrees, if what their backward steps find does. -/
theorem rel_of_recorded {found found' : Option (Cut ℚ × ℚ)}
    (h : Option.Rel (fun a' a => Cut.AgreesAt measure x a'.1 a.1) found' found) {t t' : Run ℚ}
    (ht : Recorded index n found t) (ht' : Recorded index n' found' t') :
    ∃ k k', t.session.model.nodes.get? index = some k ∧
      t'.session.model.nodes.get? index = some k' ∧
      Option.Rel (Cut.AgreesAt measure x) (k'.cuts.pool.cuts[n'.cuts.pool.cuts.length]?)
        (k.cuts.pool.cuts[n.cuts.pool.cuts.length]?) := by
  obtain ⟨k, hk, hrecorded⟩ := ht
  obtain ⟨k', hk', hrecorded'⟩ := ht'
  rw [List.getElem?_map] at hrecorded hrecorded'
  have cuts : Option.Rel (Cut.AgreesAt measure x) (found'.map (·.1)) (found.map (·.1)) := by
    cases h with
    | some h => exact .some h
    | none => exact .none
  refine ⟨k, k', hk, hk',
    rel_of_map_eq (f := Cut.plane) (fun h hd hd' => h.of_plane_eq hd' hd) cuts ?_ ?_⟩
  · rw [hrecorded', Option.map_map]
    rfl
  · rw [hrecorded, Option.map_map]
    rfl

end Run

namespace Session

/-- The order of the edges of the root and of all nodes, and that of the noise terms, does not
matter. Let a model in another order be used in another way, as long as both have the same cuts
installed; where the objective of a stage cannot be installed, both must have tried or neither. Then
both models have the same bound for every state and every measure that can be built, or neither has
one. However a backward step at a state ends that the user does not stop, it records a cut of the
same height there in both models, which is the same cut for the expectation, or it records none in
both. -/
theorem agrees_of_reorders {graph : Graph ℚ} {settings : CutSettings ℚ} {sense : Datum ℚ}
    {plans : StagePlans ℚ} {m m' : Model ℚ} (hm : Model.build graph settings sense plans = .ok m)
    (hreorders : m.Reorders m')
    (hnoise : ∀ e ∈ m.nodes.entries, ∀ t ∈ e.2.stage.noise, 0 ≤ t.probability) {solver : Solver ℚ}
    (hsolver : solver.IgnoresOrder) {draws draws' : Draws ℚ}
    {clock clock' stopwatch stopwatch' : Clock (Datum ℚ)}
    {calls calls' : List (Call ℚ)} {s s' : Session ℚ}
    (hs : s = afterAll solver ⟨m, draws, clock, stopwatch⟩ calls)
    (hs' : s' = afterAll solver ⟨m', draws', clock', stopwatch'⟩ calls')
    (hcuts : ∀ index n n', s.model.nodes.get? index = some n → s'.model.nodes.get? index = some n' →
      n'.installed.Perm n.installed)
    (hobjectives : ∀ index start n n',
      m.nodes.get? index = some start → s.model.nodes.get? index = some n →
      s'.model.nodes.get? index = some n' → ¬start.Poses →
        n'.stage.objectiveInstalled = n.stage.objectiveInstalled) {measure : Measure ℚ}
          (hmeasure : measure.Built) :
    (∀ x : State ℚ, (bound solver x measure).found s' = (bound solver x measure).found s) ∧
    ∀ index n n' (x : State ℚ), s.model.node index = .ok n → s'.model.node index = .ok n' →
      x.Distinct →
      n.stage.states.keys ⊆ x.keys → ∀ r r' : Run ℚ, r.session = s → r'.session = s' →
        Clock.Measures s.stopwatch.reading → Clock.Measures s'.stopwatch.reading →
        r.patience = none → r'.patience = none →
        r.settings.measures.get? index = some measure →
        r'.settings.measures.get? index = some measure →
        let t := (Run.refineAt solver index x).final r
        let t' := (Run.refineAt solver index x).final r'
        ∃ k k', t.session.model.nodes.get? index = some k ∧
          t'.session.model.nodes.get? index = some k' ∧
          Option.Rel (Cut.AgreesAt measure x) (k'.cuts.pool.cuts[n'.cuts.pool.cuts.length]?)
            (k.cuts.pool.cuts[n.cuts.pool.cuts.length]?) := by
  have blank : ∀ index start, m.nodes.get? index = some start → start.Blank :=
    fun index start hstart => (Model.blank_of_build hm hstart).1
  have operating : m.Throughout (fun _ start n => Node.Operating solver m.sense start n) s.model :=
    hs ▸ operating_afterAll ⟨m, draws, clock, stopwatch⟩ calls
  have operating' :
      m'.Throughout (fun _ start n => Node.Operating solver m'.sense start n) s'.model :=
    hs' ▸ operating_afterAll ⟨m', draws', clock', stopwatch'⟩ calls'
  have counterparts : Model.Counterparts solver m m' s.model s'.model :=
    ⟨hreorders, blank, operating, operating', hcuts, hobjectives⟩
  obtain ⟨edges_nonneg, root_nonneg⟩ := Model.edges_nonneg hm
  refine ⟨fun x => counterparts.found_bound hsolver hnoise hmeasure.coherent root_nonneg x, ?_⟩
  rintro index n n' x hn hn' hx hnames r r' rfl rfl hwatch hwatch' hpatience hpatience' hgiven
    hgiven' t t'
  obtain ⟨start, start', hstart, reorders, on, on'⟩ := counterparts.related hn hn'
  obtain ⟨used, -⟩ := on.used_backed (blank index start hstart)
  obtain ⟨used', -⟩ := on'.used_backed (reorders.blank (blank index start hstart))
  have children : n'.children.Perm n.children := by
    rw [used.children_eq, used'.children_eq]
    exact reorders.children
  have states_eq : n'.stage.states = n.stage.states := by
    rw [used.states_eq, used'.states_eq]
    exact reorders.eq_of_arranged (f := fun n : Node ℚ => n.stage.states) fun _ _ => rfl
  by_cases hchildren : n.children.isEmpty = true
  · exact Run.rel_of_recorded .none (Run.recorded_of_leaf hn hchildren)
      (Run.recorded_of_leaf hn' (children.isEmpty_eq.trans hchildren))
  have nonneg : ∀ e ∈ n.children, 0 ≤ e.probability := by
    obtain ⟨e, he, -, hstart_eq⟩ := Dict.exists_mem_of_get? hstart
    rw [used.children_eq, ← hstart_eq]
    exact edges_nonneg e he
  have recorded :=
    Run.recorded_refineAt blank hsolver operating hn hwatch hpatience (by simpa using hchildren) hx
    hnames hgiven
  have recorded' :=
    Run.recorded_refineAt (hreorders.blank blank) hsolver operating' hn' hwatch' hpatience'
    (by rw [children.isEmpty_eq]; simpa using hchildren) hx (states_eq ▸ hnames) hgiven'
  exact Run.rel_of_recorded
    (counterparts.rel_stepCut hsolver hnoise hmeasure.coherent children nonneg hx) recorded
    recorded'

/-- A stage that is followed by two others, which cost eleven and twelve. In the other model these
come in the other order, and so do the two noise terms of the second one. The worst case is twelve
in both. -/
theorem agrees_of_reorders_of_three_stages :
    ∃ (graph : Graph ℚ) (m m' : Model ℚ) (r r' : Run ℚ) (k k' : Node ℚ) (c c' : Cut ℚ),
      let x : State ℚ := ⟨[(.text "x", 1)]⟩
      Graph.ofEdges (.int 0) [.int 1, .int 2, .int 3]
        [(.int 0, .int 1, .real 1), (.int 1, .int 2, .real (1 / 2)),
          (.int 1, .int 3, .real (1 / 2))] [] = .ok graph ∧
      Model.build graph ⟨.finite 0, .posInf, 0⟩ (.text "min")
        ⟨[([.int 2], carrying 11),
          ([.int 3], { carrying 12 with noise := [([.text "A", .text "B"], none)] })],
          carrying 10⟩ = .ok m ∧ m.Reorders m' ∧ steadySolver.IgnoresOrder ∧
      r.session.model = m ∧ r'.session.model = m' ∧
      (bound steadySolver x .worstCase).found r'.session =
      (bound steadySolver x .worstCase).found r.session ∧
      ((Run.refineAt steadySolver (.int 1) x).final r).session.model.nodes.get? (.int 1) = some k ∧
      ((Run.refineAt steadySolver (.int 1) x).final r').session.model.nodes.get?
      (.int 1) = some k' ∧
      k.cuts.pool.cuts[0]? = some c ∧ k'.cuts.pool.cuts[0]? = some c' ∧ c.intercept = 12 ∧
      c'.AgreesAt .worstCase x c := by
  let x : State ℚ := ⟨[(.text "x", 1)]⟩
  let clock : Clock (Datum ℚ) := .ofReadings fun n => .int n
  let run (m : Model ℚ) : Run ℚ :=
    { session := ⟨m, [], clock, clock⟩
      settings := ⟨m.initial, ⟨[(.int 1, .worstCase)]⟩, .finite 0, false, Dict.empty, Dict.empty⟩
      scheme := .unlimited
      starting := Dict.empty
      timer := Timer.empty
      patience := none }
  let turned (m : Model ℚ) : Model ℚ :=
    { m with
      rootChildren := m.rootChildren.reverse
      nodes := m.nodes.mapValues fun _ n =>
        { n with
          children := n.children.reverse, stage := n.stage.withNoise n.stage.noise.reverse } }
  have check : (do
      let graph ← Graph.ofEdges (.int 0) [.int 1, .int 2, .int 3]
        [(.int 0, .int 1, .real 1), (.int 1, .int 2, .real (1 / 2)),
          (.int 1, .int 3, .real (1 / 2))] []
      let m ← Model.build graph ⟨.finite 0, .posInf, 0⟩ (.text "min")
        ⟨[([.int 2], carrying 11),
          ([.int 3], { carrying 12 with noise := [([.text "A", .text "B"], none)] })],
          carrying 10⟩
      let n ← m.node (.int 1)
      let n' ← (turned m).node (.int 1)
      let k ← (((Run.refineAt steadySolver (.int 1) x).final (run m)).session.model.nodes.get?
        (.int 1)).elim
        (.error .missingKey) .ok
      let c ← (k.cuts.pool.cuts[0]?).elim (.error .missingKey) .ok
      if c.intercept = 12 ∧ n.cuts.pool.cuts.length = 0 ∧ n'.cuts.pool.cuts.length = 0 ∧
          n.stage.states.keys.map Datum.identity = ["x"].map .text ∧
          ∀ e ∈ m.nodes.entries, ∀ t ∈ e.2.stage.noise, 0 ≤ t.probability then return ()
      else .error .missingKey : Except (Failure ℚ) Unit).toBool = true := by
    decide +kernel
  simp only [Except.toBool_bind, Except.toBool_ite, Except.elim_eq_ok] at check
  obtain ⟨graph, hgraph, m, hm, n, hn, n', hn', k, hk, c, hc, intercept, empty, empty', names,
    nonneg⟩ := check
  have reorders : m.Reorders (turned m) := by
    refine ⟨List.reverse_perm _,
      List.forall₂_map_right_iff.2 (List.forall₂_same.2 fun e _ => ?_), rfl⟩
    exact ⟨rfl, List.reverse_perm _, List.reverse_perm _, rfl⟩
  have start : ∀ index n n', m.nodes.get? index = some n → (turned m).nodes.get? index = some n' →
      n.Reorders n' := by
    intro index n n' hn hn'
    obtain ⟨_, hstart, h⟩ := reorders.exists_reorders hn'
    cases hn.symm.trans hstart
    exact h
  have times : Clock.Measures clock.reading := fun i j => ⟨.int (i - j), _, rfl, rfl⟩
  have used : (run m).session = afterAll steadySolver ⟨m, [], clock, clock⟩ [] := rfl
  have used' : (run (turned m)).session = afterAll steadySolver ⟨turned m, [], clock, clock⟩ [] :=
    rfl
  obtain ⟨bounds, steps⟩ :=
    agrees_of_reorders hm reorders nonneg Solver.ignoresOrder_steady used used'
    (fun index n n' hn hn' =>
      (start index n n' hn hn').eq_of_arranged (f := Node.installed) (fun _ _ => rfl) ▸
      .refl _)
    (fun index _ n n' _ hn hn' _ => (start index n n' hn hn').eq_of_arranged
      (f := fun n : Node ℚ => n.stage.objectiveInstalled) fun _ _ => rfl) Measure.Built.worstCase
  have distinct : x.Distinct := List.pairwise_singleton _ _
  have known : n.stage.states.keys = x.keys := Datum.eq_texts_of_identities_eq names
  obtain ⟨l, l', hl, hl', rel⟩ :=
    steps (.int 1) n n' x hn hn' distinct (known ▸ List.Subset.refl _) (run m)
    (run (turned m)) rfl rfl times times rfl rfl rfl rfl
  cases hk.symm.trans hl
  rw [empty, empty', hc] at rel
  generalize hc' : l'.cuts.pool.cuts[0]? = found at rel
  cases rel with
  | @some c' _ agrees =>
    exact ⟨graph, m, turned m, run m, run (turned m), k, l', c, c', hgraph, hm, reorders,
      Solver.ignoresOrder_steady,
      rfl, rfl, bounds x, hl, hl', hc, hc', intercept, agrees⟩

end Session

end Multistage
