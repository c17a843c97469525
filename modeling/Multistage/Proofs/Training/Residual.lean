import Multistage.Proofs.Linear.Certified
import Multistage.Proofs.Session.Below
import Multistage.Proofs.Session.Monotone
import Multistage.Proofs.Session.Succession
import Multistage.Proofs.Training.Completion

/-!
# Cuts where a pass has been

On an acyclic graph a backward pass refines every visited node after its children. The best cut of
the node has then, at the state in which the node was left, the height that the measure of the node
makes of the optimal values of the children: older cuts support these values, the new cut attains
them, and no child is refined again before the pass ends.

## Main definitions

- `Model.Leads`, `Model.Acyclic`, `Model.IsWalk`: edges from node to node.
- `Model.Trained`: the models that iterations lead to.
- `Model.Attains`: a cut of a node attains what its measure makes of the optimal values.

## Main statements

- `Run.triple_refineAt`: the refinement of a visited node.
- `Run.tight_of_trained`: iterations leave cuts that support the optimal values.
- `Run.no_residual`: the best heights after a pass.
-/

namespace Multistage

namespace Model

/-- An edge leads from the first node to the second. -/
def Leads (m : Model ℚ) (i j : Datum ℚ) : Prop :=
  ∃ n, m.nodes.get? i = some n ∧ ∃ e ∈ n.children, (e.child == j) = true

/-- No path of edges leads back to where it began. -/
def Acyclic (m : Model ℚ) : Prop := ∀ i, ¬Relation.TransGen m.Leads i i

/-- Edges lead from each node that is visited to the next. -/
def IsWalk (m : Model ℚ) (path : List (Visit ℚ)) : Prop :=
  path.IsChain fun a b => m.Leads a.node b.node

instance (m : Model ℚ) (i j : Datum ℚ) : Decidable (m.Leads i j) :=
  match h : m.nodes.get? i with
  | some n => decidable_of_iff (∃ e ∈ n.children, (e.child == j) = true)
      ⟨fun he => ⟨n, h, he⟩, fun ⟨_, hn, he⟩ => Option.some.inj (h.symm.trans hn) ▸ he⟩
  | none => .isFalse fun ⟨_, hn, _⟩ => nomatch h.symm.trans hn

instance (m : Model ℚ) (path : List (Visit ℚ)) : Decidable (m.IsWalk path) :=
  inferInstanceAs (Decidable (List.IsChain _ path))

/-- All children are leaves. -/
def EndsInLeaves (m : Model ℚ) : Prop :=
  ∀ e ∈ m.nodes.entries, ∀ f ∈ e.2.children, ∀ k ∈ m.nodes.entries, (k.1 == f.child) = true →
    k.2.children.isEmpty = true

instance (m : Model ℚ) : Decidable m.EndsInLeaves := by
  unfold EndsInLeaves
  infer_instance

/-- If all children are leaves there are no cycles. -/
theorem acyclic_of_endsInLeaves {m : Model ℚ} (h : m.EndsInLeaves) : m.Acyclic := by
  have ends : ∀ {i j k}, m.Leads i j → ¬m.Leads j k := by
    rintro i j k ⟨n, hn, e, he, hej⟩ ⟨n', hn', e', he', -⟩
    obtain ⟨a, ha, -, rfl⟩ := Dict.exists_mem_of_get? hn
    obtain ⟨b, hb, hbj, rfl⟩ := Dict.exists_mem_of_get? hn'
    have leaf := h a ha e he b hb (BEq.trans hbj (BEq.symm hej))
    rw [List.isEmpty_iff.1 leaf] at he'
    cases he'
  intro i cycle
  obtain ⟨j, hij, hji⟩ := Relation.TransGen.head'_iff.1 cycle
  rcases hji.cases_head with rfl | ⟨k, hjk, -⟩
  · exact ends hij hij
  · exact ends hij hjk

/-- At the state a cut of the node attains what the measure of the node makes of the optimal values
of its children, if it has any. -/
def Attains (m₀ : Model ℚ) (F : Datum ℚ → Measure ℚ) (index : Datum ℚ) (x : State ℚ) (m : Model ℚ) :
    Prop :=
  ∀ start, m₀.nodes.get? index = some start → start.children.isEmpty = false →
    ∃ t n, m₀.Weighs F m index x t ∧ m.nodes.get? index = some n ∧
      ∃ plane ∈ n.planes, plane x.profile = (t : ℝ)

end Model

/-- The passes refine the nodes of the model with given measures, and no similar nodes. -/
structure PassSettings.Uses (settings : PassSettings ℚ) (m : Model ℚ)
    (F : Datum ℚ → Measure ℚ) : Prop where
  measures : ∀ index n measure, m.nodes.get? index = some n →
    settings.measures.get? index = some measure → measure = F index
  alone : settings.refinesSimilar = false

/-- Passes that refine every node with the expectation. -/
theorem PassSettings.Uses.of_expectation {settings : PassSettings ℚ} {m : Model ℚ}
    (halone : settings.refinesSimilar = false)
    (hmeasures : ∀ e ∈ settings.measures.entries, (e.2 matches .expectation) = true) :
    settings.Uses m fun _ => .expectation := by
  refine ⟨fun index n measure _ hmeasure => ?_, halone⟩
  obtain ⟨e, he, -, rfl⟩ := Dict.exists_mem_of_get? hmeasure
  have := hmeasures e he
  split at this
  next h => exact h
  next => cases this

/-- The models that iterations lead to that answer, with given measures. -/
inductive Model.Trained (solver : Solver ℚ) (F : Datum ℚ → Measure ℚ) (m₀ : Model ℚ) :
    Model ℚ → Prop
  | built : Trained solver F m₀ m₀
  | iterated {t t' : Training ℚ} {measure : Measure ℚ} {start : Datum ℚ}
      (before : Trained solver F m₀ t.run.session.model) (uses : t.run.settings.Uses m₀ F)
      (answers : Training.iteration solver measure start t = .ok () t') :
      Trained solver F m₀ t'.run.session.model

variable {m₀ m₁ m : Model ℚ} {grows : Datum ℚ → Prop} {F : Datum ℚ → Measure ℚ} {solver : Solver ℚ}
  {index : Datum ℚ} {x : State ℚ} {settings : PassSettings ℚ}

namespace Model

theorem tight_of_blank (hblank : ∀ index start, m₀.nodes.get? index = some start → start.Blank) :
    m₀.Tight F m₀ := by
  refine ⟨extends_of_blank hblank, fun index n hn plane hplane => ?_⟩
  rw [Node.planes, (hblank index n hn).pool_eq] at hplane
  cases hplane

/-- Where no node grows the cuts are the same. -/
theorem Tight.of_extends (h : m₀.Tight F m₁)
    (h' : m₀.Extends m₁ (fun _ => False) m) : m₀.Tight F m := by
  refine ⟨(h.grown.trans h').mono fun _ _ => trivial, fun index n hn plane hplane => ?_⟩
  obtain ⟨start, hs, -⟩ := get?_of_declaration_eq h'.declaration.symm hn
  obtain ⟨n₁, hn₁, -⟩ := get?_of_declaration_eq h.grown.declaration hs
  rw [((h'.node index start n hs hn n₁ hn₁).still id).2] at hplane
  exact (h.supported index n₁ hn₁ plane hplane).of_extends h'

/-- Equal indices have the same values to support. -/
theorem Supports.congr {i j : Datum ℚ} (hij : (i == j) = true) (hF : F j = F i)
    {plane : (Name → ℝ) → ℝ} (h : m₀.Supports F i plane m) : m₀.Supports F j plane m := by
  rintro m' hm' y t ⟨start, values, q, hs, hvalues, hq, rfl⟩
  exact h m' hm' y _ ⟨start, values, q, (Dict.get?_congr hij).trans hs, hvalues, hF ▸ hq, rfl⟩

/-- What was attained is attained as long as the children do not grow. -/
theorem Attains.of_extends (hblank : ∀ index start, m₀.nodes.get? index = some start → start.Blank)
    (hgrown : m₀.Extends m₀ (fun _ => True) m₁) (h : m₀.Extends m₁ grows m)
    (hstill : ∀ start, m₀.nodes.get? index = some start → ∀ e ∈ start.children, ¬grows e.child)
    (hattains : m₀.Attains F index x m₁) : m₀.Attains F index x m := by
  intro start hs hchildren
  obtain ⟨t, n₁, hw, hn₁, plane, hplane, ht⟩ := hattains start hs hchildren
  obtain ⟨n, hn, hsucceeds⟩ := h.exists_succeeds hs hn₁
  exact ⟨t, n, hw.of_extends hblank hgrown h hstill, hn, plane, hsucceeds.planes.subset hplane, ht⟩

section Solving

variable (hblank : ∀ index start, m₀.nodes.get? index = some start → start.Blank)

include hblank

/-- Solves that answer keep what is supported. -/
theorem completes_tight : Completes solver (m₀.Tight F) fun _ _ _ _ s => s.outgoing.Distinct := by
  refine fun index noise state needsDuals => .of_ok fun m s m' hm hrun => ?_
  obtain ⟨still, start, n₁, -, -, found⟩ :=
    (completes_solve hblank hm.grown.declaration index noise state
    needsDuals).ok (hm.grown.self rfl) hrun
  exact ⟨hm.of_extends still, found.outgoing⟩

/-- Iterations only add constraints. -/
theorem hasRows_of_trained (h : m₀.Trained solver F m) : m₀.HasRows m₀ False m := by
  induction h with
  | built => exact hasRows_of_used (throughout_self fun index start hs => Node.used_of_blank
      (hblank index start hs))
  | @iterated t t' measure start before uses answers ih =>
    have passes : Action.Completes (fun u : Training ℚ =>
        u.run.Keeping (m₀.HasRows m₀ False) t.run.settings)
          (Training.iteration solver measure start)
        fun _ => True :=
      Training.completes_iteration (P := fun _ => True) (keeps_hasRows hblank).completes
        (fun _ _ _ _ _ => trivial)
        (fun index x _ => (hasRows_refineAt hblank index x).completes) _ _
    exact (passes.ok ⟨ih, rfl⟩ answers).1.1

end Solving

end Model

/-- Training that a rule ends leads from trained models to trained models. -/
theorem Model.Trained.train {session : Session ℚ} (h : m₀.Trained solver F session.model)
    {budget : ℕ} {request : TrainingRequest ℚ}
    (huses : ∀ options run, TrainingOptions.check request = .ok options →
      Run.start session options = .ok run → run.settings.Uses m₀ F) {status : String}
    (houtcome : (train solver budget request session).outcome = .ok status)
    (hstatus : status ≠ Training.interruptedStatus) :
    m₀.Trained solver F (train solver budget request session).session.model := by
  have iterated : ∀ measure start, Action.Completes (fun t : Training ℚ =>
      m₀.Trained solver F t.run.session.model ∧ t.run.settings.Uses m₀ F)
      (Training.iteration solver measure start) fun _ => True := by
    refine fun measure start => .of_ok fun t _ t' ⟨trained, uses⟩ hrun =>
      ⟨⟨.iterated trained uses hrun, ?_⟩,
      trivial⟩
    have passes : Action.Completes (fun u : Training ℚ => u.run.Keeping
        (fun m => m.declaration = t.run.session.model.declaration) t.run.settings)
        (Training.iteration solver measure start) fun _ => True :=
      Training.completes_iteration (P := fun _ => True) keeps_declaration.completes
        (fun _ _ _ _ _ => trivial)
        (fun index x _ => (Run.declaration_refineAt index x).completes) _ _
    have kept := passes.ok ⟨rfl, rfl⟩ hrun
    exact kept.1.2 ▸ uses
  unfold Multistage.train at houtcome ⊢
  split at houtcome
  next => cases houtcome
  next options rules hoptions =>
    split at houtcome
    next => cases houtcome
    next run hrun =>
      obtain ⟨o, hcheck, hrest⟩ := Except.bind_eq_ok.1 hoptions
      obtain ⟨_, -, hrest⟩ := Except.bind_eq_ok.1 hrest
      cases hrest
      obtain ⟨_, -, hstart⟩ := Except.bind_eq_ok.1 hrun
      have performed := Training.triple_perform
        (K := fun r : Run ℚ => m₀.Trained solver F r.session.model ∧ r.settings.Uses m₀ F)
        (fun _ _ => id) (iterated options.rootMeasure) rules budget
        (.focus (Session.ensures_readClock (I := m₀.Trained solver F)) (fun _ => And.left)
          fun _ _ hr hs => ⟨hs, hr.2⟩)
      have begun : m₀.Trained solver F run.session.model := by rwa [(Run.start_eq_ok hstart).1]
      split at houtcome
      next hperform =>
        cases houtcome
        exact (performed.ok ⟨begun, huses options run hcheck hstart⟩ hperform hstatus).1
      next => cases houtcome

namespace Run

/-- A refinement that answers records the cut that it makes. -/
theorem triple_refine {r : Run ℚ} (hgrown : m₀.Extends m₀ (fun _ => True) r.session.model)
    {results : List (ChildSolution ℚ)} {probabilities : List ℚ} :
    Action.Triple (· = r) (refine index x results probabilities)
      (fun _ r' => r'.settings = r.settings ∧
        m₀.Extends r.session.model (fun i => (index == i) = true) r'.session.model ∧
        ∃ measure n c height, r.settings.measures.get? index = some measure ∧
          r.session.model.nodes.get? index = some n ∧
          Node.newCut m₀.sense measure x (results.map (·.solution.duals)) probabilities
            (results.map (·.solution.objective)) = .ok (c, height) ∧
          ∀ j n', (index == j) = true → r'.session.model.nodes.get? j = some n' →
            n'.planes = n.planes ++ [c.value]) fun _ => True := by
  refine .of_cases ?_ fun _ _ _ _ _ => trivial
  rintro r _ _ rfl hrun
  obtain ⟨measure, n, n', patience, hmeasure, hn, hact, rfl⟩ := refine_eq_ok hrun
  rw [show r.session.model.sense = m₀.sense from congrArg (·.sense) hgrown.declaration] at hact
  obtain ⟨-, hget⟩ := Model.node_eq_ok.1 hn
  -- the node, looked up by any equal index, is refined
  have refined : ∀ j start, (index == j) = true → m₀.nodes.get? j = some start →
      Node.Succeeds m₀.sense start n True n' ∧ ∃ c height, Node.newCut m₀.sense measure x
        (results.map (·.solution.duals)) probabilities (results.map (·.solution.objective)) =
          .ok (c, height) ∧ n'.planes = n.planes ++ [c.value] := fun j start hij hj =>
    ((hgrown.node j start n hj (Dict.get?_congr hij ▸ hget) start hj).refine measure x _
      probabilities
      _).ok rfl hact
  obtain ⟨start, hs, -⟩ := Model.get?_of_declaration_eq hgrown.declaration.symm hget
  obtain ⟨-, c, height, hcut, hplanes⟩ := refined index start BEq.rfl hs
  have declared := ((Node.declaration_refine m₀.sense measure x (results.map (·.solution.duals))
    probabilities (results.map (·.solution.objective))).ok rfl hact).1
  refine ⟨rfl, (hgrown.self rfl).put hn declared fun j start' hij hj n₁ hn₁ => ?_, measure, n, c,
    height, hmeasure,
    hget, hcut, fun j k hij hk => ?_⟩
  · rw [← Dict.get?_congr hij, hget] at hn₁
    cases hn₁
    exact (refined j start' hij hj).1.mono fun _ => hij
  · rw [Dict.get?_modify, if_pos hij] at hk
    obtain ⟨_, -, rfl⟩ := Option.map_eq_some_iff.1 hk
    exact hplanes

section Refining

variable (hblank : ∀ index start, m₀.nodes.get? index = some start → start.Blank)
  (hedges : ∀ index start, m₀.nodes.get? index = some start → ∀ e ∈ start.children,
    0 ≤ e.probability)
  (hnoise : ∀ e ∈ m₀.nodes.entries, ∀ t ∈ e.2.stage.noise, 0 ≤ t.probability)
  (hfree : ∀ index start, m₀.nodes.get? index = some start → ∀ e ∈ start.stage.states.entries,
    ¬start.stage.Assignable (.fixed e.2.incoming.index))
  (hsolver : solver.Sound)
  (hcoherent : ∀ index n, m₀.nodes.get? index = some n → (F index).Coherent)
  (hacyclic : m₀.Acyclic)

include hblank hedges hnoise hfree hsolver hcoherent hacyclic

/-- The refinement of a visited node: cuts still support the optimal values, nothing but the node
has grown, and at the state of the refinement a cut attains the value. -/
theorem triple_refineAt {r : Run ℚ} (htight : m₀.Tight F r.session.model)
    (huses : r.settings.Uses m₀ F) (hx : x.Distinct) :
    Action.Triple (· = r) (refineAt solver index x)
      (fun _ r' => r'.settings = r.settings ∧ m₀.Tight F r'.session.model ∧
        m₀.Extends r.session.model (fun i => (index == i) = true) r'.session.model ∧
        m₀.Attains F index x r'.session.model) fun _ => True := by
  refine .get_bind ?_
  rintro r rfl
  refine .ofExcept_bind (fun n hn => ?_) fun _ _ => trivial
  obtain ⟨start, hs, hdecl⟩ := Model.get?_of_declaration_eq htight.grown.declaration.symm
    (Model.node_eq_ok.1 hn).2
  have children : n.children = start.children := (congrArg (·.children) hdecl).symm
  rw [children]
  refine .ite (fun hempty => .pure ?_) fun hchildren => ?_
  · rintro r rfl
    refine ⟨rfl, htight, htight.grown.self rfl, fun start' hs' hchildren => ?_⟩
    cases hs.symm.trans hs'
    cases hempty.symm.trans hchildren
  -- the children are solved, and nothing changes
  have solves : Model.Completes solver (m₀.Extends r.session.model fun _ => False)
      fun needsDuals child noise x => m₀.Finds solver r.session.model needsDuals child noise x :=
    fun child noise x needsDuals =>
      Model.completes_solve hblank htight.grown.declaration child noise x needsDuals
  have solved := Session.completes_solveChildren start.children (·.session.model)
    (K := Keeping (m₀.Extends r.session.model fun _ => False) r.settings)
    (P := fun steps => steps = m₀.steps start.children)
    (fun r' steps hr' hsteps => (Session.steps_of_outcomes hr'.1.declaration hsteps).1)
    fun child noise => completes_solve solves child x noise true
  refine .bind (solved.startingAt ⟨htight.grown.self rfl, rfl⟩) fun results => .of_forall ?_
  rintro r₁ ⟨⟨hstill, hsettings⟩, steps, rfl, hall⟩
  have tight₁ := htight.of_extends hstill
  refine .bind (triple_refine tight₁.grown) fun _ => .of_forall ?_
  rintro r₂ ⟨hsettings', hgrows, measure, k, c, height, hmeasure, hk, hcut, hplanes⟩
  refine .get_bind ?_
  rintro r₂ rfl
  rw [hsettings] at hmeasure
  refine .ite (fun hsimilar => ?_) fun _ => .pure ?_
  · rw [hsettings', hsettings, huses.alone] at hsimilar
    cases hsimilar
  rintro r₂ rfl
  have extends' : m₀.Extends r.session.model (fun i => (index == i) = true) r₂.session.model :=
    (hstill.trans hgrows).mono fun _ h => h.resolve_left id
  have own : measure = F index := huses.measures index start measure hs hmeasure
  rw [own] at hcut
  have supports : m₀.Supports F index c.value r.session.model :=
    Model.supports_newCut hblank hsolver hs hall hx hcut (hcoherent index start hs) hfree
      (Model.steps_nonneg (hedges index start hs) hnoise)
  refine ⟨hsettings'.trans hsettings, ⟨(tight₁.grown.trans hgrows).mono fun _ _ => trivial,
    fun j n' hn' plane hplane => ?_⟩, extends', fun start' hs' _ => ?_⟩
  · obtain ⟨start', hs', -⟩ := Model.get?_of_declaration_eq extends'.declaration.symm hn'
    obtain ⟨k', hk', -⟩ := Model.get?_of_declaration_eq tight₁.grown.declaration hs'
    by_cases hij : (index == j) = true
    · rw [hplanes j n' hij hn'] at hplane
      rw [Dict.get?_congr hij] at hk
      rcases List.mem_append.1 hplane with hplane | hplane
      · exact (tight₁.supported j k hk plane hplane).of_extends hgrows
      · rw [List.mem_singleton.1 hplane]
        rw [Dict.get?_congr hij] at hmeasure
        exact (supports.congr hij
          ((huses.measures j start' measure hs' hmeasure).symm.trans own)).of_extends
          extends'
    · rw [((hgrows.node j start' n' hs' hn' k' hk').still hij).2] at hplane
      exact (tight₁.supported j k' hk' plane hplane).of_extends hgrows
  · cases hs.symm.trans hs'
    -- no child of the node is the node itself
    have apart : ∀ e ∈ start.children, ¬(index == e.child) = true := fun e he heq =>
      hacyclic index (.single ⟨start, hs, e, he, BEq.symm heq⟩)
    obtain ⟨weighs, attains⟩ := Model.weighs_newCut hblank hsolver hs hall hx hcut extends' apart
    obtain ⟨n', hn', -⟩ := extends'.exists_node hs
    refine ⟨height, n', weighs, hn', c.value, ?_, attains⟩
    rw [hplanes index n' BEq.rfl hn']
    exact List.mem_append_right _ List.mem_cons_self

/-- Iterations leave cuts that support the optimal values. -/
theorem tight_of_trained (h : m₀.Trained solver F m) : m₀.Tight F m := by
  induction h with
  | built => exact Model.tight_of_blank hblank
  | @iterated t t' measure start before uses answers ih =>
    have passes : Action.Completes (fun u : Training ℚ => u.run.Keeping (m₀.Tight F) t.run.settings)
        (Training.iteration solver measure start) fun _ => True := by
      refine Training.completes_iteration (Model.completes_tight hblank) (P := fun x => x.Distinct)
        (fun _ _ _ _ h => h) (fun index x hx => .of_ok fun r _ r' hr hrun => ?_) _ _
      obtain ⟨hsettings, tight, -⟩ := (triple_refineAt hblank hedges hnoise hfree hsolver hcoherent
        hacyclic hr.1 (hr.2 ▸ uses) hx).ok rfl hrun
      exact ⟨⟨tight, hsettings.trans hr.2⟩, trivial⟩
    exact (passes.ok ⟨ih, rfl⟩ answers).1.1

/-- A backward pass along a walk: cuts still support the optimal values, and at every state in which
a node was left a cut attains the value. -/
theorem triple_backward {r : Run ℚ} (htight : m₀.Tight F r.session.model)
    (huses : r.settings.Uses m₀ F)
    {path : List (Visit ℚ)} (hwalk : m₀.IsWalk path) {states : List (State ℚ)}
    (hstates : ∀ x ∈ states, x.Distinct) :
    Action.Triple (· = r) (backward solver path states)
      (fun _ r' => m₀.Tight F r'.session.model ∧ ∀ (k : ℕ) (visit : Visit ℚ),
        path[k]? = some visit → ∃ x, states[k]? = some x ∧
          m₀.Attains F visit.node x r'.session.model) fun _ => True := by
  -- what was visited before in the pass comes later on the walk
  have later : path.zipIdx.reverse.Pairwise fun a b =>
      Relation.TransGen m₀.Leads b.1.node a.1.node := by
    rw [List.pairwise_reverse]
    have chain : path.IsChain fun a b => Relation.TransGen m₀.Leads a.node b.node :=
      List.IsChain.imp (fun _ _ => Relation.TransGen.single) hwalk
    have : IsTrans (Visit ℚ) fun a b => Relation.TransGen m₀.Leads a.node b.node :=
      ⟨fun _ _ _ => Relation.TransGen.trans⟩
    rw [← List.zipIdx_map_fst 0 path, List.isChain_iff_pairwise, List.pairwise_map] at chain
    exact chain
  refine (Action.Triple.forM_prefix (E := fun _ => True)
    (I := fun (before : List (Visit ℚ × ℕ)) r' =>
    Keeping (m₀.Tight F) r.settings r' ∧ ∀ place ∈ before, ∃ x, states[place.2]? = some x ∧
      m₀.Attains F place.1.node x r'.session.model) fun before place after hplaces =>
        ?_).consequence
    ?_ ?_ fun _ => id
  · refine .of_forall ?_
    rintro r' ⟨⟨tight, hsettings⟩, hbefore⟩
    refine .bind (Q := fun x r'' => r'' = r' ∧ states[place.2]? = some x)
      (.ofOption (fun x _ hx hr => ⟨hr, hx⟩) fun _ _ _ => trivial) fun x => .of_forall ?_
    rintro r' ⟨rfl, hx⟩
    refine (triple_refineAt hblank hedges hnoise hfree hsolver hcoherent hacyclic tight
      (hsettings ▸ huses) (hstates x (List.mem_of_getElem? hx))).consequence (fun _ => id) ?_
      fun _ => id
    rintro _ r'' ⟨hsettings', tight', hextends, hattains⟩
    refine ⟨⟨tight', hsettings'.trans hsettings⟩, fun place' hplace' => ?_⟩
    rcases List.mem_append.1 hplace' with hplace' | hplace'
    · obtain ⟨x', hx', hattains'⟩ := hbefore place' hplace'
      refine ⟨x', hx', hattains'.of_extends hblank tight.grown hextends fun start hs e he heq => ?_⟩
      -- an edge back to the node would close a cycle
      rw [hplaces] at later
      exact hacyclic _
        (.tail ((List.pairwise_append.1 later).2.2 place' hplace' place List.mem_cons_self)
        ⟨start, hs, e, he, BEq.symm heq⟩)
    · rw [List.mem_singleton.1 hplace']
      exact ⟨x, hx, hattains⟩
  · rintro _ rfl
    exact ⟨⟨htight, rfl⟩, nofun⟩
  · rintro _ r' ⟨⟨tight, -⟩, hall⟩
    refine ⟨tight, fun k visit hvisit => hall (visit, k) ?_⟩
    rw [List.mem_reverse]
    exact List.mk_mem_zipIdx_iff_getElem?.2 hvisit

end Refining

/-- **No residual where a pass has been.** Take a model that was built, without cycles, negative
probabilities of noise terms or noise that fixes incoming copies. After any number of iterations
that refine the nodes with given measures, but no similar nodes, let a forward pass visit the nodes
of a walk, and let the backward pass along it answer. At every visited node with children, and at
the state in which it was left, the best height of its cuts is what the measure of the node makes of
the optimal values of its children, entered in that state, for all their noise terms, as they are
after the pass. -/
theorem no_residual {graph : Graph ℚ} {cuts : CutSettings ℚ} {sense : Datum ℚ}
    {plans : StagePlans ℚ} {m : Model ℚ} (hm : Model.build graph cuts sense plans = .ok m)
    (hnoise : ∀ e ∈ m.nodes.entries, ∀ t ∈ e.2.stage.noise, 0 ≤ t.probability)
    (hfree : ∀ index n, m.nodes.get? index = some n → ∀ e ∈ n.stage.states.entries,
      ¬n.stage.Assignable (.fixed e.2.incoming.index))
    (hacyclic : m.Acyclic) (hsolver : solver.Sound)
    (hmeasures : ∀ index n, m.nodes.get? index = some n → (F index).Built)
    {r r₁ r₂ : Run ℚ} (htrained : m.Trained solver F r.session.model) (huses : r.settings.Uses m F)
    {result : ForwardResult ℚ} (hforward : forward solver r = .ok result r₁)
    (hwalk : m.IsWalk result.path)
    (hbackward : backward solver result.path result.states r₁ = .ok () r₂) :
    ∀ (k : ℕ) (visit : Visit ℚ), result.path[k]? = some visit →
      ∀ n, r₂.session.model.nodes.get? visit.node = some n → n.children.isEmpty = false →
        ∃ x t, result.states[k]? = some x ∧ m.Weighs F r₂.session.model visit.node x t ∧
          (∃ c ∈ n.cuts.pool.cuts, c.value x.profile = (t : ℝ)) ∧
          ∀ c ∈ n.cuts.pool.cuts, m.sense.AtMost (c.value x.profile) (t : ℝ) := by
  have hblank : ∀ index start, m.nodes.get? index = some start → start.Blank :=
    fun _ _ h => (Model.blank_of_build hm h).1
  have hedges : ∀ index start, m.nodes.get? index = some start → ∀ e ∈ start.children,
      0 ≤ e.probability := by
    intro index start h
    obtain ⟨e, he, -, rfl⟩ := Dict.exists_mem_of_get? h
    exact (Model.edges_nonneg hm).1 e he
  have hcoherent : ∀ index n, m.nodes.get? index = some n → (F index).Coherent :=
    fun index n hn => (hmeasures index n hn).coherent
  have tight := tight_of_trained hblank hedges hnoise hfree hsolver hcoherent hacyclic htrained
  obtain ⟨⟨tight₁, hsettings⟩, hstates⟩ := (completes_forward (Model.completes_tight hblank)
    (P := fun x => x.Distinct) fun _ _ _ _ h => h).ok ⟨tight, rfl⟩ hforward
  obtain ⟨tight₂, hattains⟩ :=
    (triple_backward hblank hedges hnoise hfree hsolver hcoherent hacyclic
    tight₁ (hsettings ▸ huses) hwalk hstates).ok rfl hbackward
  intro k visit hvisit n hn hchildren
  obtain ⟨start, hs, hdecl⟩ := Model.get?_of_declaration_eq tight₂.grown.declaration.symm hn
  obtain ⟨x, hx, attained⟩ := hattains k visit hvisit
  obtain ⟨t, n', hw, hn', plane, hplane, ht⟩ := attained start hs
    ((congrArg (·.children.isEmpty) hdecl).trans hchildren)
  cases hn.symm.trans hn'
  obtain ⟨c, hc, rfl⟩ := List.mem_map.1 hplane
  refine ⟨x, t, hx, hw, ⟨c, hc, ht⟩, fun d hd => ?_⟩
  exact tight₂.supported visit.node n hn d.value (List.mem_map_of_mem hd) _
    (tight₂.grown.self rfl) x t hw

/-- Two stages that cost ten and eleven, after one iteration and one more pass. -/
theorem no_residual_of_two_stages :
    ∃ (graph : Graph ℚ) (m : Model ℚ) (r r₁ r₂ : Run ℚ) (result : ForwardResult ℚ) (visit : Visit ℚ)
      (n : Node ℚ) (x : State ℚ) (t : ℚ),
      Graph.ofEdges (.int 0) [.int 1, .int 2]
        [(.int 0, .int 1, .real 1), (.int 1, .int 2, .real 1)] [] = .ok graph ∧
      Model.build graph ⟨.finite 0, .posInf, 0⟩ (.text "min")
        ⟨[([.int 2], carrying 11)], carrying 10⟩ = .ok m ∧ m.Acyclic ∧ carryingSolver.Sound ∧
      m.Trained carryingSolver (fun _ => .expectation) r.session.model ∧
      forward carryingSolver r = .ok result r₁ ∧ m.IsWalk result.path ∧
      backward carryingSolver result.path result.states r₁ = .ok () r₂ ∧
      result.path[0]? = some visit ∧ r₂.session.model.nodes.get? visit.node = some n ∧
      n.children.isEmpty = false ∧ result.states[0]? = some x ∧
      m.Weighs (fun _ => .expectation) r₂.session.model visit.node x t ∧
      (∃ c ∈ n.cuts.pool.cuts, c.value x.profile = (t : ℝ)) ∧
      ∀ c ∈ n.cuts.pool.cuts, m.sense.AtMost (c.value x.profile) (t : ℝ) := by
  let clock : Clock (Datum ℚ) := .ofReadings fun _ => .int 0
  let options : TrainingOptions ℚ := { TrainingOptions.standard with refinesSimilar := .bool false }
  have check : (do
      let graph ← Graph.ofEdges (.int 0) [.int 1, .int 2]
        [(.int 0, .int 1, .real 1), (.int 1, .int 2, .real 1)] []
      let m ← Model.build graph ⟨.finite 0, .posInf, 0⟩ (.text "min")
        ⟨[([.int 2], carrying 11)], carrying 10⟩
      let run ← Run.start ⟨m, List.replicate 8 0, clock, clock⟩ options
      let first ← (Training.iteration carryingSolver .expectation (.int 0)).answer (.ofRun run)
      let there ← (forward carryingSolver).answer first.2.run
      let back ← (backward carryingSolver there.1.path there.1.states).answer there.2
      let visit ← there.1.path[0]?.elim (.error .missingKey) .ok
      let n ← (back.2.session.model.nodes.get? visit.node).elim (.error .missingKey) .ok
      if m.IsWalk there.1.path ∧ n.children.isEmpty = false ∧ m.EndsInLeaves ∧
          (∀ e ∈ m.nodes.entries, ∀ t ∈ e.2.stage.noise, 0 ≤ t.probability) ∧
          (∀ e ∈ m.nodes.entries, e.2.stage.edits.isEmpty = true) ∧
          ∀ settings ∈ [run.settings, first.2.run.settings], settings.refinesSimilar = false ∧
            ∀ e ∈ settings.measures.entries, (e.2 matches .expectation) = true
        then return () else .error .missingKey : Except (Failure ℚ) Unit).toBool = true := by
    decide +kernel
  simp only [Except.toBool_bind, Except.toBool_ite, Except.elim_eq_ok, Action.answer_eq_ok] at check
  obtain ⟨graph, hgraph, m, hm, run, hrun, first, hfirst, there, forth, back, returned, visit,
    hvisit, n, hn, hwalk, hchildren, hends, hnoise, hedits, hsettings⟩ := check
  have uses : ∀ settings ∈ [run.settings, first.2.run.settings],
      settings.Uses m fun _ => .expectation := fun settings hmem =>
    .of_expectation (hsettings settings hmem).1 (hsettings settings hmem).2
  have free : ∀ index k, m.nodes.get? index = some k → ∀ e ∈ k.stage.states.entries,
      ¬k.stage.Assignable (.fixed e.2.incoming.index) := by
    rintro index k hk - - ⟨edit, hedit, -⟩
    obtain ⟨e, he, -, rfl⟩ := Dict.exists_mem_of_get? hk
    rw [List.isEmpty_iff.1 (hedits e he)] at hedit
    cases hedit
  have acyclic := Model.acyclic_of_endsInLeaves hends
  have sound : carryingSolver.Sound := Solver.sound_certified _
  have session : run.session.model = m := by rw [(start_eq_ok hrun).1]
  have trained : m.Trained carryingSolver (fun _ => .expectation) first.2.run.session.model := by
    refine .iterated (t := .ofRun run) ?_ (uses _ List.mem_cons_self) hfirst
    exact session.symm ▸ .built
  obtain ⟨x, t, hx, hw, hattained, hbelow⟩ := no_residual hm hnoise free acyclic sound
    (fun _ _ _ => .expectation) trained (uses _ (by simp)) forth hwalk returned 0 visit
    hvisit n hn hchildren
  exact ⟨graph, m, _, _, _, _, visit, n, x, t, hgraph, hm, acyclic, sound, trained, forth, hwalk,
    returned, hvisit, hn, hchildren, hx, hw, hattained, hbelow⟩

/-- A stage that the noise leaves in a state of its choice. -/
def choosing : StagePlan ℚ where
  states := [⟨⟨.text "x", some (.int 0), some (.int 10)⟩, .int 0⟩]
  noise := [([.int 0, .int 10], none)]
  edits := [.fix (.text "x.out") .noise]

/-- A stage that costs the state in which it is entered, for which the noise puts another one. -/
def overriding : StagePlan ℚ where
  states := [⟨⟨.text "x", some (.int 0), some (.int 10)⟩, .int 0⟩]
  decisions := [⟨.text "y", some (.int 0), none⟩]
  constraints := [⟨.name "x.out", .text "==", .name "x.in", .null⟩,
    ⟨.name "y", .text ">=", .name "x.in", .null⟩]
  objective := some (.name "y")
  noise := [([.int 5], none)]
  edits := [.fix (.text "x.in") .noise]

/-- What solves these stages: the first stage without cuts and with one, and the second one. -/
def overridingSolver : Solver ℚ :=
  .certified fun p =>
    if p.size = 3 then
      let left := (p.equation 1).rhs
      if p.atMost.isEmpty then ⟨[0, left, 0], [], [0, 0]⟩
      else ⟨[0, left, left - (p.inequality 0).rhs], [-1], [0, 1]⟩
    else ⟨[5, 5, 5, 0], [-1], [0, 1]⟩

/-- Noise that fixes an incoming copy leaves a residual. The second stage costs five from every
state, but its dual is that of the state that the noise has put. The cut of the first pass, from the
state zero, has the height fifteen at the state ten of the second pass. -/
theorem residual_of_overriding :
    ∃ (graph : Graph ℚ) (m : Model ℚ) (r r₁ r₂ : Run ℚ) (result : ForwardResult ℚ) (visit : Visit ℚ)
      (n : Node ℚ) (x : State ℚ) (c : Cut ℚ),
      Graph.ofEdges (.int 0) [.int 1, .int 2]
        [(.int 0, .int 1, .real 1), (.int 1, .int 2, .real 1)] [] = .ok graph ∧
      Model.build graph ⟨.finite 0, .posInf, 0⟩ (.text "min")
        ⟨[([.int 1], choosing)], overriding⟩ = .ok m ∧
      (∀ e ∈ m.nodes.entries, ∀ t ∈ e.2.stage.noise, 0 ≤ t.probability) ∧ m.Acyclic ∧
      overridingSolver.Sound ∧ m.Trained overridingSolver (fun _ => .expectation) r.session.model ∧
      r.settings.Uses m (fun _ => .expectation) ∧
      forward overridingSolver r = .ok result r₁ ∧ m.IsWalk result.path ∧
      backward overridingSolver result.path result.states r₁ = .ok () r₂ ∧
      result.path[0]? = some visit ∧ r₂.session.model.nodes.get? visit.node = some n ∧
      n.children.isEmpty = false ∧ result.states[0]? = some x ∧
      (∀ t, m.Weighs (fun _ => .expectation) r₂.session.model visit.node x t ↔ t = 5) ∧
      c ∈ n.cuts.pool.cuts ∧ c.value x.profile = 15 := by
  let clock : Clock (Datum ℚ) := .ofReadings fun _ => .int 0
  let options : TrainingOptions ℚ := { TrainingOptions.standard with
    refinesSimilar := .bool false
    scheme := .given [⟨[⟨.int 1, .int 0⟩, ⟨.int 2, .int 5⟩], false⟩,
      ⟨[⟨.int 1, .int 10⟩, ⟨.int 2, .int 5⟩], false⟩] }
  have check : (do
      let graph ← Graph.ofEdges (.int 0) [.int 1, .int 2]
        [(.int 0, .int 1, .real 1), (.int 1, .int 2, .real 1)] []
      let m ← Model.build graph ⟨.finite 0, .posInf, 0⟩ (.text "min")
        ⟨[([.int 1], choosing)], overriding⟩
      let run ← Run.start ⟨m, List.replicate 8 0, clock, clock⟩ options
      let first ← (Training.iteration overridingSolver .expectation (.int 0)).answer (.ofRun run)
      let there ← (forward overridingSolver).answer first.2.run
      let back ← (backward overridingSolver there.1.path there.1.states).answer there.2
      let visit ← there.1.path[0]?.elim (.error .missingKey) .ok
      let x ← there.1.states[0]?.elim (.error .missingKey) .ok
      let n ← (back.2.session.model.nodes.get? visit.node).elim (.error .missingKey) .ok
      let c ← n.cuts.pool.cuts.head?.elim (.error .missingKey) .ok
      let height ← c.height x
      let start ← (m.nodes.get? visit.node).elim (.error .missingKey) .ok
      let step ← (m.steps start.children).head?.elim (.error .missingKey) .ok
      let child ← (back.2.session.model.nodes.get? step.1).elim (.error .missingKey) .ok
      let solved ← (Node.solve overridingSolver m.sense x step.2.1.term true).answer child
      let q ← Measure.expectation.adjust m.sense ((m.steps start.children).map (·.2.2)) [5]
      if m.IsWalk there.1.path ∧ n.children.isEmpty = false ∧ m.EndsInLeaves ∧
          (∀ e ∈ m.nodes.entries, ∀ t ∈ e.2.stage.noise, 0 ≤ t.probability) ∧
          (∀ settings ∈ [run.settings, first.2.run.settings], settings.refinesSimilar = false ∧
            ∀ e ∈ settings.measures.entries, (e.2 matches .expectation) = true) ∧
          height = 15 ∧ (∀ name ∈ c.coefficients.keys, (x.get? name).isSome = true) ∧
          (m.steps start.children).length = 1 ∧ solved.1.objective = 5 ∧ Scalar.dot q [5] = 5
        then return () else .error .missingKey : Except (Failure ℚ) Unit).toBool = true := by
    decide +kernel
  simp only [Except.toBool_bind, Except.toBool_ite, Except.elim_eq_ok, Action.answer_eq_ok] at check
  obtain ⟨graph, hgraph, m, hm, run, hrun, first, hfirst, there, forth, back, returned, visit,
    hvisit, x, hx, n, hn, c, hc, height, hheight, start, hstart, step, hstep, child, hchild,
    solved, hsolved, q, hq, hwalk, hchildren, hends, hnoise, hsettings, rfl, hnames, hlength,
    hobjective, hdot⟩ := check
  have uses : ∀ settings ∈ [run.settings, first.2.run.settings],
      settings.Uses m fun _ => .expectation := fun settings hmem =>
    .of_expectation (hsettings settings hmem).1 (hsettings settings hmem).2
  have sound : overridingSolver.Sound := Solver.sound_certified _
  have session : run.session.model = m := by rw [(start_eq_ok hrun).1]
  have trained : m.Trained overridingSolver (fun _ => .expectation) first.2.run.session.model := by
    refine .iterated (t := .ofRun run) ?_ (uses _ List.mem_cons_self) hfirst
    exact session.symm ▸ .built
  -- the child is in use, so that the solve has found its optimal value
  have hblank : ∀ index k, m.nodes.get? index = some k → k.Blank :=
    fun _ _ h => (Model.blank_of_build hm h).1
  have rows : m.HasRows m False back.2.session.model := by
    have kept := Model.hasRows_of_trained hblank trained
    have kept := (ensures_forward (Model.keeps_hasRows hblank) (P := fun _ => True)
      (fun _ _ _ _ _ => trivial)).ok ⟨kept, rfl⟩ forth
    exact ((ensures_backward (fun index x _ => Model.hasRows_refineAt hblank index x) there.1.path
      fun _ _ => trivial).ok kept.1 returned).1.1
  have weighs : m.Weighs (fun _ => .expectation) back.2.session.model visit.node x 5 := by
    obtain ⟨step', hsteps⟩ := List.length_eq_one_iff.1 hlength
    rw [hsteps] at hstep
    cases hstep
    refine ⟨start, [5], q, hstart, ?_, hq, hdot.symm⟩
    obtain ⟨k, hk, -⟩ := Model.get?_of_declaration_eq rows.declaration.symm hchild
    have found := Node.HasValue.of_solve sound (hblank _ k hk)
      (rows.node _ k child hk hchild k hk).1 hsolved
    rw [hobjective] at found
    rw [hsteps]
    exact .cons ⟨child, hchild, found⟩ .nil
  obtain ⟨height', hheight', hvalue⟩ := Cut.exists_height (c := c) (x := x) fun name hname =>
    Option.isSome_iff_exists.1 (hnames name hname)
  cases hheight.symm.trans hheight'
  refine ⟨graph, m, _, _, _, _, visit, n, x, c, hgraph, hm, hnoise,
    Model.acyclic_of_endsInLeaves hends,
    sound, trained, uses _ (by simp), forth, hwalk, returned, hvisit,
    hn, hchildren, hx, fun t => ⟨fun ht => ht.unique weighs, ?_⟩,
    List.mem_of_mem_head? hc, ?_⟩
  · rintro rfl
    exact weighs
  · rw [← hvalue]
    norm_num

end Run

end Multistage
