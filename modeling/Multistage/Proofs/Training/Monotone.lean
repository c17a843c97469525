import Multistage.Proofs.Linear.Certified
import Multistage.Proofs.Session.Monotone

/-!
# Bounds never get worse

Until cuts are taken out, each bound that a session computes at the initial state with one measure
at the root is no worse than those before it: along the log of a training run, from a bound to a
later run, and from run to run.

## Main definitions

- `Session.Computes`: the bounds that a call computes.
- `Model.Secures`: bounds that no later one falls short of.

## Main statements

- `Session.bounds_pairwise`: the bounds of calls, in the order in which they are computed.
-/

namespace Multistage

variable {solver : Solver ℚ} {m₀ m m' : Model ℚ} {measure : Measure ℚ} {bounds : List ℚ} {b : ℚ}

/-- The bounds were computed in order, and the nodes still have the constraints that they had
then. -/
structure Model.Secures (solver : Solver ℚ) (m₀ : Model ℚ) (measure : Measure ℚ) (bounds : List ℚ)
    (m : Model ℚ) : Prop where
  rows : m₀.HasRows m₀ False m
  ordered : bounds.Pairwise m₀.sense.AtMost
  secured : ∀ b ∈ bounds, ∃ s s' : Session ℚ, m₀.HasRows m₀ False s.model ∧
    Session.bound solver m₀.initial measure s = .ok b s' ∧ m₀.HasRows s.model False m

namespace Model.Secures

theorem of_rows (h : m₀.Secures solver measure bounds m)
    (hrows : ∀ m₁, m₀.HasRows m₁ False m → m₀.HasRows m₁ False m') :
    m₀.Secures solver measure bounds m' where
  rows := hrows m₀ h.rows
  ordered := h.ordered
  secured := fun b hb => by
    obtain ⟨s, s', used, hbound, rows⟩ := h.secured b hb
    exact ⟨s, s', used, hbound, hrows s.model rows⟩

variable (hblank : ∀ index start, m₀.nodes.get? index = some start → start.Blank)

include hblank

theorem keeps : Model.Keeps solver (m₀.Secures solver measure bounds) fun _ _ _ _ _ => True :=
  fun index noise state needsDuals => .of_cases
    (fun _ _ _ h hr => ⟨h.of_rows fun _ h₁ =>
      ((keeps_hasRows hblank index noise state needsDuals).ok h₁ hr).1, trivial⟩)
    fun _ _ _ h hr => h.of_rows fun _ h₁ =>
      (keeps_hasRows hblank index noise state needsDuals).error h₁ hr

theorem refineAt {settings : PassSettings ℚ} (index : Datum ℚ) (state : State ℚ) :
    Action.Ensures (Run.Keeping (m₀.Secures solver measure bounds) settings)
      (Run.refineAt solver index state) fun _ => True :=
  .of_cases
    (fun _ _ _ h hr => ⟨⟨h.1.of_rows fun _ h₁ =>
      ((hasRows_refineAt hblank index state).ok ⟨h₁, h.2⟩ hr).1.1,
      ((hasRows_refineAt hblank index state).ok ⟨h.1.rows, h.2⟩ hr).1.2⟩, trivial⟩)
    fun _ _ _ h hr => ⟨h.1.of_rows fun _ h₁ =>
      ((hasRows_refineAt hblank index state).error ⟨h₁, h.2⟩ hr).1,
      ((hasRows_refineAt hblank index state).error ⟨h.1.rows, h.2⟩ hr).2⟩

variable (hsolver : solver.Sound) (hedges : ∀ e ∈ m₀.rootChildren, 0 ≤ e.probability)
  (hnoise : ∀ e ∈ m₀.nodes.entries, ∀ t ∈ e.2.stage.noise, 0 ≤ t.probability)
  (hmeasure : measure.Coherent)

include hsolver hedges hnoise hmeasure

theorem bound {s s' : Session ℚ} (h : m₀.Secures solver measure bounds s.model)
    (hbound : Session.bound solver m₀.initial measure s = .ok b s') :
    m₀.Secures solver measure (bounds ++ [b]) s'.model := by
  have kept : ∀ m₁, m₀.HasRows m₁ False s.model → m₀.HasRows m₁ False s'.model := fun _ h₁ =>
    ((Session.ensures_bound (keeps_hasRows hblank) m₀.initial measure).ok h₁ hbound).1
  refine { of_rows h kept with ordered := ?_, secured := fun b' hb' => ?_ }
  · refine List.pairwise_append.2
      ⟨h.ordered, List.pairwise_singleton _ _, fun b' hb' b'' hb'' => ?_⟩
    rw [List.mem_singleton.1 hb'']
    obtain ⟨t, t', used, hbound', rows⟩ := h.secured b' hb'
    exact Session.bound_atMost hsolver hblank hedges hnoise hmeasure used rows hbound' hbound
  · rcases List.mem_append.1 hb' with hb' | hb'
    · exact (of_rows h kept).secured b' hb'
    · rw [List.mem_singleton.1 hb']
      exact ⟨s, s', h.rows, hbound, kept _ (hasRows_self h.rows)⟩

/-- The bounds that training logs are no worse than those before. -/
theorem train {s : Session ℚ} (h : m₀.Secures solver measure bounds s.model) (budget : ℕ)
    {request : TrainingRequest ℚ} (hroot : request.options.rootMeasure = measure) :
    ∃ logged : List ℚ, (train solver budget request s).log.map (·.bound) = logged.map .real ∧
      m₀.Secures solver measure (bounds ++ logged)
        (train solver budget request s).session.model := by
  refine train_logs (L := fun logged => m₀.Secures solver measure (bounds ++ logged))
    (by rwa [List.append_nil]) fun options run hcheck _ => ?_
  have root : options.rootMeasure = measure :=
    (TrainingOptions.rootMeasure_of_check hcheck).trans hroot
  rw [root]
  refine ⟨fun logged => ⟨_, fun _ => True, keeps hblank, fun _ _ _ _ _ => trivial,
    fun index state _ => refineAt hblank index state⟩, fun logged s s' b hs hbound => ?_,
    fun logged b m hm => ?_⟩
  · rw [show s.model.initial = m₀.initial from congrArg (·.initial) hs.rows.declaration] at hbound
    rw [← List.append_assoc]
    exact bound hblank hsolver hedges hnoise hmeasure hs hbound
  · rw [← List.append_assoc] at hm
    exact ⟨hm.rows, (List.pairwise_append.1 hm.ordered).1, fun b' hb' =>
      hm.secured b' (List.mem_append_left _ hb')⟩

omit hsolver hedges hnoise hmeasure in
/-- Calls that take no cuts out leave bounds secured. -/
theorem afterAll {s : Session ℚ} (h : m₀.Secures solver measure bounds s.model)
    {calls : List (Call ℚ)} (hcalls : ∀ index, .prune index ∉ calls) :
    m₀.Secures solver measure bounds (Session.afterAll solver s calls).model :=
  Session.afterAll_keeps (P := fun _ => True) (keeps hblank) (fun _ _ _ _ _ => trivial)
    (fun index hindex => absurd hindex (hcalls index))
    (fun _ _ _ _ _ _ _ _ _ index state _ => refineAt hblank index state) h

end Model.Secures

namespace Session

/-- The bounds that a call computes at the initial state with a measure at the root: the bound that
is asked for, or those of the log of a training run. -/
def Computes (solver : Solver ℚ) (measure : Measure ℚ) (s : Session ℚ) :
    Call ℚ → List ℚ → Prop
  | .train budget request, bounds => request.options.rootMeasure = measure ∧
    (train solver budget request s).log.map (·.bound) = bounds.map .real
  | .bound state measure', bounds => measure' = measure ∧ state = s.model.initial ∧
    ∃ b s', bound solver state measure s = .ok b s' ∧ bounds = [b]
  | _, _ => False

/-- **Bounds never get worse.** Take a session of a model that was built from a graph that was
built, after any calls. The bounds that a call computes with a measure at the root come in the order
of the sense: each is no worse than those before it. So do the bounds of two calls, one after the
other, if between them, whatever else is called, no cuts are taken out. -/
theorem bounds_pairwise {graph : Graph ℚ} {cuts : CutSettings ℚ} {sense : Datum ℚ}
    {plans : StagePlans ℚ} {m : Model ℚ} (hm : Model.build graph cuts sense plans = .ok m)
    (hsolver : solver.Sound) (hnoise : ∀ e ∈ m.nodes.entries, ∀ t ∈ e.2.stage.noise,
      0 ≤ t.probability)
    (hmeasure : measure.Built) {draws : Draws ℚ} {clock stopwatch : Clock (Datum ℚ)}
    (before : List (Call ℚ)) {s : Session ℚ}
    (hs : s = afterAll solver ⟨m, draws, clock, stopwatch⟩ before) :
    (∀ budget request, request.options.rootMeasure = measure →
      ∃ bounds, Computes solver measure s (.train budget request) bounds) ∧
    ∀ call bounds, Computes solver measure s call bounds → bounds.Pairwise m.sense.AtMost ∧
      ∀ between call' bounds', (∀ index, .prune index ∉ between) →
        Computes solver measure (afterAll solver (after solver s call) between) call' bounds' →
          (bounds ++ bounds').Pairwise m.sense.AtMost := by
  have hblank : ∀ index start, m.nodes.get? index = some start → start.Blank :=
    fun _ _ h => (Model.blank_of_build hm h).1
  have hedges := (Model.edges_nonneg hm).2
  have coherent := hmeasure.coherent
  have start : m.Secures solver measure [] s.model := by
    refine ⟨Model.hasRows_of_used ?_, .nil, nofun⟩
    have operating : m.Throughout (fun _ start n => Node.Operating solver m.sense start n)
        (afterAll solver ⟨m, draws, clock, stopwatch⟩ before).model :=
      operating_afterAll ⟨m, draws, clock, stopwatch⟩ before
    rw [← hs] at operating
    exact ⟨operating.declaration, fun index start n hstart hn =>
      ((operating.node index start n hstart hn).used_backed (hblank index start hstart)).1⟩
  have computes :
      ∀ {s : Session ℚ} {call bounds earlier}, m.Secures solver measure earlier s.model →
      Computes solver measure s call bounds →
        m.Secures solver measure (earlier ++ bounds) (after solver s call).model := by
    intro s call bounds earlier h hcall
    cases call with
    | train budget request =>
      obtain ⟨hroot, hlog⟩ := hcall
      obtain ⟨logged, hlogged, hsecures⟩ :=
        h.train hblank hsolver hedges hnoise coherent budget hroot
      rw [hlog] at hlogged
      rw [List.map_injective_iff.2 (fun _ _ => Datum.real.inj) hlogged]
      exact hsecures
    | bound state measure' =>
      obtain ⟨rfl, rfl, b, s', hbound, rfl⟩ := hcall
      rw [after, Action.final_of_ok hbound]
      rw [show s.model.initial = m.initial from congrArg (·.initial) h.rows.declaration] at hbound
      exact h.bound hblank hsolver hedges hnoise coherent hbound
    | simulate => exact hcall.elim
    | prune => exact hcall.elim
  refine ⟨fun budget request hroot => ?_, fun call bounds hcall => ?_⟩
  · obtain ⟨logged, hlogged, -⟩ := start.train hblank hsolver hedges hnoise coherent budget hroot
    exact ⟨logged, hroot, hlogged⟩
  · have first := computes start hcall
    refine ⟨first.ordered, fun between call' bounds' hbetween hcall' => ?_⟩
    exact (computes (first.afterAll hblank hbetween) hcall').ordered

/-- Two stages that cost ten and eleven. The bound is ten at first; one iteration gives the first
stage the cost of the second one. -/
theorem bounds_pairwise_of_two_stages :
    ∃ (graph : Graph ℚ) (m : Model ℚ) (s : Session ℚ) (request : TrainingRequest ℚ),
      Graph.ofEdges (.int 0) [.int 1, .int 2]
        [(.int 0, .int 1, .real 1), (.int 1, .int 2, .real 1)] [] = .ok graph ∧
      Model.build graph ⟨.finite 0, .posInf, 0⟩ (.text "min")
        ⟨[([.int 2], carrying 11)], carrying 10⟩ = .ok m ∧ carryingSolver.Sound ∧ s.model = m ∧
      Computes carryingSolver .expectation s (.bound m.initial .expectation) [10] ∧
      Computes carryingSolver .expectation
        (after carryingSolver s (.bound m.initial .expectation)) (.train 2 request) [21, 21] ∧
      ([10] ++ [21, 21] : List ℚ).Pairwise m.sense.AtMost := by
  let clock : Clock (Datum ℚ) := .ofReadings fun _ => .int 0
  let request : TrainingRequest ℚ :=
    { options := { TrainingOptions.standard with iterationLimit := .int 2 } }
  have check : (do
      let graph ← Graph.ofEdges (.int 0) [.int 1, .int 2]
        [(.int 0, .int 1, .real 1), (.int 1, .int 2, .real 1)] []
      let m ← Model.build graph ⟨.finite 0, .posInf, 0⟩ (.text "min")
        ⟨[([.int 2], carrying 11)], carrying 10⟩
      let first ← (bound carryingSolver m.initial .expectation).answer
        ⟨m, List.replicate 8 0, clock, clock⟩
      let report := train carryingSolver 2 request (after carryingSolver
        ⟨m, List.replicate 8 0, clock, clock⟩ (.bound m.initial .expectation))
      let logged ← (report.log.map (·.bound)).mapM Datum.asNumber
      if first.1 = 10 ∧ logged = [21, 21] ∧
          ∀ e ∈ m.nodes.entries, ∀ t ∈ e.2.stage.noise, 0 ≤ t.probability then return ()
        else .error .missingKey : Except (Failure ℚ) Unit).toBool = true := by
    decide +kernel
  simp only [Except.toBool_bind, Except.toBool_ite, Action.answer_eq_ok] at check
  obtain ⟨graph, hgraph, m, hm, first, run, logged, hlogged, hvalue, rfl, hnoise⟩ := check
  rw [hvalue] at run
  have asked : Computes carryingSolver .expectation ⟨m, List.replicate 8 0, clock, clock⟩
      (.bound m.initial .expectation) [10] := ⟨rfl, rfl, 10, first.2, run, rfl⟩
  have sound : carryingSolver.Sound := Solver.sound_certified _
  obtain ⟨bounds, trained⟩ : ∃ bounds, Computes carryingSolver .expectation (after carryingSolver
      ⟨m, List.replicate 8 0, clock, clock⟩ (.bound m.initial .expectation)) (.train 2 request)
      bounds :=
    (bounds_pairwise hm sound hnoise .expectation [.bound m.initial .expectation] rfl).1 2
    request rfl
  obtain rfl : bounds = [21, 21] := by
    rw [trained.2, Except.mapM_eq_ok, List.forall₂_map_left_iff] at hlogged
    exact List.forall₂_eq_eq_eq ▸ hlogged.imp fun _ _ => Except.ok.inj
  exact ⟨graph, m, _, request, hgraph, hm, sound, rfl, asked, trained,
    ((bounds_pairwise hm sound hnoise .expectation [] rfl).2 _ _ asked).2 [] _ _
      (fun _ => List.not_mem_nil) trained⟩

end Session

end Multistage
