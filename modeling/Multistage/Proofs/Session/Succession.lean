import Multistage.Proofs.Model.Throughout
import Multistage.Proofs.Node.Succession
import Multistage.Proofs.Session.Steps

/-!
# Cuts that support the values of steps

A cut that was recorded never exceeds what the measure of its node makes of the optimal values of
the children, at any state in which they are entered and however many cuts have been added since.
Where it was recorded it attains this value, until a child gets further cuts.

## Main definitions

- `Model.Extends`: the nodes have what they have in an earlier model.
- `Model.Weighs`: what the measure of a node makes of the optimal values of its children.
- `Model.Supports`: a function of the state that never exceeds what the measure makes of them.
- `Model.Tight`: a model in use whose cuts do not.

## Main statements

- `Model.supports_newCut`: the cut of a refinement.
- `Model.weighs_newCut`: its height.
-/

namespace Multistage

namespace Model

/-- Every node has what it has in the model `m₁`, and no more unless it may grow. -/
def Extends (m₀ m₁ : Model ℚ) (grows : Datum ℚ → Prop) : Model ℚ → Prop :=
  m₀.Throughout fun index start n => ∀ n₁, m₁.nodes.get? index = some n₁ →
    Node.Succeeds m₀.sense start n₁ (grows index) n

/-- What a solve finds that answers, with the constraints of the node in the model `m₁`. -/
def Finds (solver : Solver ℚ) (m₀ m₁ : Model ℚ) (needsDuals : Bool) (index noise : Datum ℚ)
    (x : State ℚ) (s : Solution ℚ) : Prop :=
  ∃ start n₁, m₀.nodes.get? index = some start ∧ m₁.nodes.get? index = some n₁ ∧
    Node.Finds solver m₀.sense start n₁ x noise needsDuals s

/-- The child of the outcome of a step has the optimal value, entered in a state. -/
def HasValue (m₀ m : Model ℚ) (x : State ℚ) (step : Datum ℚ × NoiseTerm ℚ × ℚ) (v : ℚ) : Prop :=
  ∃ n, m.nodes.get? step.1 = some n ∧ n.HasValue m₀.sense x step.2.1.term v

/-- The value is what the measure of a node makes of the optimal values of its children, entered in
a state, for all their noise terms. -/
def Weighs (m₀ : Model ℚ) (F : Datum ℚ → Measure ℚ) (m : Model ℚ) (index : Datum ℚ) (x : State ℚ)
    (t : ℚ) : Prop :=
  ∃ start values q, m₀.nodes.get? index = some start ∧
    List.Forall₂ (m₀.HasValue m x) (m₀.steps start.children) values ∧
    (F index).adjust m₀.sense ((m₀.steps start.children).map (·.2.2)) values = .ok q ∧
    t = Scalar.dot q values

/-- At no state the function exceeds what the measure of the node makes of the optimal values of its
children, now and after nodes have grown. -/
def Supports (m₀ : Model ℚ) (F : Datum ℚ → Measure ℚ) (index : Datum ℚ) (plane : (Name → ℝ) → ℝ)
    (m : Model ℚ) : Prop :=
  ∀ m', m₀.Extends m (fun _ => True) m' → ∀ y t, m₀.Weighs F m' index y t →
    m₀.sense.AtMost (plane y.profile) (t : ℝ)

/-- The model is in use, and its cuts support what the measures make of optimal values. -/
structure Tight (m₀ : Model ℚ) (F : Datum ℚ → Measure ℚ) (m : Model ℚ) : Prop where
  grown : m₀.Extends m₀ (fun _ => True) m
  supported : ∀ index n, m.nodes.get? index = some n →
  ∀ plane ∈ n.planes, m₀.Supports F index plane m

variable {m₀ m₁ m₂ m : Model ℚ} {grows grows' : Datum ℚ → Prop} {F : Datum ℚ → Measure ℚ}
  {solver : Solver ℚ} {index : Datum ℚ} {x : State ℚ} {t : ℚ}

/-- A measure makes one value of the optimal values of the children. -/
theorem Weighs.unique {t' : ℚ} (h : m₀.Weighs F m index x t) (h' : m₀.Weighs F m index x t') :
    t = t' := by
  obtain ⟨start, values, q, hs, hvalues, hq, rfl⟩ := h
  obtain ⟨start', values', q', hs', hvalues', hq', rfl⟩ := h'
  cases hs.symm.trans hs'
  have same : values = values' := by
    rw [← List.forall₂_eq_eq_eq]
    refine forall₂_comp hvalues.flip hvalues' fun v step v' hv hv' => ?_
    obtain ⟨n, hn, hv⟩ := hv
    obtain ⟨n', hn', hv'⟩ := hv'
    cases hn.symm.trans hn'
    exact hv.unique hv'
  subst same
  cases hq.symm.trans hq'
  rfl

/-! ### Models that extend others -/

theorem extends_of_blank (hblank : ∀ index start, m₀.nodes.get? index = some start → start.Blank) :
    m₀.Extends m₀ grows m₀ := by
  refine throughout_self fun index start hs n₁ hn₁ => ?_
  cases hs.symm.trans hn₁
  exact .of_blank (hblank index start hs)

namespace Extends

/-- A model that extends an earlier one extends itself. -/
theorem self (h : m₀.Extends m₁ grows m) (h₁ : m₁.declaration = m₀.declaration) :
    m₀.Extends m grows' m := by
  refine ⟨h.declaration, fun index start n hs hn n' hn' => ?_⟩
  cases hn.symm.trans hn'
  obtain ⟨n₁, hn₁, -⟩ := get?_of_declaration_eq h₁ hs
  exact (h.node index start n hs hn n₁ hn₁).self

theorem trans (h : m₀.Extends m₁ grows m₂) (h' : m₀.Extends m₂ grows' m) :
    m₀.Extends m₁ (fun i => grows i ∨ grows' i) m := by
  refine ⟨h'.declaration, fun index start n hs hn n₁ hn₁ => ?_⟩
  obtain ⟨n₂, hn₂, -⟩ := get?_of_declaration_eq h.declaration hs
  exact (h.node index start n₂ hs hn₂ n₁ hn₁).trans (h'.node index start n hs hn n₂ hn₂)

theorem mono (h : m₀.Extends m₁ grows m) (hgrows : ∀ i, grows i → grows' i) :
    m₀.Extends m₁ grows' m :=
  ⟨h.declaration, fun index start n hs hn n₁ hn₁ =>
    (h.node index start n hs hn n₁ hn₁).mono (hgrows index)⟩

/-- The node of a model that extends another one. -/
theorem exists_succeeds (h : m₀.Extends m₁ grows m) {start n₁ : Node ℚ}
    (hs : m₀.nodes.get? index = some start) (hn₁ : m₁.nodes.get? index = some n₁) :
    ∃ n, m.nodes.get? index = some n ∧ Node.Succeeds m₀.sense start n₁ (grows index) n := by
  obtain ⟨n, hn, -, hsucceeds⟩ := h.exists_node hs
  exact ⟨n, hn, hsucceeds n₁ hn₁⟩

end Extends

theorem Supports.of_extends {plane : (Name → ℝ) → ℝ} (h : m₀.Supports F index plane m₁)
    (h' : m₀.Extends m₁ grows m) : m₀.Supports F index plane m :=
  fun m' hm' => h m' ((h'.trans hm').mono fun _ _ => trivial)

section Blank

variable (hblank : ∀ index start, m₀.nodes.get? index = some start → start.Blank)

include hblank

/-- Solves that answer change neither constraints nor cuts. -/
theorem completes_solve (h₁ : m₁.declaration = m₀.declaration) (index noise : Datum ℚ) (x : State ℚ)
    (needsDuals : Bool) :
    Action.Completes (m₀.Extends m₁ fun _ => False) (Model.solve solver index x noise needsDuals)
      (m₀.Finds solver m₁ needsDuals index noise x) := by
  refine Action.Triple.get_bind fun m hm => ?_
  rw [show m.sense = m₀.sense from congrArg (·.sense) hm.declaration]
  refine (completes_onNode (fun _ => Node.declaration_solve solver _ x noise _)
    fun j start hij hs => .of_ok fun n s n' hn hrun => ?_).startingAt hm
  have solved : ∀ n₁, m₁.nodes.get? j = some n₁ → Node.Succeeds m₀.sense start n₁ False n' ∧
      Node.Finds solver m₀.sense start n₁ x noise needsDuals s := fun n₁ hn₁ =>
    (Node.completes_solve (hblank j start hs) x noise needsDuals).ok (hn n₁ hn₁) hrun
  obtain ⟨n₁, hn₁, -⟩ := get?_of_declaration_eq h₁ hs
  exact ⟨fun n₁ hn₁ => (solved n₁ hn₁).1, start, n₁, Dict.get?_congr hij ▸ hs,
    Dict.get?_congr hij ▸ hn₁, (solved n₁ hn₁).2⟩

/-- Optimal values of nodes that do not grow stay. -/
theorem HasValue.of_extends (hgrown : m₀.Extends m₀ (fun _ => True) m₁) (h : m₀.Extends m₁ grows m)
    {step : Datum ℚ × NoiseTerm ℚ × ℚ} (hstill : ¬grows step.1) {v : ℚ}
    (hv : m₀.HasValue m₁ x step v) : m₀.HasValue m x step v := by
  obtain ⟨n₁, hn₁, hv⟩ := hv
  obtain ⟨start, hs, -⟩ := get?_of_declaration_eq hgrown.declaration.symm hn₁
  have used := hgrown.node step.1 start n₁ hs hn₁ start hs
  obtain ⟨n, hn, hsucceeds⟩ := h.exists_succeeds hs hn₁
  have hb := hblank step.1 start hs
  obtain ⟨p, posed, -⟩ := id hv
  exact ⟨n, hn, hv.of_rows hb (Node.poses_of_pose hb used.used used.posed posed) used.used
    hsucceeds.used (hsucceeds.still hstill).1⟩

/-- What is made of optimal values stays as long as the children do not grow. -/
theorem Weighs.of_extends (hgrown : m₀.Extends m₀ (fun _ => True) m₁) (h : m₀.Extends m₁ grows m)
    (hstill : ∀ start, m₀.nodes.get? index = some start → ∀ e ∈ start.children, ¬grows e.child)
    (hw : m₀.Weighs F m₁ index x t) : m₀.Weighs F m index x t := by
  obtain ⟨start, values, q, hs, hvalues, hq, rfl⟩ := hw
  refine ⟨start, values, q, hs, (forall₂_with_mem hvalues).imp fun step v hv => ?_, hq, rfl⟩
  obtain ⟨e, he, t, -, rfl⟩ := mem_steps.1 hv.1
  exact hv.2.of_extends hblank hgrown h (hstill start hs e he)

/-! ### The cut of a refinement -/

section Refinement

variable (hsolver : solver.Sound) {start : Node ℚ} (hs : m₀.nodes.get? index = some start)
  {results : List (ChildSolution ℚ)}
  (hall : List.Forall₂ (Session.Solves fun child noise => m₀.Finds solver m₁ true child noise x)
    (m₀.steps start.children) results)
  {c : Cut ℚ} {height : ℚ} (hx : x.Distinct)
  (hcut : Node.newCut m₀.sense (F index) x (results.map (·.solution.duals))
    (results.map (·.probability)) (results.map (·.solution.objective)) = .ok (c, height))

include hsolver hs hall hx hcut

/-- The cut of a refinement supports what the measure makes of optimal values. -/
theorem supports_newCut (hcoherent : (F index).Coherent)
    (hfree : ∀ index start, m₀.nodes.get? index = some start → ∀ e ∈ start.stage.states.entries,
      ¬start.stage.Assignable (.fixed e.2.incoming.index))
    (hnonneg : ∀ step ∈ m₀.steps start.children,
      0 ≤ step.2.2) : m₀.Supports F index c.value m₁ := by
  rintro m' hm' y t ⟨start', values, q', hs', hvalues, hq', rfl⟩
  cases hs.symm.trans hs'
  obtain ⟨q, hq, -, -, -, hvalue⟩ := Node.value_newCut hx hcut
  rw [Session.probabilities_of_solves hall] at hq
  rw [hvalue, List.map_map, List.map_map, List.zipWith_map, List.zipWith_self]
  refine hcoherent.sum_atMost_dot (fun p hp => ?_) ?_ hq ?_ ?_ hq'
  · obtain ⟨step, hstep, rfl⟩ := List.mem_map.1 hp
    exact hnonneg step hstep
  · rw [List.length_map, List.length_map, hall.length_eq]
  · rw [List.length_map, hvalues.length_eq]
  -- each solution is moved to the state, where its child has an optimal value
  rw [List.forall₂_map_left_iff]
  refine forall₂_comp hall.flip hvalues fun r step v hr hv => ?_
  obtain ⟨child, n₁, hchild, hn₁, found⟩ := hr.solution
  obtain ⟨p, p', ready, rows, solved⟩ := found.solved
  obtain ⟨n, hn, hv⟩ := hv
  obtain ⟨n', hn', succeeds⟩ := hm'.exists_succeeds hchild hn₁
  cases hn.symm.trans hn'
  have used := succeeds.used
  rw [← rows] at used
  exact ready.moved_atMost hsolver (hblank _ child hchild) found.poses
    (hfree _ child hchild) solved hx
    used hv

/-- The height of the cut of a refinement is what the measure makes of optimal values. -/
theorem weighs_newCut (hm : m₀.Extends m₁ grows m) (hstill : ∀ e ∈ start.children, ¬grows e.child) :
    m₀.Weighs F m index x height ∧ c.value x.profile = (height : ℝ) := by
  obtain ⟨q, hq, -, -, rfl, hvalue⟩ := Node.value_newCut hx hcut
  rw [Session.probabilities_of_solves hall] at hq
  refine ⟨⟨start, _, q, hs, ?_, hq, rfl⟩, ?_⟩
  · rw [List.forall₂_map_right_iff]
    refine (forall₂_with_mem hall).imp fun step r ⟨hstep, hr⟩ => ?_
    obtain ⟨child, n₁, hchild, hn₁, found⟩ := hr.solution
    obtain ⟨p, p', ready, rows, solved⟩ := found.solved
    obtain ⟨n, hn, succeeds⟩ := hm.exists_succeeds hchild hn₁
    obtain ⟨e, he, noise, -, rfl⟩ := mem_steps.1 hstep
    exact ⟨n, hn, .of_solved hsolver (hblank _ child hchild) found.poses ready solved succeeds.used
      ((succeeds.still (hstill e he)).1.trans rows.symm)⟩
  · rw [hvalue, Node.cast_dot, List.map_map, List.map_map, List.zipWith_map, List.zipWith_self]
    simp only [Function.comp_def, State.moved_self hx, add_zero]

end Refinement

end Blank

end Model

end Multistage
