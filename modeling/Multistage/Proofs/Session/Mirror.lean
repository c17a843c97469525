import Multistage.Proofs.Model.Mirror
import Multistage.Proofs.Session.Passages

/-!
# Sessions of the other sense

A session of the model of the other sense draws the same scenarios, and its bounds, and what it
records of a simulation, are the negative ones.

## Main definitions

- `Session.mirror`: the session of the other sense.
- `VisitRecord.mirror`: the record of a visit of the other sense.
- `Recorder.Opposes`: recorders that record the same of subproblems of both senses.

## Main statements

- `Session.twin_bound`, `Session.twin_simulate`: bounds and simulations.
-/

namespace Multistage

open Multistage.Action (Ensures Mirrors Twin)

/-- The session of the other sense. -/
def Session.mirror (s : Session ℚ) : Session ℚ := { s with model := s.model.mirror }

/-- The solution of the child of the other sense. -/
def ChildSolution.mirror (c : ChildSolution ℚ) : ChildSolution ℚ :=
    { c with solution := c.solution.mirror }

/-- The entry with the negative number. -/
def RecordEntry.negated : RecordEntry ℚ → RecordEntry ℚ
  | reading (.number x) => reading (.number (-x))
  | entry => entry

/-- The entries of the objective of the stage and of the value term, which are negated in the other
sense. -/
def VisitRecord.isValue (key : Name) : Bool :=
    key == .text "stage_objective" || key == .text "bellman_term"

/-- The record of the other sense, where the values of `names` and what recorders read under the
keys `recorded` were asked for; entries of recorders are negated under the keys that are
`turned`. -/
def VisitRecord.mirror (names recorded turned : List Name) (record : VisitRecord ℚ) :
    VisitRecord ℚ :=
  record.mapValues fun key entry =>
    if recorded.contains key then if turned.contains key then entry.negated else entry
    else if names.contains key then entry
    else if isValue key then entry.negated else entry

/-- The second recorder reads off a subproblem of the other sense what the first one reads off the
subproblem, or its negative if the key is turned. -/
def Recorder.Opposes (turned : List Name) (r r' : Name × Recorder ℚ) : Prop :=
  r'.1 = r.1 ∧ ∀ (reserve : Reserve) installed (p : Subproblem ℚ), p.Reserves reserve installed →
    r'.2 (p.mirror reserve.term.index) =
      (r.2 p).map fun entry => if turned.contains r.1 then entry.negated else entry

namespace Session

variable {o : Opposites} {β : Type} {h : β → β} {R : β → Prop}

/-- The value terms of all nodes of the model are reserved. -/
def Reserves (o : Opposites) (s : Session ℚ) : Prop := s.model.Reserves o

theorem twin_onModel {act act' : Action ℚ (Model ℚ) β}
    (hact : Twin Model.mirror h (Model.Reserves o) R act act') :
    Twin mirror h (Reserves o) R (onModel act) (onModel act') :=
  .focus hact (fun _ => id) (fun _ _ _ => id) (fun _ _ => rfl) fun _ _ _ => rfl

theorem twin_onDraws {act : Action ℚ (Draws ℚ) β} (hact : Ensures (fun _ => True) act R) :
    Twin mirror id (Reserves o) R (onDraws act) (onDraws act) :=
  .elsewhere hact (fun _ _ => id) (fun _ _ => rfl) fun _ _ _ => rfl

theorem twin_readClock : Twin mirror id (Reserves o) (fun _ => True) readClock readClock :=
  .bind .get fun _ _ => .bind (.modify (fun _ => id) fun _ _ => rfl) fun _ _ =>
    .pure (h := id) trivial

/-- Both sessions draw the same scenario. -/
theorem twin_sample {scheme : Scheme ℚ} (hscheme : scheme.Meets o) :
    Twin mirror id (Reserves o)
      (fun found => (∀ v ∈ found.1.path, o.met v.node v.noise) ∧ found.2.Meets o)
      (sample scheme) (sample scheme) := by
  refine .bind .get fun s hs => ?_
  rw [show s.mirror.model = s.model.mirror from rfl, Scheme.sample_mirror]
  exact twin_onDraws (hscheme.sample_met hs)

theorem twin_solve {index noise : Datum ℚ} (state : State ℚ) (hnoise : o.met index noise)
    (needsDuals : Bool) :
    Twin mirror Solution.mirror (Reserves o) (fun _ => True)
      (solve o.solver index state noise needsDuals)
      (solve o.opposite index state noise needsDuals) :=
  twin_onModel (Model.twin_solve state hnoise needsDuals)

/-- The children are solved for the noise terms of their nodes. -/
theorem twin_solveChildren {σ : Type} {g : σ → σ} {I : σ → Prop} {model : σ → Model ℚ}
    {solve solve' : Datum ℚ → Datum ℚ → Action ℚ σ (Solution ℚ)} (edges : List (Edge ℚ))
    (hmodel : ∀ s, I s → (model s).Reserves o ∧ model (g s) = (model s).mirror)
    (hsolve : ∀ child noise, o.met child noise →
      Twin g Solution.mirror I (fun _ => True) (solve child noise) (solve' child noise)) :
    Twin g (List.map ChildSolution.mirror) I (fun _ => True) (solveChildren edges model solve)
      (solveChildren edges model solve') := by
  refine .bind .get fun s hs => ?_
  obtain ⟨hm, hmirror⟩ := hmodel s hs
  refine .bind (h := id) (R := fun steps => ∀ step ∈ steps, o.met step.1 step.2.1.term) ?_
    fun steps hsteps => ?_
  · rw [hmirror, Model.outcomes_mirror]
    exact .ofExcept (congrFun Except.map_id _).symm fun steps hsteps => hm.outcomes_met hsteps
  · refine (Twin.mapM (R := fun _ => True) fun step hstep => ?_).weaken fun _ _ => trivial
    exact .bind (hsolve step.1 step.2.1.term (hsteps step hstep)) fun s _ =>
      .pure (h := ChildSolution.mirror) (b := ⟨step.1, step.2.1, step.2.2, s⟩) trivial

theorem objectives_mirror (results : List (ChildSolution ℚ)) :
    (results.map ChildSolution.mirror).map (·.solution.objective) =
      (results.map (·.solution.objective)).map (-·) := by
  rw [List.map_map, List.map_map]
  rfl

theorem probabilities_mirror (results : List (ChildSolution ℚ)) :
    (results.map ChildSolution.mirror).map (·.probability) = results.map (·.probability) := by
  rw [List.map_map]
  rfl

/-- The bound of the other sense is the negative bound. -/
theorem twin_boundBy {σ : Type} {g : σ → σ} {I : σ → Prop} (model : σ → Model ℚ)
    {solve solve' : Datum ℚ → Datum ℚ → Action ℚ σ (Solution ℚ)} (measure : Measure ℚ)
    (hmodel : ∀ s, I s → (model s).Reserves o ∧ model (g s) = (model s).mirror)
    (hsolve : ∀ child noise, o.met child noise →
      Twin g Solution.mirror I (fun _ => True) (solve child noise) (solve' child noise)) :
    Twin g (-·) I (fun _ => True) (boundBy model solve measure) (boundBy model solve' measure) := by
  refine .bind .get fun s hs => ?_
  obtain ⟨-, hmirror⟩ := hmodel s hs
  rw [hmirror]
  refine .bind (twin_solveChildren (model s).rootChildren hmodel hsolve) fun results _ => ?_
  rw [objectives_mirror, probabilities_mirror]
  refine .bind (h := id) (R := fun _ => True) (.ofExcept ?_ fun _ _ => trivial) fun q _ => ?_
  · exact (Measure.adjust_flip (model s).sense _ _ measure).trans (congrFun Except.map_id _).symm
  · rw [Scalar.dotInLanes_eq_dot, Scalar.dotInLanes_eq_dot, Scalar.neg_dot]
    exact .pure (h := (-·)) trivial

theorem twin_bound (state : State ℚ) (measure : Measure ℚ) :
    Twin mirror (-·) (Reserves o) (fun _ => True) (bound o.solver state measure)
      (bound o.opposite state measure) :=
  twin_boundBy _ measure (fun _ hs => ⟨hs, rfl⟩) fun _ _ hnoise => twin_solve state hnoise true

/-! ### Simulations -/

/-- Names stand for the same values in a solved subproblem of the other sense. -/
theorem readName_mirror {p : Subproblem ℚ} {r : Reserve} {installed : Prop}
    (hp : p.Reserves r installed)
    (name : Name) : readName (p.mirror r.term.index) name = readName p name := by
  refine Except.bind_congr (x := p.lookup name) fun found hfound => ?_
  rw [Subproblem.read_mirror hp (hp.lookup_within hfound)]

theorem text_beq (s t : String) : ((.text s : Name) == .text t) = decide (s = t) := by
  rw [Bool.eq_iff_iff, Datum.beq_iff_identity_eq, decide_eq_true_iff]
  simp [Datum.identity]

theorem distinct_baseRecord (visit : Visit ℚ) (s : Solution ℚ) : (baseRecord visit s).Distinct :=
  Dict.distinct_ofList _

theorem baseRecord_mirror (visit : Visit ℚ) (s : Solution ℚ) :
    baseRecord visit s.mirror = (baseRecord visit s).mapValues fun key entry =>
      if VisitRecord.isValue key then entry.negated else entry := by
  have difference : -s.objective - -s.stageObjective = -(s.objective - s.stageObjective) := by ring
  unfold baseRecord
  rw [Dict.mapValues_ofList fun k k' entry hk => by
    rw [VisitRecord.isValue, VisitRecord.isValue, BEq.congr_left hk, BEq.congr_left hk]]
  simp [VisitRecord.isValue, text_beq, RecordEntry.negated, Solution.mirror, difference]

/-- Entries that are changed in one way are put into a record that was changed in another. -/
theorem insertAll_changed (change change' : Name → RecordEntry ℚ → RecordEntry ℚ)
    {record : VisitRecord ℚ} {entries : List (Name × RecordEntry ℚ)} {keys : List Name}
    (hrecord : record.Distinct) (hkeys : entries.map (·.1) = keys)
    (h : ∀ k k', (k == k') = true → change k = change k' ∧ change' k = change' k') :
    (record.mapValues change).insertAll (entries.map fun e => (e.1, change' e.1 e.2)) =
      (record.insertAll entries).mapValues fun key entry =>
        if keys.contains key then change' key entry else change key entry := by
  subst hkeys
  have inserted : ∀ e ∈ entries, (entries.map (·.1)).contains e.1 = true := fun e he =>
    List.elem_eq_true_of_mem (List.mem_map_of_mem he)
  have changed : entries.map (fun e => (e.1, change' e.1 e.2)) = entries.map fun e =>
      (e.1, if (entries.map (·.1)).contains e.1 then change' e.1 e.2 else change e.1 e.2) :=
    List.map_congr_left fun e he => by rw [if_pos (inserted e he)]
  rw [changed]
  refine Dict.insertAll_mapValues (f := fun key entry =>
    if (entries.map (·.1)).contains key then change' key entry else change key entry) hrecord
    (fun k k' entry hk => ?_) fun k entry hk => ?_
  · simp only [contains_congr hk, (h k k' hk).1, (h k k' hk).2]
  · have absent : (entries.map (·.1)).contains k = false := by
      rw [Bool.eq_false_iff, ne_eq, List.contains_iff_exists_mem_beq]
      rintro ⟨_, hmem, hkey⟩
      obtain ⟨e, he, rfl⟩ := List.mem_map.1 hmem
      rw [BEq.comm, hk e he] at hkey
      cases hkey
    rw [if_neg (Bool.eq_false_iff.1 absent)]

theorem visitRecord_mirror {p : Subproblem ℚ} {r : Reserve} {installed : Prop}
    (hp : p.Reserves r installed) (visit : Visit ℚ) (s : Solution ℚ) (names : List Name)
    {turned : List Name} {recorders recorders' : List (Name × Recorder ℚ)}
    (hrecorders : List.Forall₂ (Recorder.Opposes turned) recorders recorders') :
    visitRecord visit s.mirror (p.mirror r.term.index) names recorders' =
      (visitRecord visit s p names recorders).map
        (VisitRecord.mirror names (recorders.map (·.1)) turned) := by
  have recorded : recorders'.mapM (fun e => do return (e.1, ← e.2 (p.mirror r.term.index))) =
      (recorders.mapM fun e => do return (e.1, ← e.2 p) :
        Except (Failure ℚ) (List (Name × RecordEntry ℚ))).map
        (List.map fun e => (e.1, if turned.contains e.1 then e.2.negated else e.2)) := by
    induction hrecorders with
    | nil => rfl
    | @cons e e' _ _ he _ ih =>
      rw [List.mapM_cons, List.mapM_cons]
      refine Except.bind_image ?_ fun read _ => Except.bind_image ih fun rest _ => rfl
      refine Except.bind_image (he.2 r installed p hp) fun _ _ => ?_
      rw [he.1]
      rfl
  refine Except.bind_image (h := id) ?_ fun read hread => Except.bind_image recorded
    fun records hrecords => congrArg Except.ok ?_
  · refine (Except.mapM_congr fun name _ => ?_).trans (congrFun Except.map_id _).symm
    rw [readName_mirror hp]
  · have keys : read.map (·.1) = names := (Except.keys_of_mapM hread).trans (List.map_id' _)
    have keys' : records.map (·.1) = recorders.map (·.1) := Except.keys_of_mapM hrecords
    have isValue : ∀ k k' : Name, (k == k') = true →
        VisitRecord.isValue k = VisitRecord.isValue k' := fun k k' hk => by
      rw [VisitRecord.isValue, VisitRecord.isValue, BEq.congr_left hk, BEq.congr_left hk]
    have values := insertAll_changed
      (fun key entry => if VisitRecord.isValue key then entry.negated else entry)
      (fun _ entry => entry) (distinct_baseRecord visit s) keys
      fun k k' hk => ⟨by rw [isValue k k' hk], rfl⟩
    have all := insertAll_changed
      (fun key entry => if names.contains key then entry
        else if VisitRecord.isValue key then entry.negated else entry)
      (fun key entry => if turned.contains key then entry.negated else entry)
      ((distinct_baseRecord visit s).insertAll read) keys'
      fun k k' hk => ⟨by rw [isValue k k' hk, contains_congr hk], by rw [contains_congr hk]⟩
    rw [← baseRecord_mirror, List.map_id'] at values
    rw [← values] at all
    exact all

/-- Paths through noise terms that may be met are followed to records of the other sense. -/
theorem twin_followPath (names : List Name) {turned : List Name}
    {recorders recorders' : List (Name × Recorder ℚ)}
    (hrecorders : List.Forall₂ (Recorder.Opposes turned) recorders recorders')
    {path : List (Visit ℚ)} (hpath : ∀ v ∈ path, o.met v.node v.noise) (state : State ℚ) :
    Twin mirror (List.map (VisitRecord.mirror names (recorders.map (·.1)) turned)) (Reserves o)
      (fun _ => True) (followPath o.solver names recorders path state)
      (followPath o.opposite names recorders' path state) := by
  induction path generalizing state with
  | nil => exact .pure (h := List.map _) (b := ([] : List (VisitRecord ℚ))) trivial
  | cons visit rest ih =>
    obtain ⟨hvisit, hrest⟩ := List.forall_mem_cons.1 hpath
    refine .bind (twin_solve state hvisit false) fun s _ => .bind .get fun t ht => ?_
    refine .bind (h := Node.mirror) (R := fun n => ∃ r, n.Reserves (o.met visit.node) r)
      (.ofExcept (Model.node_mirror t.model visit.node) fun n hn => ?_) fun n ⟨r, hn⟩ => ?_
    · obtain ⟨r, hr, -⟩ := ht visit.node n (Model.node_eq_ok.1 hn).2
      exact ⟨r, hr⟩
    refine .bind (h := VisitRecord.mirror names (recorders.map (·.1)) turned) (R := fun _ => True)
      (.ofExcept ?_ fun _ _ => trivial) fun record _ => ?_
    · rw [Node.stage_mirror hn]
      exact visitRecord_mirror hn.stage.subproblem visit s names hrecorders
    · exact .bind (ih hrest s.outgoing) fun records _ =>
        .pure (h := List.map _) (b := record :: records) trivial

/-- Simulations of both senses visit the same nodes and leave the same states, with negated
objectives and value terms. -/
theorem twin_simulate (names : List Name) {turned : List Name}
    {recorders recorders' : List (Name × Recorder ℚ)}
    (hrecorders : List.Forall₂ (Recorder.Opposes turned) recorders recorders') (replications : ℕ)
    {scheme : Scheme ℚ} (hscheme : scheme.Meets o) :
    Twin mirror (List.map (List.map (VisitRecord.mirror names (recorders.map (·.1)) turned)))
      (Reserves o) (fun _ => True) (simulate o.solver names recorders replications scheme)
      (simulate o.opposite names recorders' replications scheme) := by
  induction replications generalizing scheme with
  | zero => exact .pure (h := List.map _) (b := ([] : List (List (VisitRecord ℚ)))) trivial
  | succ replications ih =>
    refine .bind (twin_sample hscheme) fun found hfound => .bind .get fun s _ => ?_
    refine .bind (twin_followPath names hrecorders hfound.1 s.model.initial) fun records _ => ?_
    exact .bind (ih hfound.2) fun rest _ => .pure (h := List.map _) (b := records :: rest) trivial

end Session

end Multistage
