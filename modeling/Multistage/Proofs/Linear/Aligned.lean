import Multistage.Proofs.Linear.Failing
import Multistage.Proofs.Lists

/-!
# Handles and their bounds

The variables of a subproblem and their two bounds stand in three lists, and a handle is a position
in them. A variable whose bounds cannot be read takes a position in the first list only. From then
on the bounds of later variables stand before the positions of their handles.

## Main definitions

- `Holding`, `Bookkeeping`: handles with the bounds that they were given last, beside the
  subproblem.
- `BoundCall`, `Bookkeeping.after`: a call that changes variables or bounds, and where it leads,
  whether it fails or not.
- `Subproblem.Gives`: the subproblem has the bounds of a handle that it was given.

## Main statements

- `Bookkeeping.leads_after`: what a call does.
- `Bookkeeping.Gives.afterAll`: handles with the right bounds keep them.
- `Bookkeeping.aligned_handles`: what handles and solves find after calls.
-/

namespace Multistage

/-- A handle that a subproblem returned, with the bounds that it was given at first or by the last
setter that succeeded. -/
structure Holding (α : Type) where
  handle : Variable
  lower : Extended α
  upper : Extended α
  deriving DecidableEq

/-- A call that changes variables or bounds. Its numbers may be failures to read them. -/
inductive BoundCall (α : Type) where
  | addVariable (name : Name) (lower upper : Except (Failure α) (Extended α))
  | setLower (v : Variable) (bound : Except (Failure α) (Extended α))
  | setUpper (v : Variable) (bound : Except (Failure α) (Extended α))
  | fix (v : Variable) (value : Except (Failure α) α)
  | unfix (v : Variable)

/-- The call adds a variable. -/
def BoundCall.adds {α : Type} : BoundCall α → Bool
  | addVariable .. => true
  | _ => false

/-- The call does not add a variable whose bounds cannot be read. -/
def BoundCall.isReadable {α : Type} : BoundCall α → Bool
  | addVariable _ (.ok _) (.ok _) => true
  | addVariable _ _ _ => false
  | _ => true

/-- A subproblem, and the handles that it returned. -/
structure Bookkeeping (α : Type) where
  subproblem : Subproblem α
  holdings : List (Holding α)

namespace Bookkeeping

variable {α : Type}

/-- Act on the subproblem. -/
def onSubproblem {β : Type} : Action α (Subproblem α) β → Action α (Bookkeeping α) β :=
  Action.focus (·.subproblem) fun t p => { t with subproblem := p }

/-- Change what the handle of a variable was given. -/
def note (v : Variable) (change : Holding α → Holding α) (holdings : List (Holding α)) :
    List (Holding α) :=
  holdings.map fun h => if h.handle.owner = v.owner ∧ h.handle.index = v.index then change h else h

/-- Make a call, and note what it gives to handles once it has succeeded. -/
def perform : BoundCall α → Action α (Bookkeeping α) Unit
  | .addVariable name lower upper => do
    let v ← onSubproblem (Subproblem.addVariable name lower upper)
    let l ← Action.ofExcept lower
    let u ← Action.ofExcept upper
    modify fun t => { t with holdings := t.holdings ++ [⟨v, l, u⟩] }
  | .setLower v bound => do
    let b ← Action.ofExcept bound
    onSubproblem (Subproblem.setLower v b)
    modify fun t => { t with holdings := note v (fun h => { h with lower := b }) t.holdings }
  | .setUpper v bound => do
    let b ← Action.ofExcept bound
    onSubproblem (Subproblem.setUpper v b)
    modify fun t => { t with holdings := note v (fun h => { h with upper := b }) t.holdings }
  | .fix v value => do
    let x ← Action.ofExcept value
    onSubproblem (Subproblem.fix v x)
  | .unfix v => onSubproblem (Subproblem.unfix v)

/-- Where a call leads, whether it fails or not. -/
def after (t : Bookkeeping α) (c : BoundCall α) : Bookkeeping α := (perform c).final t

/-- Where calls lead. -/
def afterAll (t : Bookkeeping α) (calls : List (BoundCall α)) : Bookkeeping α := calls.foldl after t

/-- A new subproblem, which has returned no handles. -/
def empty [Scalar α] (label : Datum α) (owner : ℕ) : Bookkeeping α :=
    ⟨Subproblem.empty label owner, []⟩

/-- What a call can do. A variable is added, and it is returned unless that fails. A bound is set,
or nothing is. -/
inductive Leads (t : Bookkeeping α) : BoundCall α → Bookkeeping α → Prop
  | notAdded {name : Name} {lower upper : Except (Failure α) (Extended α)} :
    Leads t (.addVariable name lower upper) ⟨t.subproblem.unfinished name lower upper, t.holdings⟩
  | added {name : Name} {l u : Extended α} {registry : Dict Name (Operand α)} :
    Leads t (.addVariable name (.ok l) (.ok u))
      ⟨{ t.subproblem.unfinished name (.ok l) (.ok u) with registry := registry },
        t.holdings ++ [⟨⟨t.subproblem.owner, t.subproblem.names.length, .ofName name⟩, l, u⟩]⟩
  | lowerSet {v : Variable} {b : Extended α} (howner : v.owner = t.subproblem.owner)
    (hlt : v.index < t.subproblem.lower.length) :
    Leads t (.setLower v (.ok b))
      ⟨{ t.subproblem with lower := t.subproblem.lower.set v.index b },
        note v (fun h => { h with lower := b }) t.holdings⟩
  | upperSet {v : Variable} {b : Extended α} (howner : v.owner = t.subproblem.owner)
    (hlt : v.index < t.subproblem.upper.length) :
    Leads t (.setUpper v (.ok b))
      ⟨{ t.subproblem with upper := t.subproblem.upper.set v.index b },
        note v (fun h => { h with upper := b }) t.holdings⟩
  | elsewhere {c : BoundCall α} (hc : c.adds = false) {fixed : Dict ℕ α} :
    Leads t c ⟨{ t.subproblem with fixed := fixed }, t.holdings⟩

theorem leads_after (t : Bookkeeping α) (c : BoundCall α) : t.Leads c (t.after c) := by
  have run : Action.Triple (· = t) (perform c) (fun _ => t.Leads c) (t.Leads c) := by
    cases c with
    | addVariable name lower upper =>
      have added : Action.Triple (· = t.subproblem) (Subproblem.addVariable name lower upper) _
          (· = t.subproblem.unfinished name lower upper) :=
        .of_cases (fun _ _ _ hs hr => (t.subproblem.triple_addVariable lower upper).ok hs hr)
          fun _ _ _ hs hr => (Subproblem.addVariable_eq_error.1 (hs ▸ hr)).1
      refine .bind ((Action.Triple.focus added).consequence (fun _ => id) (fun _ _ => id) ?_)
        fun v => ?_
      · rintro _ ⟨_, rfl, rfl⟩
        exact .notAdded
      · rintro _ ⟨_, rfl, l, u, registry, rfl, rfl, rfl, -, rfl⟩
        exact .added
    | setLower v bound =>
      refine .ofExcept_bind (fun b hb => ?_) fun s hs => ?_
      · subst hb
        refine .bind
          ((Action.Triple.focus (t.subproblem.triple_setLower v b)).consequence (fun _ => id)
          (fun _ _ => id) ?_) fun _ => ?_
        · rintro _ ⟨_, rfl, rfl⟩
          exact .elsewhere rfl
        · rintro _ ⟨_, rfl, howner, hlt, rfl⟩
          exact .lowerSet howner hlt
      · subst hs
        exact .elsewhere rfl
    | setUpper v bound =>
      refine .ofExcept_bind (fun b hb => ?_) fun s hs => ?_
      · subst hb
        refine .bind
          ((Action.Triple.focus (t.subproblem.triple_setUpper v b)).consequence (fun _ => id)
          (fun _ _ => id) ?_) fun _ => ?_
        · rintro _ ⟨_, rfl, rfl⟩
          exact .elsewhere rfl
        · rintro _ ⟨_, rfl, howner, hlt, rfl⟩
          exact .upperSet howner hlt
      · subst hs
        exact .elsewhere rfl
    | fix v value =>
      refine .ofExcept_bind (fun x _ => ?_) fun s hs => ?_
      · refine (Action.Triple.focus (Subproblem.triple_atVariable t.subproblem)).consequence
          (fun _ => id) ?_ ?_
        · rintro _ _ ⟨_, rfl, rfl⟩
          exact .elsewhere rfl
        · rintro _ ⟨_, rfl, rfl⟩
          exact .elsewhere rfl
      · subst hs
        exact .elsewhere rfl
    | unfix v =>
      refine (Action.Triple.focus (Subproblem.triple_atVariable t.subproblem)).consequence
        (fun _ => id) ?_ ?_
      · rintro _ _ ⟨_, rfl, rfl⟩
        exact .elsewhere rfl
      · rintro _ ⟨_, rfl, rfl⟩
        exact .elsewhere rfl
  exact run.final rfl

/-! ### Lengths -/

/-- So many variables have no position among the upper bounds, and no more of them have none among
the lower bounds. -/
def Lacks (t : Bookkeeping α) (missing : ℕ) : Prop :=
  t.subproblem.upper.length + missing = t.subproblem.names.length ∧
    t.subproblem.upper.length ≤ t.subproblem.lower.length ∧
    t.subproblem.lower.length ≤ t.subproblem.names.length

variable {t : Bookkeeping α} {missing k : ℕ}

/-- A creation takes a position among the variables, and one among the bounds of each side that it
reads. -/
theorem Lacks.after (h : t.Lacks missing) (c : BoundCall α) :
    (t.after c).Lacks (missing + if c.isReadable then 0 else 1) := by
  obtain ⟨hmissing, hupper, hlower⟩ := h
  have leads := t.leads_after c
  generalize t.after c = t' at leads ⊢
  unfold Lacks
  cases leads with
  | @notAdded name lower upper =>
    cases lower <;> cases upper <;>
      simp [Subproblem.unfinished, Except.toOption, BoundCall.isReadable] <;> omega
  | added =>
    simp [Subproblem.unfinished, Except.toOption, BoundCall.isReadable]
    omega
  | lowerSet => simp [BoundCall.isReadable, hmissing, hupper, hlower]
  | upperSet => simp [BoundCall.isReadable, hmissing, hupper, hlower]
  | elsewhere hc =>
    cases c with
    | addVariable => cases hc
    | _ => exact ⟨hmissing, hupper, hlower⟩

theorem Lacks.afterAll (h : t.Lacks missing) (calls : List (BoundCall α)) :
    (t.afterAll calls).Lacks (missing + calls.countP fun c => !c.isReadable) := by
  induction calls generalizing t missing with
  | nil => exact h
  | cons c rest ih =>
    have rests := ih (h.after c)
    rw [List.countP_cons]
    cases hc : c.isReadable with
    | true =>
      rw [hc] at rests
      exact rests
    | false =>
      rw [hc, Nat.add_assoc, Nat.add_comm (ite _ _ _)] at rests
      exact rests

/-! ### Bounds -/

end Bookkeeping

/-- The subproblem has the bounds of the handle. -/
def Subproblem.Gives {α : Type} (p : Subproblem α) (h : Holding α) : Prop :=
  h.handle.owner = p.owner ∧ p.lower[h.handle.index]? = some h.lower ∧
    p.upper[h.handle.index]? = some h.upper

theorem Subproblem.Gives.bounds {α : Type} {p : Subproblem α} {h : Holding α} (hp : p.Gives h) :
    p.lowerBound h.handle = .ok h.lower ∧ p.upperBound h.handle = .ok h.upper := by
  have place : p.position h.handle = .ok h.handle.index := if_pos (beq_iff_eq.2 hp.1)
  constructor
  · exact Except.bind_eq_ok.2 ⟨_, place, Except.elim_eq_ok.2 hp.2.1⟩
  · exact Except.bind_eq_ok.2 ⟨_, place, Except.elim_eq_ok.2 hp.2.2⟩

/-- A creation does not move the bounds of other variables. -/
theorem Subproblem.Gives.unfinished {α : Type} {p : Subproblem α} {h : Holding α} (hp : p.Gives h)
    (name : Name)
    (lower upper : Except (Failure α) (Extended α)) : (p.unfinished name lower upper).Gives h := by
  refine ⟨hp.1, ?_, ?_⟩
  · show (p.lower ++ _)[_]? = _
    rw [List.getElem?_append_left (List.getElem?_eq_some_iff.1 hp.2.1).1, hp.2.1]
  · show (p.upper ++ _)[_]? = _
    rw [List.getElem?_append_left (List.getElem?_eq_some_iff.1 hp.2.2).1, hp.2.2]

/-- A lower bound that is set is noted, and those of other handles stay. -/
theorem Subproblem.Gives.setLower {α : Type} {p : Subproblem α} {h : Holding α} (hp : p.Gives h)
    {v : Variable} {b : Extended α} (howner : v.owner = p.owner) :
    ({ p with lower := p.lower.set v.index b } : Subproblem α).Gives
      (if h.handle.owner = v.owner ∧
        h.handle.index = v.index then { h with lower := b } else h) := by
  obtain ⟨hlt, -⟩ := List.getElem?_eq_some_iff.1 hp.2.1
  split
  next same =>
    refine ⟨hp.1, ?_, hp.2.2⟩
    show (p.lower.set v.index b)[h.handle.index]? = some b
    rw [← same.2, List.getElem?_set_self hlt]
  next other =>
    refine ⟨hp.1, ?_, hp.2.2⟩
    show (p.lower.set v.index b)[h.handle.index]? = _
    rw [List.getElem?_set_ne fun heq => other ⟨hp.1.trans howner.symm, heq.symm⟩, hp.2.1]

/-- An upper bound that is set is noted, and those of other handles stay. -/
theorem Subproblem.Gives.setUpper {α : Type} {p : Subproblem α} {h : Holding α} (hp : p.Gives h)
    {v : Variable} {b : Extended α} (howner : v.owner = p.owner) :
    ({ p with upper := p.upper.set v.index b } : Subproblem α).Gives
      (if h.handle.owner = v.owner ∧
        h.handle.index = v.index then { h with upper := b } else h) := by
  obtain ⟨hlt, -⟩ := List.getElem?_eq_some_iff.1 hp.2.2
  split
  next same =>
    refine ⟨hp.1, hp.2.1, ?_⟩
    show (p.upper.set v.index b)[h.handle.index]? = some b
    rw [← same.2, List.getElem?_set_self hlt]
  next other =>
    refine ⟨hp.1, hp.2.1, ?_⟩
    show (p.upper.set v.index b)[h.handle.index]? = _
    rw [List.getElem?_set_ne fun heq => other ⟨hp.1.trans howner.symm, heq.symm⟩, hp.2.2]

namespace Bookkeeping

variable {t : Bookkeeping α} {missing k : ℕ}

/-- The first handles have the bounds that they were given. -/
def Gives (t : Bookkeeping α) (k : ℕ) : Prop :=
  k ≤ t.holdings.length ∧ ∀ h ∈ t.holdings.take k, t.subproblem.Gives h

/-- Handles that have the bounds that they were given go on to have them. -/
theorem Gives.after (h : t.Gives k) (c : BoundCall α) : (t.after c).Gives k := by
  obtain ⟨hk, given⟩ := h
  have leads := t.leads_after c
  generalize t.after c = t' at leads ⊢
  cases leads with
  | notAdded => exact ⟨hk, fun h hh => (given h hh).unfinished _ _ _⟩
  | @added name l u =>
    refine ⟨hk.trans (List.length_append ▸ Nat.le_add_right _ _), fun h hh => ?_⟩
    rw [List.take_append_of_le_length hk] at hh
    exact (given h hh).unfinished name (.ok l) (.ok u)
  | lowerSet howner =>
    refine ⟨hk.trans_eq (List.length_map _).symm, fun h hh => ?_⟩
    rw [note, ← List.map_take] at hh
    obtain ⟨held, hheld, rfl⟩ := List.mem_map.1 hh
    exact (given held hheld).setLower howner
  | upperSet howner =>
    refine ⟨hk.trans_eq (List.length_map _).symm, fun h hh => ?_⟩
    rw [note, ← List.map_take] at hh
    obtain ⟨held, hheld, rfl⟩ := List.mem_map.1 hh
    exact (given held hheld).setUpper howner
  | elsewhere => exact ⟨hk, given⟩

theorem Gives.afterAll (h : t.Gives k) (calls : List (BoundCall α)) :
    (t.afterAll calls).Gives k := by
  induction calls generalizing t with
  | nil => exact h
  | cons c rest ih => exact ih (h.after c)

/-- While all bounds can be read, all handles have the bounds that they were given. -/
theorem gives_after (h : t.Gives t.holdings.length) (haligned : t.Lacks 0) {c : BoundCall α}
    (hc : c.isReadable = true) : (t.after c).Gives (t.after c).holdings.length := by
  have older := h.after c
  have leads := t.leads_after c
  generalize t.after c = t' at leads older ⊢
  -- the other calls add no handle
  have same : t'.holdings.length = t.holdings.length → t'.Gives t'.holdings.length := fun hlength =>
    hlength ▸ older
  cases leads with
  | notAdded => exact same rfl
  | lowerSet => exact same (List.length_map _)
  | upperSet => exact same (List.length_map _)
  | elsewhere => exact same rfl
  | added =>
    refine ⟨le_rfl, fun h hh => ?_⟩
    rw [List.take_length] at hh
    obtain hh | hh := List.mem_append.1 hh
    · exact older.2 h (by simpa using hh)
    · -- the new handle is the last position of all three lists
      rw [List.mem_singleton.1 hh]
      obtain ⟨hmissing, hupper, hlower⟩ := haligned
      have hl : t.subproblem.lower.length = t.subproblem.names.length := by omega
      have hu : t.subproblem.upper.length = t.subproblem.names.length := by omega
      refine ⟨rfl, ?_, ?_⟩
      · simp [Subproblem.unfinished, Except.toOption, ← hl]
      · simp [Subproblem.unfinished, Except.toOption, ← hu]

theorem gives_afterAll (h : t.Gives t.holdings.length) (haligned : t.Lacks 0)
    {calls : List (BoundCall α)} (hcalls : ∀ c ∈ calls, c.isReadable = true) :
    (t.afterAll calls).Gives (t.afterAll calls).holdings.length := by
  induction calls generalizing t with
  | nil => exact h
  | cons c rest ih =>
    have hc := hcalls c List.mem_cons_self
    have aligned := haligned.after c
    rw [hc] at aligned
    exact ih (gives_after h haligned hc) aligned fun d hd => hcalls d (List.mem_cons_of_mem _ hd)

theorem Lacks.aligned_iff (h : t.Lacks missing) :
    (t.subproblem.lower.length = t.subproblem.names.length ∧
      t.subproblem.upper.length = t.subproblem.names.length) ↔ missing = 0 := by
  obtain ⟨hmissing, hupper, hlower⟩ := h
  omega

/-- After calls on a new subproblem, failing ones included: the variables and the bounds of each
side are equally many, and a solve is given a pair of bounds for every variable, iff no variable was
added whose bounds could not be read. Handles that were returned before such a variable have the
bounds that they were given at first or by the last setter that succeeded, and a solve is given
these, unless they are fixed. -/
theorem aligned_handles [Scalar α] (label : Datum α) (owner : ℕ) (calls : List (BoundCall α)) :
    let t := (empty label owner).afterAll calls
    (t.subproblem.lower.length = t.subproblem.names.length ∧
      t.subproblem.upper.length = t.subproblem.names.length ↔ ∀ c ∈ calls, c.isReadable = true) ∧
    (t.subproblem.keptBounds.length = t.subproblem.names.length ↔ ∀ c ∈ calls,
      c.isReadable = true) ∧
    ((∀ c ∈ calls, c.isReadable = true) → t.subproblem.spreadBounds = .ok t.subproblem.keptBounds) ∧
    ∀ before later, calls = before ++ later → (∀ c ∈ before, c.isReadable = true) →
      ∀ h ∈ t.holdings.take ((empty label owner).afterAll before).holdings.length,
        t.subproblem.lowerBound h.handle = .ok h.lower ∧
        t.subproblem.upperBound h.handle = .ok h.upper ∧
        t.subproblem.keptBounds[h.handle.index]? =
          some (if t.subproblem.fixed.contains h.handle.index
          then (none, none) else (h.lower.finite?, h.upper.finite?)) := by
  intro t
  have start : (empty label owner).Lacks 0 := ⟨rfl, le_rfl, le_rfl⟩
  have lacks : t.Lacks (0 + calls.countP fun c => !c.isReadable) := start.afterAll calls
  have aligned : (t.subproblem.lower.length = t.subproblem.names.length ∧
      t.subproblem.upper.length = t.subproblem.names.length) ↔
        ∀ c ∈ calls, c.isReadable = true := by
    rw [lacks.aligned_iff, Nat.zero_add, List.countP_eq_zero]
    simp
  refine ⟨aligned, ?_, fun hcalls => ?_, ?_⟩
  · rw [← aligned, Subproblem.length_keptBounds]
    obtain ⟨-, hupper, hlower⟩ := lacks
    omega
  · obtain ⟨hlower, hupper⟩ := aligned.2 hcalls
    exact Subproblem.spreadBounds_eq_kept hlower hupper
  · intro before later hcalls hbefore h hh
    have given : ((empty label owner).afterAll before).Gives
        ((empty label owner).afterAll before).holdings.length :=
      gives_afterAll ⟨le_rfl, fun _ hnone => (List.not_mem_nil hnone).elim⟩ start hbefore
    have split : t = ((empty label owner).afterAll before).afterAll later := by
      rw [afterAll, afterAll, ← List.foldl_append, ← hcalls]
      rfl
    have gives : t.subproblem.Gives h := (split ▸ given.afterAll later).2 h hh
    refine ⟨gives.bounds.1, gives.bounds.2, ?_⟩
    rw [Subproblem.getElem?_keptBounds, gives.2.1, gives.2.2]
    rfl

/-- Two variables, of which the second is set, fixed and let go, while a third one fails at its
name. Another one whose bound cannot be read leaves them their bounds, and takes the place of those
of the next one. -/
theorem aligned_handles_of_two_variables :
    ∃ (x y : Variable) (calls : List (BoundCall ℚ)) (unreadable : BoundCall ℚ),
      let t := (empty (.null : Datum ℚ) 0).afterAll calls
      let t' := (empty (.null : Datum ℚ) 0).afterAll (calls ++ [unreadable])
      t.holdings = [⟨x, .finite 0, .finite 1⟩, ⟨y, .finite 2, .posInf⟩] ∧
      t.subproblem.names.length = 3 ∧ t.subproblem.upper.length = 3 ∧
      t.subproblem.spreadBounds = .ok t.subproblem.keptBounds ∧
      t.subproblem.lowerBound y = .ok (.finite 2) ∧ t.subproblem.upperBound y = .ok .posInf ∧
      t'.subproblem.names.length = 4 ∧ t'.subproblem.upper.length = 3 ∧
      t'.subproblem.lowerBound y = .ok (.finite 2) := by
  let x : Variable := ⟨0, 0, .name "x"⟩
  let y : Variable := ⟨0, 1, .name "y"⟩
  let calls : List (BoundCall ℚ) :=
    [.addVariable (.text "x") (.ok (.finite 0)) (.ok (.finite 1)),
      .addVariable (.text "y") (.ok .negInf) (.ok .posInf),
      .setLower y (.ok (.finite 2)), .addVariable (.text "x") (.ok .negInf) (.ok .posInf),
      .setUpper y (.error .malformedNumber), .setUpper ⟨1, 0, .position⟩ (.ok .negInf),
      .fix y (.ok 3), .unfix y]
  let unreadable : BoundCall ℚ := .addVariable .null (.error .tooLarge) (.ok .posInf)
  have readable : ∀ c ∈ calls, c.isReadable = true := List.all_eq_true.1 (by decide +kernel)
  obtain ⟨-, -, spread, handles⟩ := aligned_handles (.null : Datum ℚ) 0 calls
  obtain ⟨lower, upper, -⟩ :=
    handles calls [] (List.append_nil _).symm readable ⟨y, .finite 2, .posInf⟩
    (by decide +kernel)
  obtain ⟨-, -, -, handles'⟩ := aligned_handles (.null : Datum ℚ) 0 (calls ++ [unreadable])
  obtain ⟨lower', -, -⟩ :=
    handles' calls [unreadable] rfl readable ⟨y, .finite 2, .posInf⟩ (by decide +kernel)
  exact ⟨x, y, calls,
    unreadable, by
    decide +kernel, by decide +kernel, by decide +kernel, spread readable, lower, upper,
    by decide +kernel, by decide +kernel, lower'⟩

end Bookkeeping

end Multistage
