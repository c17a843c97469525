import Multistage.Cut
import Multistage.Proofs.Dict
import Mathlib.Algebra.Order.Ring.Rat
import Mathlib.Data.List.Perm.Basic
import Mathlib.Data.String.Basic

/-!
# Which states are told apart

States over the same texts have a key, and they have the same key iff they have the same entries.

## Main definitions

- `State.Over`: the names of the entries of a state.

## Main statements

- `StateKey.exists_ofState`: every state over texts has a key.
- `StateKey.same_iff_perm`: states over the same texts are told apart iff their entries differ.

## Design notes

Keys are sorted by a comparison that is an order on texts only. The proofs therefore sort pairs of
a text and a number, and read the key off those.
-/

namespace Multistage

/-- The state has a value for each of the names and for nothing else. -/
def State.Over (names : List String) (x : State ℚ) : Prop := x.keys.Perm (names.map Datum.text)

theorem Datum.eq_text_of_identity_eq {α : Type} [Scalar α] {d : Datum α} {s : String}
    (h : d.identity = .text s) : d = .text s := by
  cases d with
  | text t =>
    cases h
    rfl
  | _ => cases h

theorem Datum.eq_texts_of_identities_eq {α : Type} [Scalar α] {ds : List (Datum α)}
    {names : List String} (h : ds.map identity = names.map .text) : ds = names.map .text := by
  induction ds generalizing names with
  | nil =>
    rw [List.map_eq_nil_iff.1 h.symm]
    rfl
  | cons d rest ih =>
    obtain ⟨s, others, rfl, hs, hothers⟩ := List.map_eq_cons_iff.1 h.symm
    rw [eq_text_of_identity_eq hs.symm, ih hothers.symm, List.map_cons]

namespace StateKey

/-- A named number as an entry of a key. -/
private def keyEntry (e : String × ℚ) : Name × Datum ℚ := (.text e.1, .real e.2)

/-- The named numbers that are the entries of a state over texts. -/
private theorem exists_texts {names : List String} {x : State ℚ} (h : x.Over names) :
    ∃ l : List (String × ℚ), (l.map (·.1)).Perm names ∧
      x.entries = l.map fun e => (.text e.1, e.2) := by
  have texts : ∀ es : List (Name × ℚ), (∀ e ∈ es, ∃ s ∈ names, Datum.text s = e.1) →
      ∃ l : List (String × ℚ), es = l.map fun e => (.text e.1, e.2) := by
    intro es hes
    induction es with
    | nil => exact ⟨[], rfl⟩
    | cons e rest ih =>
      obtain ⟨l, rfl⟩ := ih fun f hf => hes f (List.mem_cons_of_mem _ hf)
      obtain ⟨s, -, hs⟩ := hes e List.mem_cons_self
      exact ⟨(s, e.2) :: l, by rw [List.map_cons, hs]⟩
  obtain ⟨l, hl⟩ := texts x.entries fun e he =>
    List.mem_map.1 (h.mem_iff.1 (List.mem_map_of_mem he))
  refine ⟨l, ?_, hl⟩
  have injective : Function.Injective (Datum.text (α := Float)) := fun a b hab =>
    Datum.text.inj hab
  rw [← List.map_perm_map_iff injective, List.map_map]
  have keys : x.keys = l.map (Datum.text ∘ Prod.fst) := by
    rw [Dict.keys, hl, List.map_map]
    rfl
  rw [← keys]
  exact h

/-- Pairs are in the order of their texts. -/
private def byText (a b : String × ℚ) : Bool := !decide (b.1 < a.1)

private theorem byText_iff {a b : String × ℚ} : byText a b = true ↔ a.1 ≤ b.1 := by
  rw [byText, Bool.not_eq_true', decide_eq_false_iff_not, not_lt]

private theorem pairwise_byText (l : List (String × ℚ)) :
    (l.mergeSort byText).Pairwise fun a b => byText a b = true := by
  refine List.pairwise_mergeSort (fun a b c => ?_) (fun a b => ?_) l
  · simp only [byText_iff]
    exact le_trans
  · rw [Bool.or_eq_true, byText_iff, byText_iff]
    exact le_total _ _

/-- The key of a state over texts, read off its named numbers. -/
private theorem ofState_eq {x : State ℚ} {l : List (String × ℚ)}
    (h : x.entries = l.map fun e => (.text e.1, e.2)) :
    StateKey.ofState x = .ok ((l.mergeSort byText).map keyEntry) := by
  have names : sortable x.keys = true := by
    simp [sortable, Dict.keys, h]
  have keys : ∀ m : List (String × ℚ),
      ((m.map keyEntry).forM fun e => e.2.requireKey) = .ok () := by
    intro m
    induction m with
    | nil => rfl
    | cons e rest ih => exact ih
  have sorted : (l.map keyEntry).mergeSort (fun a b => !nameBefore b.1 a.1) =
      (l.mergeSort byText).map keyEntry :=
    (List.map_mergeSort (f := keyEntry) fun a _ b _ => rfl).symm
  unfold StateKey.ofState
  rw [names, h, List.map_map, ← sorted]
  show (((l.map keyEntry).forM fun e => e.2.requireKey) >>= fun _ => _) = _
  rw [keys]
  rfl

/-- Keys of texts and numbers are the same only if they are equal. -/
private theorem same_map_iff (l m : List (String × ℚ)) :
    same (l.map keyEntry) (m.map keyEntry) = true ↔ l = m := by
  induction l generalizing m with
  | nil => cases m <;> simp [same]
  | cons a l ih =>
    cases m with
    | nil => simp [same]
    | cons b m =>
      have names : (Datum.text a.1 == (Datum.text b.1 : Name)) = true ↔ a.1 = b.1 := by
        rw [Datum.beq_iff_identity_eq]
        exact ⟨fun h => Datum.Identity.text.inj h, congrArg _⟩
      have values : (Datum.real a.2).equals (.real b.2) = true ↔ a.2 = b.2 := by
        rw [Datum.equals, Bool.and_eq_true, Datum.beq_iff_identity_eq]
        constructor
        · rintro ⟨h, -⟩
          exact Extended.finite.inj (Datum.Identity.number.inj h)
        · rintro h
          exact ⟨congrArg _ (congrArg _ h), rfl⟩
      have rest := ih m
      simp only [same, Bool.and_eq_true] at rest
      simp only [same, List.map_cons, List.length_cons, List.zip_cons_cons, List.all_cons,
        Bool.and_eq_true, keyEntry, names, values, List.cons.injEq, Prod.ext_iff, ← rest]
      simp only [beq_iff_eq, Nat.add_right_cancel_iff]
      tauto

theorem exists_ofState {names : List String} {x : State ℚ} (h : x.Over names) :
    ∃ key : StateKey ℚ, StateKey.ofState x = .ok key := by
  obtain ⟨l, -, hl⟩ := exists_texts h
  exact ⟨_, ofState_eq hl⟩

/-- States over the same texts have the same key iff they have the same entries, in any order. -/
theorem same_iff_perm {names : List String} (hn : names.Nodup) {x y : State ℚ} (hx : x.Over names)
    (hy : y.Over names) {a b : StateKey ℚ} (ha : StateKey.ofState x = .ok a)
    (hb : StateKey.ofState y = .ok b) : same a b = true ↔ x.entries.Perm y.entries := by
  obtain ⟨l, hl, hxl⟩ := exists_texts hx
  obtain ⟨m, -, hym⟩ := exists_texts hy
  have injective : Function.Injective fun e : String × ℚ => ((.text e.1, e.2) : Name × ℚ) := by
    rintro ⟨s, u⟩ ⟨t, v⟩ h
    simpa using h
  rw [ofState_eq hxl] at ha
  rw [ofState_eq hym] at hb
  cases ha
  cases hb
  rw [same_map_iff, hxl, hym, List.map_perm_map_iff injective]
  constructor
  · intro h
    exact (List.mergeSort_perm l byText).symm.trans (h ▸ List.mergeSort_perm m byText)
  · intro h
    refine List.Perm.eq_of_pairwise (fun c d hc hd hcd hdc => ?_) (pairwise_byText l)
      (pairwise_byText m)
      ((List.mergeSort_perm l byText).trans (h.trans (List.mergeSort_perm m byText).symm))
    have distinct : (l.map (·.1)).Nodup := hl.nodup_iff.2 hn
    refine List.inj_on_of_nodup_map distinct (List.mem_mergeSort.1 hc)
      (h.mem_iff.2 (List.mem_mergeSort.1 hd)) ?_
    exact le_antisymm (byText_iff.1 hcd) (byText_iff.1 hdc)

end StateKey

theorem State.Over.distinct {names : List String} (hn : names.Nodup) {x : State ℚ}
    (h : x.Over names) : x.Distinct := by
  have keys : x.keys.Pairwise fun a b => (a == b) = false := by
    refine h.symm.pairwise ?_ fun {a b} hab => by rw [BEq.comm]; exact hab
    rw [List.pairwise_map]
    refine hn.imp fun {s t} hst => ?_
    rw [Bool.eq_false_iff]
    intro heq
    exact hst (Datum.Identity.text.inj (Datum.beq_iff_identity_eq.1 heq))
  exact List.pairwise_map.1 keys

theorem State.Over.exists_get? {names : List String} {x : State ℚ} (h : x.Over names) {name : Name}
    (hname : name ∈ names.map Datum.text) : ∃ v, x.get? name = some v :=
  Dict.exists_get?_of_mem_keys (h.mem_iff.2 hname)

end Multistage
