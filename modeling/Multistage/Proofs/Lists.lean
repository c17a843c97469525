import Mathlib.Data.List.Basic
import Mathlib.Data.List.GetD
import Mathlib.Data.List.Forall2
import Mathlib.Data.List.Perm.Basic
import Mathlib.Data.List.Range
import Mathlib.Data.Nat.Notation

/-!
# Items of lists by their positions

## Main statements

- `pairwise_iff_count_le_one`: lists without equal items.
- `getElem?_of_map_eq`: lists whose images are equal have items with the same image.
- `forall_getD_iff`: what holds at every position holds of every item.
- `getElem?_set_cases`, `getElem?_concat_cases`: an item of a list that was changed at one position.
- `flatMap_zipIdx_single`: what is collected at one position.
- `map_some_filter_drop_perm`: the items that satisfy a predicate are those at their positions.
- `forall₂_comp`, `forall₂_with_mem`, `forall_mem_iff_of_forall₂`, `forall₂_modify`: relations of
  the items of two lists.
-/

namespace Multistage

variable {κ γ : Type} {xs ys : List κ} {x y : κ} {k i : ℕ}

/-- Of equal items a list has either both or none. -/
theorem contains_congr [BEq κ] [EquivBEq κ] (h : (x == y) = true) :
    xs.contains x = xs.contains y := by
  rw [Bool.eq_iff_iff, List.contains_iff_exists_mem_beq, List.contains_iff_exists_mem_beq]
  exact exists_congr fun a => and_congr_right fun _ => by rw [BEq.congr_left h]

/-- A list has equal items equally often. -/
theorem count_congr [BEq κ] [EquivBEq κ] (h : (x == y) = true) : xs.count x = xs.count y :=
  List.countP_congr fun _ _ => by rw [BEq.congr_right h]

theorem count_pos_iff [BEq κ] [EquivBEq κ] : 0 < xs.count x ↔ xs.contains x = true := by
  rw [List.count, List.countP_pos_iff, List.contains_iff_exists_mem_beq]
  exact exists_congr fun a => and_congr_right fun _ => by rw [BEq.comm]

/-- No two items of a list are equal iff no item is there more than once. -/
theorem pairwise_iff_count_le_one [BEq κ] [EquivBEq κ] :
    (xs.Pairwise fun a b => (a == b) = false) ↔ ∀ x, xs.count x ≤ 1 := by
  induction xs with
  | nil => simp
  | cons a rest ih =>
    rw [List.pairwise_cons, ih]
    have absent : (∀ b ∈ rest, (a == b) = false) ↔ rest.count a = 0 := by
      rw [List.count, List.countP_eq_zero]
      exact forall_congr' fun b => forall_congr' fun _ => by rw [BEq.comm, Bool.not_eq_true]
    rw [absent]
    constructor
    · rintro ⟨hnone, hrest⟩ x
      rw [List.count_cons]
      split
      next hax =>
        have same : rest.count a = rest.count x := count_congr hax
        omega
      next => exact hrest x
    · intro h
      have first := h a
      rw [List.count_cons, if_pos BEq.rfl] at first
      refine ⟨by omega, fun x => ?_⟩
      have := h x
      rw [List.count_cons] at this
      omega

theorem forall_mem_of_contains_le [BEq κ] [EquivBEq κ] {P : κ → Prop}
    (hP : ∀ a b, (a == b) = true → P b → P a) (h : ∀ c, ys.contains c = true → xs.contains c = true)
    (hxs : ∀ x ∈ xs, P x) : ∀ y ∈ ys, P y := by
  intro y hy
  obtain ⟨x, hx, hyx⟩ := List.contains_iff_exists_mem_beq.1
    (h y (List.elem_eq_true_of_mem hy))
  exact hP y x hyx (hxs x hx)

/-- What holds of equal items alike holds of all items of both or of neither of two lists that hold
the same items. -/
theorem forall_mem_iff_of_contains_eq [BEq κ] [EquivBEq κ] {P : κ → Prop}
    (hP : ∀ a b, (a == b) = true → P b → P a) (h : ∀ c, xs.contains c = ys.contains c) :
    (∀ x ∈ xs, P x) ↔ ∀ y ∈ ys, P y :=
  ⟨forall_mem_of_contains_le hP fun c => (h c).symm ▸ id,
    forall_mem_of_contains_le hP fun c => (h c) ▸ id⟩

theorem getElem?_of_map_eq {f : κ → γ} (h : xs.map f = ys.map f) (hx : xs[k]? = some x) :
    ∃ y, ys[k]? = some y ∧ f x = f y := by
  have same := congrArg (·[k]?) h
  simp only [List.getElem?_map, hx, Option.map_some] at same
  obtain ⟨y, hy, hxy⟩ := Option.map_eq_some_iff.1 same.symm
  exact ⟨y, hy, hxy.symm⟩

theorem exists_mem_of_map_eq {f : κ → γ} (h : xs.map f = ys.map f) (hx : x ∈ xs) :
    ∃ y ∈ ys, f x = f y := by
  obtain ⟨k, hk⟩ := List.getElem?_of_mem hx
  obtain ⟨y, hy, hxy⟩ := getElem?_of_map_eq h hk
  exact ⟨y, List.mem_of_getElem? hy, hxy⟩

/-- An item of a list with another item at one position. -/
theorem getElem?_set_cases (h : (xs.set i y)[k]? = some x) :
    k = i ∧ x = y ∨ k ≠ i ∧ xs[k]? = some x := by
  by_cases hk : i = k
  · subst hk
    rw [List.getElem?_set_self (by simpa using (List.getElem?_eq_some_iff.1 h).1)] at h
    exact .inl ⟨rfl, (Option.some.inj h).symm⟩
  · rw [List.getElem?_set_ne hk] at h
    exact .inr ⟨Ne.symm hk, h⟩

/-- An item of a list with one more item at the end. -/
theorem getElem?_concat_cases (h : (xs ++ [y])[k]? = some x) :
    xs[k]? = some x ∨ k = xs.length ∧ x = y := by
  rcases Nat.lt_or_ge k xs.length with hk | hk
  · exact .inl (by rwa [List.getElem?_append_left hk] at h)
  · rw [List.getElem?_append_right hk, List.getElem?_singleton] at h
    split at h
    · exact .inr ⟨by omega, (Option.some.inj h).symm⟩
    · cases h

/-- What holds at every position holds of every item. -/
theorem forall_getD_iff {P : κ → Prop} : (∀ k < xs.length, P (xs.getD k x)) ↔ ∀ y ∈ xs, P y := by
  rw [List.forall_mem_iff_forall_getElem]
  refine forall_congr' fun k => forall_congr' fun hk => ?_
  rw [List.getD_eq_getElem _ _ hk]

theorem map_set_of_eq {f : κ → γ} (hx : xs[i]? = some x) (h : f y = f x) :
    (xs.set i y).map f = xs.map f := by
  apply List.ext_getElem?
  intro k
  rw [List.getElem?_map, List.getElem?_map]
  by_cases hk : i = k
  · subst hk
    rw [List.getElem?_set_self (List.getElem?_eq_some_iff.1 hx).1, hx, Option.map_some,
      Option.map_some, h]
  · rw [List.getElem?_set_ne hk]

/-- The items from a position on that are picked out by a predicate, as those at given positions. -/
theorem map_some_filter_drop_perm {p : κ → Bool} {base : ℕ} {positions : List ℕ}
    (hnodup : positions.Nodup)
    (h : ∀ i, i ∈ positions ↔ base ≤ i ∧ ∃ x, xs[i]? = some x ∧ p x = true) :
    (((xs.drop base).filter p).map some).Perm (positions.map (xs[·]?)) := by
  have all : (xs.drop base).map some = (List.range' base (xs.length - base)).map (xs[·]?) := by
    refine List.ext_getElem (by simp) fun i hi _ => ?_
    have hlt : base + i < xs.length := by simpa [Nat.lt_sub_iff_add_lt'] using hi
    simp [hlt]
  have picked : ((xs.drop base).filter p).map some =
      ((List.range' base (xs.length - base)).filter (Option.any p ∘ (xs[·]?))).map (xs[·]?) := by
    rw [← List.filter_map, ← all, List.filter_map]
    rfl
  rw [picked]
  refine ((List.perm_ext_iff_of_nodup ((List.nodup_range' 1).filter _) hnodup).2 fun i => ?_).map _
  rw [List.mem_filter, List.mem_range'_1, h, and_assoc]
  refine and_congr_right fun hi => ?_
  rw [Function.comp_apply, Option.any_eq_true]
  refine and_iff_right_of_imp ?_
  rintro ⟨x, hx, -⟩
  have := (List.getElem?_eq_some_iff.1 hx).1
  omega

/-- What a function of items and positions collects, if it collects something at one position
only. -/
theorem flatMap_zipIdx_single {f : κ × ℕ → List γ} {base i : ℕ}
    (h : ∀ x j, base ≤ j → j ≠ base + i → f (x, j) = []) :
    (xs.zipIdx base).flatMap f = (xs[i]?).elim [] fun x => f (x, base + i) := by
  induction xs generalizing base i with
  | nil => rfl
  | cons x rest ih =>
    rw [List.zipIdx_cons, List.flatMap_cons]
    cases i with
    | zero =>
      have none : (rest.zipIdx (base + 1)).flatMap f = [] := by
        refine List.flatMap_eq_nil_iff.2 fun e he => ?_
        have := List.le_snd_of_mem_zipIdx he
        exact h _ _ (by omega) (by omega)
      rw [none, List.append_nil]
      rfl
    | succ i =>
      have first : f (x, base) = [] := h x base (Nat.le_refl _) (by omega)
      have others : (rest.zipIdx (base + 1)).flatMap f = (rest[i]?).elim [] fun x =>
          f (x, base + 1 + i) :=
        ih fun x j hbase hj => h x j (by omega) (by omega)
      rw [first, List.nil_append, others, List.getElem?_cons_succ, Nat.add_assoc, Nat.add_comm 1 i]

theorem flatMap_range_getElem? {f : κ → ℕ → Option γ} :
    ((List.range xs.length).flatMap fun k => (xs[k]?.bind (f · k)).toList) =
      xs.zipIdx.filterMap fun e => f e.1 e.2 := by
  induction xs using List.reverseRecOn with
  | nil => rfl
  | append_singleton rest x ih =>
    rw [List.length_append, List.length_singleton, List.range_succ, List.flatMap_append,
      List.zipIdx_append,
      List.filterMap_append, ← ih]
    congr 1
    · refine List.flatMap_congr fun k hk => ?_
      rw [List.getElem?_append_left (List.mem_range.1 hk)]
    · simp only [List.zipIdx_singleton, List.flatMap_singleton, List.getElem?_concat_length,
        Option.bind_some]
      cases h : f x rest.length <;> simp [h]

theorem forall₂_comp {α β γ : Type} {P : α → β → Prop} {Q : β → γ → Prop} {S : α → γ → Prop}
    {xs : List α} {ys : List β} {zs : List γ} (h : List.Forall₂ P xs ys)
    (h' : List.Forall₂ Q ys zs) (hS : ∀ x y z, P x y → Q y z → S x z) : List.Forall₂ S xs zs := by
  induction h generalizing zs with
  | nil => cases h'; exact .nil
  | cons hxy _ ih =>
    cases h' with
    | cons hyz hrest => exact .cons (hS _ _ _ hxy hyz) (ih hrest)

/-- What holds of the items of a list holds of related items. -/
theorem forall_mem_iff_of_forall₂ {α β : Type} {S : α → β → Prop} {P : α → Prop} {Q : β → Prop}
    {xs : List α} {ys : List β} (h : List.Forall₂ S xs ys) (hPQ : ∀ x y, S x y → (P x ↔ Q y)) :
    (∀ x ∈ xs, P x) ↔ ∀ y ∈ ys, Q y := by
  induction h with
  | nil => simp
  | cons hxy _ ih => rw [List.forall_mem_cons, List.forall_mem_cons, hPQ _ _ hxy, ih]

/-- Related items are still related after related changes at one position. -/
theorem forall₂_modify {α β : Type} {S : α → β → Prop} {f : α → α} {g : β → β} {xs : List α}
    {ys : List β} (h : List.Forall₂ S xs ys) (hfg : ∀ x y, S x y → S (f x) (g y)) (k : ℕ) :
    List.Forall₂ S (xs.modify k f) (ys.modify k g) := by
  induction h generalizing k with
  | nil => simp
  | cons hxy hrest ih =>
    cases k with
    | zero => exact .cons (hfg _ _ hxy) hrest
    | succ k => exact .cons hxy (ih k)

/-- The items of two lists that are related are items of these lists. -/
theorem forall₂_with_mem {α β : Type} {P : α → β → Prop} {xs : List α} {ys : List β}
    (h : List.Forall₂ P xs ys) : List.Forall₂ (fun x y => x ∈ xs ∧ P x y) xs ys :=
  (List.forall₂_and_left xs ys).2 ⟨fun _ => id, h⟩

end Multistage
