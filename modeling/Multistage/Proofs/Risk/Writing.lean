import Multistage.Risk.Writing
import Multistage.Proofs.Risk.Coherent

/-!
# What is written into a vector does not depend on it

Whatever a vector held before, and whatever new vectors hold, a measure writes the adjusted
probabilities into it. This does not rest on any law of the scalars, so that also an entry that is
no number leaves no trace.

## Main definitions

- `Memory.Fits`: new vectors have a given number of entries.
- `Measure.Sized`: an answer has as many entries as there are probabilities.

## Main statements

- `Measure.sized_adjust`: there are as many adjusted probabilities as probabilities, unless the
  objectives do not fit these.
- `Measure.write_eq_adjust`: what is written are the adjusted probabilities.
-/

namespace Multistage

variable {α : Type}

/-- All new vectors have a given number of entries. -/
def Memory.Fits (memory : Memory α) (n : ℕ) : Prop := ∀ path, (memory path).length = n

theorem Memory.Fits.fresh {memory : Memory α} {n : ℕ} (h : memory.Fits n) :
    memory.fresh.length = n :=
  h []

theorem Memory.Fits.within {memory : Memory α} {n : ℕ} (h : memory.Fits n) (position : ℕ) :
    (memory.within position).Fits n :=
  fun path => h (position :: path)

namespace Measure

/-- Entries overwrite all of a vector of their length. -/
theorem overwrite_eq {out entries : List α} (h : out.length = entries.length) :
    overwrite out entries = entries := by
  apply List.ext_getElem
  · simp [overwrite, h]
  · simp [overwrite]

/-! ### The number of entries -/

/-- As many entries as there are probabilities, unless the objectives do not fit these. -/
def Sized (p f : List α) (x : Except (Failure α) (List α)) : Prop :=
  (x = .error .indexOutOfRange ∧ f.length ≠ p.length) ∨ ∃ q, x = .ok q ∧ q.length = p.length

variable {p f : List α}

namespace Sized

variable {x : Except (Failure α) (List α)} {next : List α → Except (Failure α) (List α)}
  {q : List α}

theorem ok (h : q.length = p.length) : Sized p f (.ok q) := .inr ⟨q, rfl, h⟩

theorem error (h : f.length ≠ p.length) : Sized p f (.error .indexOutOfRange) := .inl ⟨rfl, h⟩

/-- What follows keeps the length. -/
theorem bind (hx : Sized p f x) (h : ∀ q, q.length = p.length → Sized p f (next q)) :
    Sized p f (x >>= next) := by
  rcases hx with ⟨rfl, hne⟩ | ⟨q, rfl, hq⟩
  · exact error hne
  · exact h q hq

theorem length_eq (hx : Sized p f x) (h : x = .ok q) : q.length = p.length := by
  subst h
  rcases hx with ⟨h, -⟩ | ⟨q', h, hlength⟩
  · cases h
  · cases h
    exact hlength

end Sized

variable [Scalar α] {sense : Sense}

/-- The positions that are collected from are those of objectives. -/
theorem lt_of_mem_worstFirst {i : ℕ} (h : i ∈ worstFirst sense f) : i < f.length := by
  obtain ⟨x, hx, rfl⟩ := List.mem_map.1 h
  exact List.snd_lt_of_mem_zipIdx (List.mem_mergeSort.1 hx)

/-- Collecting keeps the length, or meets a position without a probability. -/
theorem sized_collect {total level : α} {positions : List ℕ} {collected : α} {adjusted : List α}
    (hpositions : ∀ i ∈ positions, i < f.length) (h : adjusted.length = p.length) :
    Sized p f (collect p total level positions collected adjusted) := by
  induction positions generalizing collected adjusted with
  | nil => exact .ok h
  | cons i rest ih =>
    obtain ⟨hi, hrest⟩ := List.forall_mem_cons.1 hpositions
    rw [collect]
    split
    · exact .ok h
    · split
      next none =>
        have := List.getElem?_eq_none_iff.1 none
        exact .error (by omega)
      · apply ih hrest
        rw [List.length_set, h]

/-- The tail answers with as many probabilities as it was given. -/
theorem sized_adjustTail {level : α} : Sized p f (adjustTail level sense p f) := by
  simp only [adjustTail]
  split
  · exact .ok (List.length_map _)
  · exact sized_collect (fun i => lt_of_mem_worstFirst) (List.length_map _)

/-- The worst case answers with as many probabilities as it was given. -/
theorem sized_adjustWorstCase : Sized p f (adjustWorstCase sense p f) := by
  simp only [adjustWorstCase]
  split
  · exact .ok (List.length_map _)
  · split
    next hne => exact .error (bne_iff_ne.1 hne)
    · exact .ok (by rw [List.length_set, List.length_map])

mutual

/-- There are as many adjusted probabilities as probabilities, if there are as many objectives. -/
theorem sized_adjust : ∀ m : Measure α, Sized p f (m.adjust sense p f)
  | expectation => .ok rfl
  | worstCase => sized_adjustWorstCase
  | tail _ => sized_adjustTail
  | mixture terms => sized_adjustTerms terms (List.length_map _)
  | weightedTail _ _ => sized_adjustTail.bind fun _ hq =>
    .ok (length_addScaled (length_addScaled (List.length_map _) rfl) hq)

theorem sized_adjustTerms : ∀ (terms : List (α × Measure α)) {sum : List α}, sum.length = p.length →
    Sized p f (adjustTerms sense p f terms sum)
  | [], _, hsum => .ok hsum
  | (_, m) :: rest, _, hsum => by
    rw [adjustTerms]
    exact (sized_adjust m).bind fun _ hq => sized_adjustTerms rest (length_addScaled hsum hq)

end

/-! ### Writing -/

theorem clear_eq {out : List α} (h : out.length = p.length) : clear out = p.map fun _ => 0 := by
  simp [clear, h]

/-- What the worst case writes does not depend on what was there. -/
theorem writeWorstCase_eq {out : List α} (h : out.length = p.length) :
    writeWorstCase sense p f out = adjustWorstCase sense p f := by
  unfold writeWorstCase
  rw [clear_eq h]
  rfl

/-- What the tail writes does not depend on what was there. -/
theorem writeTail_eq {level : α} {out : List α} (h : out.length = p.length) :
    writeTail level sense p f out = adjustTail level sense p f := by
  simp only [writeTail, adjustTail, clear_eq h]

mutual

/-- Whatever a vector and new vectors hold, the adjusted probabilities are written into it. -/
theorem write_eq_adjust : ∀ (m : Measure α) {memory : Memory α} {out : List α},
    memory.Fits p.length → out.length = p.length → m.write sense p f memory out = m.adjust sense p f
  | expectation, _, _, _, h => congrArg _ (overwrite_eq h)
  | worstCase, _, _, _, h => writeWorstCase_eq h
  | tail _, _, _, _, h => writeTail_eq h
  | mixture terms, memory, out, hmemory, h => by
    rw [write, writeTerms_eq_adjustTerms terms hmemory hmemory.fresh, clear_eq h, adjust]
  | weightedTail weight level, memory, out, hmemory, h => by
    have fresh : overwrite memory.fresh p = p := overwrite_eq hmemory.fresh
    rw [write, adjust]
    simp only [fresh, clear_eq h, writeTail_eq]

/-- What one term has left in the vector of a weighted sum does not matter to the next. -/
theorem writeTerms_eq_adjustTerms :
    ∀ (terms : List (α × Measure α)) {position : ℕ} {memory : Memory α}
    {scratch sum : List α}, memory.Fits p.length → scratch.length = p.length →
      writeTerms sense p f terms position memory scratch sum = adjustTerms sense p f terms sum
  | [], _, _, _, _, _, _ => rfl
  | (weight, m) :: rest, position, memory, scratch, sum, hmemory, h => by
    rw [writeTerms, adjustTerms, write_eq_adjust m (hmemory.within position) h]
    apply Except.bind_congr
    intro q hq
    exact writeTerms_eq_adjustTerms rest hmemory ((sized_adjust m).length_eq hq)

end

end Measure

end Multistage
