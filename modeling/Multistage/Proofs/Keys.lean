import Mathlib.Data.List.Basic
import Multistage.Datum.Arithmetic

/-!
# Data that can be keys

Whether a datum can be a key is decided by what it stands for, and so is whether a list holds it.

## Main statements

- `Datum.isKey_congr`: of equal data either both can be keys or none can.
- `Datum.contains_eq_of_identities`: lists whose items stand for the same hold the same data.
-/

namespace Multistage

namespace Datum

/-- What stands for a datum that can be a key. -/
def Identity.isKey : Identity → Bool
  | .null => true
  | .number _ => true
  | .text _ => true
  | .nil => true
  | .cons head tail => head.isKey && tail.isKey
  | .sequence isMutable items => !isMutable && items.isKey
  | .record _ => false

variable {α : Type} [Scalar α]

mutual

/-- What a datum is identified by can be a key iff the datum can. -/
theorem isKey_identity : ∀ d : Datum α, d.identity.isKey = d.isKey
  | .null => rfl
  | .bool _ => rfl
  | .int _ => rfl
  | .real _ => rfl
  | .text _ => rfl
  | .tuple items => areKeys_identities items
  | .list _ => rfl
  | .record _ => rfl

theorem areKeys_identities : ∀ items : List (Datum α), (identities items).isKey = areKeys items
  | [] => rfl
  | d :: rest => congrArg₂ (· && ·) (isKey_identity d) (areKeys_identities rest)

end

omit [Scalar α] in
/-- The check for keys passes iff the datum can be a key. -/
theorem requireKey_eq_ok {d : Datum α} : d.requireKey = .ok () ↔ d.isKey = true := by
  unfold requireKey
  split <;> simp_all

/-- Of equal data either both can be keys or none can. -/
theorem isKey_congr {a b : Datum α} (h : (a == b) = true) : a.isKey = b.isKey := by
  rw [← isKey_identity, ← isKey_identity, beq_iff_identity_eq.1 h]

omit [Scalar α] in
theorem areKeys_iff {items : List (Datum α)} : areKeys items = true ↔
    ∀ d ∈ items, d.isKey = true := by
  induction items with
  | nil => simp [areKeys]
  | cons d rest ih => rw [areKeys, Bool.and_eq_true, ih, List.forall_mem_cons]

omit [Scalar α] in
theorem requireKey_of_isKey {d : Datum α} (h : d.isKey = true) : d.requireKey = .ok () := if_pos h

omit [Scalar α] in
theorem requireKey_of_not_isKey {d : Datum α} (h : d.isKey = false) :
    d.requireKey = .error .wrongKind := if_neg (Bool.eq_false_iff.1 h)

/-- Lists with the same identities contain the same data. -/
theorem contains_eq_of_identities {xs ys : List (Datum α)} (h : xs.map identity = ys.map identity)
    (c : Datum α) : xs.contains c = ys.contains c := by
  have identities :
      ∀ zs : List (Datum α), zs.contains c = (zs.map identity).contains c.identity := by
    intro zs
    rw [Bool.eq_iff_iff, List.contains_iff_exists_mem_beq, List.contains_iff_mem, List.mem_map]
    exact exists_congr fun d => and_congr_right fun _ => beq_iff_identity_eq.trans eq_comm
  rw [identities, identities, h]

end Datum

end Multistage
