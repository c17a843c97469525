import Multistage.Proofs.Session.Lockstep

/-!
# Models with related nodes

Two models that are declared alike are related if their nodes are. What is done alike to the nodes
of an index relates the models afterwards, as soon as the other nodes are still related.

## Main definitions

- `Model.Related`: models whose nodes are related.

## Main statements

- `Model.Related.parallel_onNode`: acting alike on the nodes of an index.
-/

namespace Multistage

open Multistage.Action (Parallel)

namespace Model

variable {α : Type} [Scalar α]

/-- Models that are declared as an earlier one, whose nodes are related. -/
structure Related (m₀ : Model α) (J : Datum α → Node α → Node α → Node α → Prop)
    (m m' : Model α) : Prop where
  left : m.declaration = m₀.declaration
  right : m'.declaration = m₀.declaration
  node : ∀ index start n n', m₀.nodes.get? index = some start → m.nodes.get? index = some n →
    m'.nodes.get? index = some n' → J index start n n'

variable {m₀ m m' : Model α} {J J' E : Datum α → Node α → Node α → Node α → Prop} {index : Datum α}

/-- Other nodes, which may be looked up by equal indices. -/
theorem Related.put (h : m₀.Related J m m') {n n' r r' : Node α} (hn : m.node index = .ok n)
    (hn' : m'.node index = .ok n') (hr : r.declaration = n.declaration)
    (hr' : r'.declaration = n'.declaration)
    (hown : ∀ j start, (index == j) = true → m₀.nodes.get? j = some start → J' j start r r')
    (hothers : ∀ j start k k', (index == j) = false → J j start k k' → J' j start k k') :
    m₀.Related J' { m with nodes := m.nodes.modify index fun _ => r }
      { m' with nodes := m'.nodes.modify index fun _ => r' } := by
  refine ⟨(declaration_put hn hr).trans h.left, (declaration_put hn' hr').trans h.right, ?_⟩
  intro j start k k' hj hk hk'
  rw [Dict.get?_modify] at hk hk'
  split at hk
  next hij =>
    rw [if_pos hij] at hk'
    obtain ⟨_, -, rfl⟩ := Option.map_eq_some_iff.1 hk
    obtain ⟨_, -, rfl⟩ := Option.map_eq_some_iff.1 hk'
    exact hown j start hij hj
  next hij =>
    rw [if_neg hij] at hk'
    exact hothers j start k k' (Bool.eq_false_iff.2 hij) (h.node j start k k' hj hk hk')

/-- Acting alike on the nodes of an index. -/
theorem Related.parallel_onNode {τ : Type} {act : Action α (Node α) τ}
    {F : Failure α → Failure α → Prop} (h : m₀.Related J m m') (hF : ∀ e, F e e)
    (hJE : ∀ j start k k', J j start k k' → E j start k k')
    (hJ' : ∀ j start k k', (index == j) = false → J j start k k' → J' j start k k')
    (hact : ∀ start n n', m₀.nodes.get? index = some start → J index start n n' →
      Parallel (fun a b => a = n ∧ b = n') act act
        (fun b b' r r' => b = b' ∧ r.declaration = n.declaration ∧ r'.declaration = n'.declaration ∧
          ∀ j, (index == j) = true → J' j start r r')
        fun e e' r r' => F e e' ∧ r.declaration = n.declaration ∧ r'.declaration = n'.declaration ∧
          ∀ j, (index == j) = true → E j start r r') :
    Parallel (fun a b => a = m ∧ b = m') (onNode index act) (onNode index act)
      (fun b b' t t' => b = b' ∧ m₀.Related J' t t') fun e e' t t' => F e e' ∧
      m₀.Related E t t' := by
  refine .of_cases ?_
  rintro m m' ⟨rfl, rfl⟩
  have same : m'.declaration = m.declaration := h.right.trans h.left.symm
  cases hn : m.node index with
  | error e =>
    exact .inr ⟨e, e, m, m', onNode_eq_error.2 (.inl ⟨hn, rfl⟩),
      onNode_eq_error.2 (.inl ⟨node_eq_error_of_declaration_eq same hn, rfl⟩), hF e,
      h.left, h.right,
      fun j start k k' hj hk hk' => hJE j start k k' (h.node j start k k' hj hk hk')⟩
  | ok n =>
    obtain ⟨n', hn', -⟩ := node_of_declaration_eq same hn
    obtain ⟨start, hs, -⟩ := get?_of_declaration_eq h.left.symm (node_eq_ok.1 hn).2
    have before := h.node index start n n' hs (node_eq_ok.1 hn).2 (node_eq_ok.1 hn').2
    have only : ∀ j start', (index == j) = true → m₀.nodes.get? j = some start' → start' = start :=
      fun j start' hij hj => Option.some.inj (hj.symm.trans ((Dict.get?_congr hij).symm.trans hs))
    cases hr : act n with
    | ok b r =>
      obtain ⟨_, r', hr', rfl, hdecl, hdecl', after⟩ := (hact start n n' hs before).ok ⟨rfl, rfl⟩ hr
      exact .inl ⟨b, b, _, _, onNode_eq_ok.2 ⟨n, r, hn, hr, rfl⟩,
        onNode_eq_ok.2 ⟨n', r', hn', hr', rfl⟩, rfl,
        h.put hn hn' hdecl hdecl' (fun j start' hij hj => only j start' hij hj ▸ after j hij) hJ'⟩
    | error e r =>
      obtain ⟨e', r', hr', he, hdecl, hdecl', after⟩ :=
        (hact start n n' hs before).error ⟨rfl, rfl⟩ hr
      exact .inr ⟨e, e', _, _, onNode_eq_error.2 (.inr ⟨n, r, hn, hr, rfl⟩),
        onNode_eq_error.2 (.inr ⟨n', r', hn', hr', rfl⟩), he,
        h.put hn hn' hdecl hdecl' (fun j start' hij hj => only j start' hij hj ▸ after j hij)
          fun j start' k k' _ => hJE j start' k k'⟩

end Model

end Multistage
