import ComponentView.Outline
import Mathlib.Data.List.Basic

/-! # The order of a walk from the root

A walk from the root meets the nodes of a component in the order of their addresses
(`Outline.pairwise_ofRoot`). In this order the nodes below an address follow each other without a
gap (`Address.prefix_of_between`), so that of a list of addresses in this order the part below an
address is a block. -/

namespace ComponentView

namespace Address

/-! ## Comparing two addresses -/

/-- A longer address comes after its beginning. -/
@[simp] theorem order_append_cons (a : Address) (position : Nat) (rest : Address) :
    order a (a ++ position :: rest) = .lt := by
  induction a with
  | nil => rfl
  | cons x a ih => simp [order, ih]

/-- Two addresses with the same beginning compare as what follows it. -/
@[simp] theorem order_append_left (a b c : Address) : order (a ++ b) (a ++ c) = order b c := by
  induction a with
  | nil => rfl
  | cons x a ih => simp [order, ih]

/-- The first position at which two addresses differ decides between them. -/
theorem order_cons_eq_lt_iff {x y : Nat} {a b : Address} :
    order (x :: a) (y :: b) = .lt ↔ x < y ∨ x = y ∧ order a b = .lt := by
  simp [order, Ordering.then_eq_lt, Nat.compare_eq_lt]

/-- A walk from the root meets the nodes in the lexicographic order of their addresses. -/
theorem order_eq_lt_iff {a b : Address} : order a b = .lt ↔ a < b := by
  induction a generalizing b with
  | nil => cases b <;> simp [order]
  | cons x a ih =>
    cases b with
    | nil => simp [order]
    | cons y b => rw [order_cons_eq_lt_iff, ih, List.cons_lt_cons_iff]

/-- An address does not come before itself. -/
theorem order_self_ne_lt (a : Address) : order a a ≠ .lt := by
  induction a with
  | nil => simp [order]
  | cons x a ih => simpa [order] using ih

/-- Between two addresses below a third there are only addresses below it. -/
theorem prefix_of_between {p a b c : Address} (ha : p <+: a) (hc : p <+: c)
    (hab : order a b = .lt) (hbc : order b c = .lt) : p <+: b := by
  induction p generalizing a b c with
  | nil => exact List.nil_prefix
  | cons x p ih =>
    obtain ⟨a, rfl⟩ : ∃ t, a = x :: (p ++ t) := ⟨_, ha.choose_spec.symm⟩
    obtain ⟨c, rfl⟩ : ∃ t, c = x :: (p ++ t) := ⟨_, hc.choose_spec.symm⟩
    cases b with
    | nil => simp [order] at hab
    | cons y b =>
      rw [order_cons_eq_lt_iff] at hab hbc
      obtain rfl : x = y := by omega
      have hab : order (p ++ a) b = .lt := by simpa using hab
      have hbc : order b (p ++ c) = .lt := by simpa using hbc
      rw [List.cons_prefix_cons]
      exact ⟨rfl, ih (List.prefix_append p a) (List.prefix_append p c) hab hbc⟩

/-- An address lies within another that comes before it exactly when it extends it. -/
theorem extends?_iff_within?_of_order {a ancestor : Address} (h : order ancestor a = .lt) :
    a.extends? ancestor = true ↔ a.within? ancestor = true := by
  rw [extends?_iff, within?_iff, and_iff_left_iff_imp]
  rintro - rfl
  exact order_self_ne_lt _ h

/-- What extends an address that extends another extends that one. -/
theorem extends?_trans {a b c : Address} (hab : a.extends? b = true) (hbc : b.extends? c = true) :
    a.extends? c = true := by
  rw [extends?_iff] at hab hbc ⊢
  refine ⟨hbc.1.trans hab.1, fun hca => ?_⟩
  subst hca
  exact hab.2 (List.IsPrefix.eq_of_length hab.1 (Nat.le_antisymm hab.1.length_le hbc.1.length_le))

end Address

/-! ## The outline is in order -/

namespace Outline

mutual
/-- The nodes of a subtree lie within its address. -/
theorem exists_address_of_mem_entries {address : Address} {place : List Nat} {parent : Option Nat}
    {index : Nat} :
    ∀ {n : Node} {e : OutlineEntry}, e ∈ entries address place parent index n →
      ∃ rest, e.address = address ++ rest
  | ⟨head, children⟩, e, h => by
    rw [entries, List.mem_cons] at h
    rcases h with rfl | h
    · exact ⟨[], (List.append_nil address).symm⟩
    · obtain ⟨k, rest, -, he⟩ := exists_address_of_mem_childEntries h
      exact ⟨k :: rest, he⟩

/-- The nodes below a node lie within the addresses of its children from the given position on. -/
theorem exists_address_of_mem_childEntries {address : Address} {place : List Nat}
    {parent position markupPosition next : Nat} :
    ∀ {children : List Node} {e : OutlineEntry},
      e ∈ childEntries address place parent position markupPosition next children →
        ∃ k rest, position ≤ k ∧ e.address = address ++ k :: rest
  | child :: children, e, h => by
    rw [childEntries, List.mem_append] at h
    rcases h with h | h
    · obtain ⟨rest, he⟩ := exists_address_of_mem_entries h
      exact ⟨position, rest, Nat.le_refl _, by simpa using he⟩
    · obtain ⟨k, rest, hk, he⟩ := exists_address_of_mem_childEntries h
      exact ⟨k, rest, by omega, he⟩
end

mutual
/-- The nodes of a subtree are listed in the order of their addresses. -/
theorem pairwise_entries (address : Address) (place : List Nat) (parent : Option Nat)
    (index : Nat) :
    ∀ n : Node, (entries address place parent index n).Pairwise
      fun a b => Address.order a.address b.address = .lt
  | ⟨head, children⟩ => by
    rw [entries, List.pairwise_cons]
    refine ⟨fun e h => ?_, pairwise_childEntries address place index 0 0 (index + 1) children⟩
    obtain ⟨k, rest, -, he⟩ := exists_address_of_mem_childEntries h
    rw [he]
    exact Address.order_append_cons address k rest

/-- The nodes below a node are listed in the order of their addresses. -/
theorem pairwise_childEntries (address : Address) (place : List Nat)
    (parent position markupPosition next : Nat) :
    ∀ children : List Node,
      (childEntries address place parent position markupPosition next children).Pairwise
        fun a b => Address.order a.address b.address = .lt
  | [] => by simp [childEntries]
  | child :: children => by
    rw [childEntries, List.pairwise_append]
    refine ⟨pairwise_entries .., pairwise_childEntries .., fun a ha b hb => ?_⟩
    -- The first child is at `position`, everything after it further on.
    obtain ⟨resta, hea⟩ := exists_address_of_mem_entries ha
    obtain ⟨k, restb, hk, heb⟩ := exists_address_of_mem_childEntries hb
    rw [hea, heb, List.append_assoc, Address.order_append_left, List.singleton_append,
      Address.order_cons_eq_lt_iff]
    exact Or.inl (by omega)
end

/-- The nodes of a component are listed in the order of their addresses. -/
theorem pairwise_ofRoot (root : Node) :
    (ofRoot root).Pairwise fun a b => Address.order a.address b.address = .lt :=
  pairwise_entries [] [] none 0 root

end Outline

end ComponentView
