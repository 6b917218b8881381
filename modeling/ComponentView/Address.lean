import ComponentView.Decimal.Shortest

/-! # Addresses

The address of a node is the list of child positions on the way from the root of its component. One
address extends another when it lies strictly below it. Addresses are compared position by position,
an address before everything that extends it, which is the order in which a walk from the root meets
the nodes. -/

namespace ComponentView

/-- The child positions on the way from the root to a node. -/
abbrev Address := List Nat

namespace Address

/-- Whether an address lies strictly below another. -/
def extends? (a ancestor : Address) : Bool :=
  ancestor.length < a.length && ancestor.isPrefixOf a

/-- Whether an address is another or lies below it. -/
def within? (a other : Address) : Bool := other.isPrefixOf a

/-- The order in which a walk from the root meets two addresses. -/
def order : Address → Address → Ordering
  | [], [] => .eq
  | [], _ :: _ => .lt
  | _ :: _, [] => .gt
  | a :: as, b :: bs => (compare a b).then (order as bs)

/-- The number of steps from the root. -/
def depth (a : Address) : Nat := a.length

/-- The written form of an address. -/
def text (a : Address) : String :=
  "[" ++ ", ".intercalate (a.map Decimal.natText) ++ "]"

/-- An address lies within another exactly when the other is an initial part of it. -/
theorem within?_iff {a other : Address} : a.within? other = true ↔ other <+: a := by
  simp [within?]

/-- An address extends another exactly when the other is a proper initial part of it. -/
theorem extends?_iff {a ancestor : Address} :
    a.extends? ancestor = true ↔ ancestor <+: a ∧ ancestor ≠ a := by
  simp only [extends?, Bool.and_eq_true, decide_eq_true_eq, List.isPrefixOf_iff_prefix]
  constructor
  · rintro ⟨hl, hp⟩
    exact ⟨hp, fun h => by subst h; exact Nat.lt_irrefl _ hl⟩
  · rintro ⟨hp, hne⟩
    refine ⟨?_, hp⟩
    rcases Nat.lt_or_ge ancestor.length a.length with h | h
    · exact h
    · exact absurd (hp.eq_of_length_le h) hne

end Address

end ComponentView
