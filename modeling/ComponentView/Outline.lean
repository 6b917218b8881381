import ComponentView.Address
import ComponentView.Node

/-! # The outline of a component

The outline lists every node of a component in the order of a walk from the root, each with its
address, its place in the static markup and the entry of its parent. Addresses count every child.
Places in the markup leave out repeated nodes, which have no markup of their own; their place is
that of the container around them. -/

namespace ComponentView

/-- One node of an outline. -/
structure OutlineEntry where
  address : Address
  /-- The child positions in the static markup. -/
  place : List Nat
  node : Node
  /-- The position of the parent in the outline. -/
  parent : Option Nat
  deriving Inhabited, Repr

/-- Every node of a component, parents before their children and children in order. -/
abbrev Outline := List OutlineEntry

namespace Outline

mutual
/-- The entries of a node and all below it, where `index` is the position of the first. -/
def entries (address : Address) (place : List Nat) (parent : Option Nat) (index : Nat) :
    Node → List OutlineEntry
  | ⟨head, children⟩ =>
    ⟨address, place, ⟨head, children⟩, parent⟩ ::
      childEntries address place index 0 0 (index + 1) children

/-- The entries of the children of a node, where `position` and `markupPosition` count the children
passed so far and `next` is the position of the next entry. -/
def childEntries (address : Address) (place : List Nat)
    (parent position markupPosition next : Nat) : List Node → List OutlineEntry
  | [] => []
  | child :: rest =>
    let childPlace := if child.head.isRepeated then place else place ++ [markupPosition]
    let markupPosition := if child.head.isRepeated then markupPosition else markupPosition + 1
    let own := entries (address ++ [position]) childPlace (some parent) next child
    own ++ childEntries address place parent (position + 1) markupPosition (next + own.length) rest
end

/-- The outline of a component. -/
def ofRoot (root : Node) : Outline := entries [] [] none 0 root

/-- The number of elements among the children of an entry's parent; the root stands alone. -/
def elementSiblings (o : Outline) (entry : OutlineEntry) : Nat :=
  match entry.parent.bind (o[·]?) with
  | some parent => (parent.node.children.filter (·.head.isElement)).length
  | none => 1

/-- The positions of the children of an entry, in order. -/
def childrenOf (o : Outline) (parent : Nat) : List Nat :=
  (List.range o.length).filter fun i => (o[i]?.bind (·.parent)) = some parent

end Outline

namespace OutlineEntry

/-- The position among the markup children of the parent; for a repeated node, that of its
container. -/
def siblingPlace (e : OutlineEntry) : Option Nat := e.place.getLast?

end OutlineEntry

end ComponentView
