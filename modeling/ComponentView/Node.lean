import ComponentView.Action
import ComponentView.Markup
import ComponentView.Text.Blank

/-! # Nodes with directives

A component is described by a tree of nodes. Beside its static markup a node carries directives:
what it watches and listens to, when it is visible, which child component stands in its place, what
it binds and toggles, and the names under which it is found. `Node.features` says which directives a
node has, and with them whether an instance has to keep hold of it. -/

namespace ComponentView

/-- The place of a definition in the list of all definitions. -/
abbrev DefinitionId := Nat

/-! ## Directives -/

/-- What a node is in the markup. -/
inductive NodeKind where
  | element (tag : String)
  | text (content : String)
  deriving DecidableEq, Inhabited, Repr

/-- Run `effect` whenever the value of `expr` changes. -/
structure WatchDirective where
  expr : Expr
  effect : Effect
  deriving Inhabited, Repr

/-- Run `handler` whenever the node gets `event`. -/
structure ListenDirective where
  event : String
  handler : Handler
  deriving Inhabited, Repr

/-- How a node is taken out of sight. -/
inductive Concealment where
  /-- It stays where it is and gets the hide attribute. -/
  | hide
  /-- It leaves its parent and comes back to its place. -/
  | detach
  deriving DecidableEq, Inhabited, Repr

/-- The node is visible while `query` counts as true, or, if reversed, while it does not. -/
structure Visibility where
  query : Expr
  reverse : Bool
  mode : Concealment
  deriving Inhabited, Repr

/-- One child per item of a list; with a key the children follow their items. -/
structure RepeatDirective where
  items : Expr
  key : Option Path
  share : Option Bool
  deriving Inhabited, Repr

/-- A child component in place of the node, or one per item if there is a repeat. -/
structure NestedDirective where
  definition : DefinitionId
  props : Expr
  items : Option RepeatDirective
  allowSiblings : Bool
  deriving Inhabited, Repr

/-- A child component that is looked up by name when an instance is built. -/
structure StubDirective where
  name : String
  props : Expr
  deriving Inhabited, Repr

/-- An attribute that shows a member of the state and writes it back on an event. -/
structure BindDirective where
  attributeName : String
  path : Path
  event : String
  deriving Inhabited, Repr

/-- A named condition that switches classes. -/
structure ToggleDirective where
  name : String
  expr : Expr
  deriving Inhabited, Repr

/-- The classes that the condition of the same name switches. -/
structure ToggleClasses where
  name : String
  classes : List String
  deriving Inhabited, Repr

/-- The classes between the blanks of a text, switched by the condition of a name. -/
def ToggleClasses.ofText (name text : String) : ToggleClasses := ⟨name, Text.words text⟩

/-- Everything about a node but its children. -/
structure NodeHead where
  kind : NodeKind
  attributes : Attributes := []
  watches : List WatchDirective := []
  listeners : List ListenDirective := []
  visibility : Option Visibility := none
  reference : Option String := none
  nested : Option NestedDirective := none
  stub : Option StubDirective := none
  binds : List BindDirective := []
  toggles : List ToggleDirective := []
  targets : List ToggleClasses := []
  part : Option String := none
  deriving Inhabited, Repr

/-- A node and the nodes below it. -/
structure Node where
  head : NodeHead
  children : List Node := []
  deriving Inhabited, Repr

/-! ## Features -/

/-- What a node can carry, as far as compilation is concerned. -/
inductive Feature where
  | watch
  | listener
  | reference
  | nested
  | repeated
  | stub
  | bind
  | toggle
  | shield
  | detachableChildren
  | part
  deriving DecidableEq, Repr

/-- All features, in the order of their bits. -/
def Feature.all : List Feature :=
  [watch, listener, reference, nested, repeated, stub, bind, toggle, shield, detachableChildren,
    part]

/-- The number that stands for a feature in a sum of features. -/
def Feature.bit : Feature → Nat
  | watch => 1
  | listener => 2
  | reference => 4
  | nested => 8
  | repeated => 16
  | stub => 32
  | bind => 64
  | toggle => 128
  | shield => 256
  | detachableChildren => 512
  | part => 1024

namespace NodeHead

/-- Whether the node stands for one child per item of a list. -/
def isRepeated (h : NodeHead) : Bool := (h.nested.bind (·.items)).isSome

/-- Whether a child component stands in place of the node. -/
def isComponent (h : NodeHead) : Bool := h.nested.isSome || h.stub.isSome

/-- Whether the node leaves its parent when it is not visible. -/
def canDetach (h : NodeHead) : Bool := h.visibility.any (·.mode = .detach)

/-- Whether the node is an element. -/
def isElement (h : NodeHead) : Bool :=
  match h.kind with
  | .element _ => true
  | .text _ => false

/-- The tag of an element. -/
def tag? (h : NodeHead) : Option String :=
  match h.kind with
  | .element tag => some tag
  | .text _ => none

end NodeHead

namespace Node

/-- Whether a node has a feature. -/
def has (n : Node) : Feature → Bool
  | .watch => !n.head.watches.isEmpty
  | .listener => !n.head.listeners.isEmpty
  | .reference => n.head.reference.isSome
  | .nested => n.head.nested.isSome && !n.head.isRepeated
  | .repeated => n.head.isRepeated
  | .stub => n.head.stub.isSome
  | .bind => !n.head.binds.isEmpty
  | .toggle => !n.head.toggles.isEmpty || !n.head.targets.isEmpty
  | .shield => n.head.visibility.isSome
  | .detachableChildren => n.children.any (·.head.canDetach)
  | .part => n.head.part.isSome

/-- The features of a node. -/
def features (n : Node) : List Feature := Feature.all.filter n.has

/-- The features of a node as a sum of bits. -/
def flags (n : Node) : Nat := n.features.foldl (fun sum f => sum + f.bit) 0

/-- Whether an instance keeps hold of the node; a part name alone does not need that. -/
def takesSlot (n : Node) : Bool := n.features.any (· ≠ .part)

mutual
/-- The markup of a node. Repeated nodes are left out, and the other child components leave a bare
element that holds their place. -/
def markup : Node → Markup
  | ⟨head, children⟩ =>
    match head.kind with
    | .text content => .text content
    | .element tag =>
      if head.isComponent then .element tag [] []
      else .element tag head.attributes (markupAll children)

/-- The markup of the nodes that are not repeated. -/
def markupAll : List Node → List Markup
  | [] => []
  | child :: rest =>
    if child.head.isRepeated then markupAll rest else markup child :: markupAll rest
end

end Node

end ComponentView
