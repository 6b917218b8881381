import ComponentView.Outline

/-! # Compiled templates

A template is what compilation makes of a component: its static markup, the list of watches in the
order of their addresses, the lookups they depend on, the places that an instance keeps hold of
(slots), what its stash holds, its listeners, and the names of its refs and parts. All instances of
a component share one template, and nothing in it ever changes. -/

namespace ComponentView

/-! ## Watches -/

/-- When the effects of a callback run: on every visit, or when a lookup has a new value. -/
inductive Trigger where
  | always
  | lookup (key : LookupKey)
  deriving DecidableEq, Inhabited, Repr

/-- All effects of a watch that run on one trigger. -/
structure Callback where
  trigger : Trigger
  effects : List Effect
  deriving Inhabited, Repr

/-- How a node leaves and enters its parent: its position among the markup children, the tracker of
that parent in the stash, and the slot of the parent. -/
structure DetachPlan where
  position : Nat
  tracker : StashIndex
  parent : Nat
  deriving DecidableEq, Inhabited, Repr

/-- The condition on which a node is visible. The `skip` watches after it belong to the nodes below
it and are passed over while it is not. -/
structure Shield where
  query : LookupKey
  reverse : Bool
  skip : Nat
  detach : Option DetachPlan
  deriving Inhabited, Repr

/-- Everything that an update does at one node. -/
structure Watch where
  slot : Nat
  address : Address
  callbacks : List Callback
  shield : Option Shield
  deriving Inhabited, Repr

namespace Watch

/-- Adds an effect that runs on a trigger. -/
def add (trigger : Trigger) (effect : Effect) (w : Watch) : Watch :=
  { w with callbacks := insert w.callbacks }
where
  /-- The callbacks with the effect added to the one of its trigger, or to a new one at the end. -/
  insert : List Callback → List Callback
    | [] => [⟨trigger, [effect]⟩]
    | c :: rest =>
      if c.trigger = trigger then { c with effects := c.effects ++ [effect] } :: rest
      else c :: insert rest

end Watch

/-! ## Plans for instances -/

/-- A node that the items of a repeat are inserted before: a later sibling, or the first item of a
later repeat of the same container. -/
inductive Anchor where
  | slot (slot : Nat)
  | repeater (stash : StashIndex)
  deriving DecidableEq, Inhabited, Repr

/-- Which definition a nested child is built from. -/
inductive ChildSource where
  | definition (id : DefinitionId)
  | stub (name : String)
  deriving DecidableEq, Inhabited, Repr

/-- What one entry of the stash starts as. -/
inductive StashPlan where
  /-- The tracker of a parent, with the positions that start detached. -/
  | tracker (detached : List Nat)
  /-- A nested child, whose root takes the place of the node in `slot`. -/
  | child (slot : Nat) (source : ChildSource) (startsDetached : Bool)
  /-- A repeater by position. -/
  | sequential (definition : DefinitionId) (share : Bool) (anchors : List Anchor)
  /-- A repeater by key. -/
  | keyed (definition : DefinitionId) (key : Path) (share : Bool) (anchors : List Anchor)
  deriving Inhabited, Repr

namespace StashPlan

/-- The plan of a repeater with its anchors. -/
def anchored (anchors : List Anchor) : StashPlan → StashPlan
  | sequential definition share _ => sequential definition share anchors
  | keyed definition key share _ => keyed definition key share anchors
  | plan => plan

/-- The plan of a tracker with one more position that starts detached. -/
def startDetached (position : Nat) : StashPlan → StashPlan
  | tracker detached => tracker (detached ++ [position])
  | plan => plan

end StashPlan

/-- A handler for an event at a slot. -/
structure ListenerPlan where
  slot : Nat
  event : String
  handler : Handler
  deriving Inhabited, Repr

/-! ## Templates -/

/-- The compiled form of a component. -/
structure Template where
  markup : Markup
  watches : List Watch
  lookups : LookupTable
  /-- For every slot, the way to its node through the markup. -/
  slots : List (List Nat)
  stash : List StashPlan
  listeners : List ListenerPlan
  /-- The slots that have a name. -/
  refs : List (String × Nat)
  /-- The watches of every named part, from the first position up to the second. -/
  parts : List (String × Nat × Nat)
  hideAttribute : String
  deriving Inhabited

namespace Template

/-- The written form of the static markup. -/
def html (t : Template) : String := t.markup.html

/-- The slot of a name. -/
def ref? (t : Template) (name : String) : Option Nat := t.refs.lookup name

/-- The watches of a part. -/
def part? (t : Template) (name : String) : Option (Nat × Nat) := t.parts.lookup name

end Template

end ComponentView
