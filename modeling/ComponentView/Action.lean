import ComponentView.Lookup

/-! # Actions

What a component does is written down, not coded: an effect says what happens to a node when a
watched value changes, a handler what happens to an instance when an event arrives. The first
effects write to the node; the `render` effects drive child components; the rest stand for user
code, which may record what it sees, fail, raise events and publish values. -/

namespace ComponentView

/-- The place of an entry in the stash of an instance. -/
abbrev StashIndex := Nat

/-- What a watch does to its node. -/
inductive Effect where
  /-- Writes the value as the text of the node. -/
  | setText
  /-- Writes the value into an attribute; null and false remove it, true leaves it empty. -/
  | setAttribute (name : String)
  /-- Switches a class on if the value counts as true, off otherwise. -/
  | switchClass (name : String)
  /-- Switches several classes together. -/
  | switchClasses (names : List String)
  /-- Writes the value into a style property; null clears it. -/
  | setStyle (property : String)
  /-- Renders the nested child kept in the stash with the value of a lookup. -/
  | renderChild (stash : StashIndex) (props : LookupKey)
  /-- Renders one child for each item of a lookup, by position. -/
  | renderSequence (stash : StashIndex) (items : LookupKey)
  /-- Renders one child for each item of a lookup, by key. -/
  | renderKeyed (stash : StashIndex) (items : LookupKey)
  /-- Records a tag, the value, the node and the controller. -/
  | record (tag : Value)
  /-- Fails with a message if the value counts as true. -/
  | failWhen (message : String)
  /-- Records the value of a lookup. -/
  | recordLookup (key : LookupKey)
  /-- Records the props and the state. -/
  | recordScope
  /-- Raises an event with the value on the node and records how many listeners ran. -/
  | dispatch (event : String)
  /-- Writes the value into a published observable and records whether it was written. -/
  | publish (name : String)
  deriving Inhabited, Repr

/-- What an instance does when one of its nodes gets an event. -/
inductive Handler where
  /-- Records a tag, the event, its node and its value. -/
  | record (tag : Value)
  /-- Fails with a message. -/
  | fail (message : String)
  /-- Writes the value into the state at a path and records whether it was written. -/
  | write (path : Path)
  /-- Adds one to the integer at a path of the state, then updates. -/
  | increment (path : Path)
  /-- Replaces the state by the value. -/
  | setState
  /-- Runs a full update. -/
  | update
  /-- Renders the instance with the value as props. -/
  | render (controller : Controller)
  /-- Updates one part. -/
  | updatePart (name : String)
  /-- Raises another event with the same value on the same node and records how many listeners
  ran. -/
  | dispatch (event : String)
  /-- Writes a value into a published observable and records whether it was written. -/
  | publish (name : String) (value : Value)
  /-- Dismounts the instance. -/
  | dismount
  /-- Writes the value into the state at a path, then updates: the second half of a binding. -/
  | bind (path : Path)
  deriving Inhabited, Repr

end ComponentView
