import ComponentView.Engine

/-! # Replies of a session

Every step that succeeds has a reply: a plain answer, or a view of the thing that the step is
about. -/

namespace ComponentView

/-- What can be seen of an instance. -/
structure InstanceView where
  definition : String
  props : Value
  state : Value
  mounted : Bool
  root : NodeId
  controller : Controller
  /-- The name of the definition, the root and whether it is mounted, for every nested child. -/
  children : List (String × NodeId × Bool)
  deriving Inhabited

/-- What can be seen of a node. -/
structure NodeView where
  kind : Option DocKind
  tag : Option String
  parent : Option NodeId
  children : List NodeId
  text : String
  listeners : Nat
  deriving Inhabited

/-- What can be seen of a repeater. -/
structure RepeaterView where
  length : Nat
  head : Option NodeId
  /-- The roots of the instances, in order. -/
  roots : List NodeId
  /-- The keys in order, if the repeater has keys. -/
  keys : Option (List ItemKey)
  deriving Inhabited

/-- What can be seen of an observable. -/
structure ObservableView where
  path : Path
  value : Value
  changes : Nat
  deriving Inhabited

/-- The result of a step. -/
inductive Reply where
  | done
  | flag (answer : Bool)
  | count (n : Nat)
  /-- The number of spare instances in a pool. -/
  | pool (size : Nat)
  | text (s : String)
  | node (i : NodeId)
  | maybeNode (i : Option NodeId)
  | stats (s : PassStats)
  | instance (view : InstanceView)
  | describedNode (view : NodeView)
  | attribute (value : Option String)
  | offset (own : Int) (attached : Bool) (before : Int)
  | repeater (view : RepeaterView)
  | observable (view : ObservableView)
  /-- Whether an observable was written, and what it shows now. -/
  | written (answer : Bool) (view : ObservableView)
  /-- What was taken out of an observable, and what it shows now. -/
  | removed (item : Option Value) (view : ObservableView)
  /-- Whether the observed member could be reached and written in place, and what it shows now. -/
  | updated (reached written : Bool) (view : ObservableView)
  | mounted (active : Bool) (root : NodeId)
  deriving Inhabited

end ComponentView
