import ComponentView.Definition
import ComponentView.Fault
import ComponentView.Tracker
import ComponentView.Value.Key

/-! # Instances

An instance is a live copy of a component: its own nodes, its props and state, the values its
watches have last seen, and a stash with the trackers, nested children and repeaters that its
template plans. Instances refer to each other by number, so that repeaters, pools and listeners can
share them. -/

namespace ComponentView

/-- The number of an instance. -/
abbrev InstanceId := Nat

/-! ## Repeaters -/

/-- A repeater by position: item `i` is shown by instance `i`. The first `attached` instances are in
the container; the others are spare. -/
structure Sequential where
  definition : DefinitionId
  share : Bool
  anchors : List Anchor := []
  instances : List InstanceId := []
  attached : Nat := 0
  deriving Inhabited, Repr

/-- A repeater by key: every key has one instance, and `order` gives the keys in the order in which
their instances stand in the container. -/
structure Keyed where
  definition : DefinitionId
  key : Path
  share : Bool
  anchors : List Anchor := []
  instances : List (ItemKey × InstanceId) := []
  order : List ItemKey := []
  deriving Inhabited, Repr

namespace Sequential

/-- The instance that stands first in the container. -/
def head? (r : Sequential) : Option InstanceId :=
  if r.attached = 0 then none else r.instances.head?

end Sequential

namespace Keyed

/-- The instance of a key. -/
def instance? (r : Keyed) (key : ItemKey) : Option InstanceId := r.instances.lookup key

/-- The instance that stands first in the container. -/
def head? (r : Keyed) : Option InstanceId := r.order.head?.bind r.instance?

/-- The instances in the order in which they stand in the container. -/
def inOrder (r : Keyed) : List InstanceId := r.order.filterMap r.instance?

end Keyed

/-! ## The stash -/

/-- One entry of a stash. -/
inductive StashItem where
  | tracker (t : Tracker)
  | child (i : InstanceId)
  | sequential (r : Sequential)
  | keyed (r : Keyed)
  deriving Inhabited, Repr

namespace StashItem

/-- What the entry holds. -/
def kind : StashItem → StashKind
  | tracker _ => .tracker
  | child _ => .child
  | sequential _ => .sequential
  | keyed _ => .keyed

/-- The instances that the entry holds. -/
def held : StashItem → List InstanceId
  | tracker _ => []
  | child i => [i]
  | sequential r => r.instances
  | keyed r => r.instances.map (·.2)

/-- The tracker of an entry. -/
def tracker? : StashItem → Option Tracker
  | tracker t => some t
  | _ => none

/-- The nested child of an entry. -/
def child? : StashItem → Option InstanceId
  | child i => some i
  | _ => none

/-- The repeater by position of an entry. -/
def sequential? : StashItem → Option Sequential
  | sequential r => some r
  | _ => none

/-- The repeater by key of an entry. -/
def keyed? : StashItem → Option Keyed
  | keyed r => some r
  | _ => none

/-- The instance that stands first in the container of a repeater. -/
def head? : StashItem → Option InstanceId
  | sequential r => r.head?
  | keyed r => r.head?
  | _ => none

end StashItem

/-! ## The cache -/

/-- For every callback of every watch, the value with which its effects last ran. -/
abbrev Cache := List (List (Option Value))

namespace Cache

/-- The cache of a new instance: no callback has run. -/
def empty (watches : List Watch) : Cache :=
  watches.map fun w => List.replicate w.callbacks.length none

/-- The value with which a callback last ran. -/
def get? (cache : Cache) (watch callback : Nat) : Option Value :=
  (cache[watch]?.bind (·[callback]?)).join

/-- Remembers the value with which a callback ran. -/
def set (cache : Cache) (watch callback : Nat) (value : Value) : Cache :=
  cache.modify watch fun row => row.set callback (some value)

end Cache

/-! ## Instances -/

/-- A live copy of a component. -/
structure Instance where
  definition : DefinitionId
  root : NodeId
  props : Value
  state : Value
  controller : Controller
  /-- The node of every slot. -/
  elements : List NodeId
  cache : Cache
  stash : List StashItem
  mounted : Bool
  deriving Inhabited

namespace Instance

/-- The nested children, in the order of the stash. -/
def children (i : Instance) : List InstanceId := i.stash.filterMap StashItem.child?

/-- All instances that the stash holds. -/
def held (i : Instance) : List InstanceId := i.stash.flatMap StashItem.held

/-- Writes one member of the state, and whether it could be reached. -/
def withStateAt (i : Instance) (path : Path) (value : Value) : Instance × Bool :=
  let (state, written) := i.state.set path value
  ({ i with state }, written)

end Instance

end ComponentView
