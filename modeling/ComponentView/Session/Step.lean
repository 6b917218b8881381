import ComponentView.Engine.Nested

/-! # Steps of a session

A session works on a document step by step. What a step makes gets a name, under which later steps
refer to it; every sort of thing has its own names. -/

namespace ComponentView

/-- A way to a node. -/
inductive NodeRef where
  | named (name : String)
  /-- The root of a named instance. -/
  | root (owner : String)
  /-- The node that a named instance knows by a name. -/
  | reference (owner name : String)
  /-- The node in a slot of a named instance. -/
  | slot (owner : String) (slot : Nat)
  /-- The node below another at the end of a path of child positions. -/
  | descendant (top : NodeRef) (way : List Nat)
  deriving Inhabited, Repr

/-- A repeater that stands on its own. -/
inductive Repeater where
  | sequential (r : Sequential)
  | keyed (r : Keyed)
  deriving Inhabited, Repr

/-- A mount as its owner holds it: the instance, and the mount that renders it if there is one. -/
structure HeldMount where
  component : InstanceId
  mount : Option MountId
  deriving Inhabited, Repr

/-! ## The steps -/

/-- Steps that work on instances. -/
inductive InstanceStep where
  | construct (name : String) (definition : DefinitionId) (props : Value) (controller : Controller)
  | acquire (name : String) (definition : DefinitionId) (share : Bool) (props : Value)
    (controller : Controller)
  | render (target : String) (props : Value) (controller : Controller)
  | update (target : String)
  | updateWindow (target : String) (start stop : Nat)
  | updatePart (target part : String)
  | dismount (target : String)
  | destroy (target : String)
  | forget (target : String)
  | setState (target : String) (value : Value)
  | writeState (target : String) (path : Path) (value : Value)
  | describe (target : String)
  /-- Names a nested child. -/
  | child (target : String) (position : Nat) (name : String)
  | element (target : String) (slot : Nat)
  | reference (target name : String)
  deriving Inhabited, Repr

/-- Steps that work on the pools. -/
inductive PoolStep where
  | size (definition : DefinitionId)
  | release (definition : DefinitionId) (target : String)
  | clear (definition : DefinitionId)
  deriving Inhabited, Repr

/-- Steps that work on nodes. -/
inductive NodeStep where
  | createElement (name tag : String)
  | createText (name content : String)
  | instantiate (name : String) (markup : Markup)
  | html (markup : Markup)
  | label (name : String) (node : NodeRef)
  | release (node : NodeRef)
  | detach (node : NodeRef)
  | describe (node : NodeRef)
  | childAt (node : NodeRef) (position : Nat)
  | getAttribute (node : NodeRef) (name : String)
  | insertBefore (parent node : NodeRef) (reference : Option NodeRef)
  | append (parent node : NodeRef)
  | remove (parent node : NodeRef)
  | replace (old node : NodeRef)
  | setAttribute (node : NodeRef) (name : String) (value : Option String)
  | setStyle (node : NodeRef) (property : String) (value : Option String)
  | setText (node : NodeRef) (content : String)
  | setClass (node : NodeRef) (name : String) (on : Bool)
  | listen (node : NodeRef) (event : String) (tag : Value)
  | dispatch (node : NodeRef) (event : String) (value : Value)
  deriving Inhabited, Repr

/-- Steps that work on the document as a whole. -/
inductive DocumentStep where
  | structural
  | resetTally
  /-- Starts an empty document and forgets every name. -/
  | reset
  deriving Inhabited, Repr

/-- Steps that work on trackers. -/
inductive TrackerStep where
  | create (name : String) (detached : List Nat)
  | offset (target : String) (position : Nat)
  | apply (target : String) (position : Nat) (parent node : NodeRef) (visible : Bool)
  deriving Inhabited, Repr

/-- Steps that work on repeaters. -/
inductive RepeaterStep where
  | create (name : String) (repeater : Repeater)
  | patch (target : String) (container : NodeRef) (items : List Value) (anchor : Option NodeRef)
    (controller : Controller)
  | describe (target : String)
  /-- Names an instance, by its position or by its key. -/
  | take (target : String) (position : Nat) (key : Value) (name : String)
  deriving Inhabited, Repr

/-- Steps that work on observables. -/
inductive ObservableStep where
  | create (name : String) (value : Value) (tracked : Bool)
  | member (name source : String) (steps : Path)
  | read (source : String)
  | write (source : String) (value : Value)
  | push (source : String) (item : Value)
  | remove (source : String) (position : Nat)
  /-- Changes the observed member in place by writing at a path below it. -/
  | update (source : String) (path : Path) (value : Value)
  deriving Inhabited, Repr

/-- Steps that work on mounts. -/
inductive MountStep where
  | mount (name target source : String)
  | unmount (handle : String)
  | drop (handle : String)
  deriving Inhabited, Repr

/-- One step of a session. -/
inductive Step where
  | onInstance (step : InstanceStep)
  | onPool (step : PoolStep)
  | onNode (step : NodeStep)
  | onDocument (step : DocumentStep)
  | onTracker (step : TrackerStep)
  | onRepeater (step : RepeaterStep)
  | onObservable (step : ObservableStep)
  | onMount (step : MountStep)
  deriving Inhabited, Repr

end ComponentView
