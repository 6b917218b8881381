import ComponentView.Session.Reply
import ComponentView.Session.Step

/-! # The state of a session

A session keeps its world, its definitions, and what its names stand for. A step is carried out as a
computation over the session (`Work`); if it meets an obstacle, what has been done so far stays. -/

namespace ComponentView

/-- Why a step has no reply. -/
inductive Obstacle where
  /-- The step failed. -/
  | fault (cause : Fault)
  /-- A way to a node leads nowhere. -/
  | noNode
  /-- Nothing goes by a name. -/
  | unknownName (name : String)
  /-- The run was given up. -/
  | abort (cause : Abort)
  deriving DecidableEq, Repr

/-- A session between two steps. -/
structure Session where
  library : Library
  world : World
  instances : NameTable InstanceId := []
  nodes : NameTable NodeId := []
  trackers : NameTable Tracker := []
  repeaters : NameTable Repeater := []
  observables : NameTable Observable := []
  mounts : NameTable HeldMount := []
  deriving Inhabited

/-- A computation over a session. -/
abbrev Work := EStateM Obstacle Session

namespace Repeater

/-- The instances that a repeater holds. -/
def held : Repeater → List InstanceId
  | sequential r => r.instances
  | keyed r => r.instances.map (·.2)

end Repeater

namespace Session

/-- A session with some definitions before its first step; what was said while they were compiled is
in the journal. -/
def start (library : Traced Library) : Session :=
  { library := library.value
    world := { World.empty library.value.length with journal := library.said } }

/-- The engine of a session. -/
def engine (s : Session) : Engine := .ofLibrary s.library

/-- The instances that the names of a session keep in use. -/
def kept (s : Session) : List InstanceId :=
  s.instances.map (·.2) ++ s.repeaters.flatMap (·.2.held) ++ s.mounts.map (·.2.component)

/-- The same session, in whose world the named instances are in use. -/
def keepNamed (s : Session) : Session := { s with world := { s.world with kept := s.kept } }

end Session

namespace Work

variable {α β : Type}

/-- The obstacle that a stopped run is. -/
def obstacle : Stop → Obstacle
  | .fault cause => .fault cause
  | .abort cause => .abort cause

/-- Runs a computation on the world. -/
def onWorld (x : Run α) : Work α := fun s =>
  match x s.world with
  | .ok a world => .ok a { s with world }
  | .error stop world => .error (obstacle stop) { s with world }

/-- Runs a computation on a value beside the world, and hands back both its result and the value
after it, also if the computation stops. -/
def beside (a : α) (x : Holding α β) (keep : α → Session → Session) : Work β := fun s =>
  match x ⟨a, s.world⟩ with
  | .ok b f => .ok b (keep f.held { s with world := f.world })
  | .error stop f => .error (obstacle stop) (keep f.held { s with world := f.world })

/-- Changes the document. -/
def onDocument (f : Document Listener → Document Listener) : Work Unit :=
  onWorld (Run.onDocument f)

/-- The document. -/
def document : Work (Document Listener) := return (← get).world.document

/-- What a name stands for. -/
def named (table : Session → NameTable α) (name : String) : Work α := do
  match (table (← get)).get? name with
  | some a => return a
  | none => throw (.unknownName name)

/-- A named instance. -/
def instanceOf (name : String) : Work (InstanceId × Instance) := do
  let i ← named Session.instances name
  return (i, ← onWorld (Run.look i))

/-- Holds a named instance during a computation. -/
def holding (name : String) (x : Holding Instance α) : Work α := do
  onWorld (Run.hold (← named Session.instances name) x)

/-- Names an instance, and its root. -/
def nameInstance (name : String) (i : InstanceId) : Work NodeId := do
  let root ← onWorld (Run.rootOf i)
  modify fun s => { s with instances := s.instances.set name i }
  return root

/-- Names a node. -/
def nameNode (name : String) (i : NodeId) : Work Unit :=
  modify fun s => { s with nodes := s.nodes.set name i }

/-- A node that must be there. -/
def found : Option NodeId → Work NodeId
  | some i => return i
  | none => throw .noNode

/-- The node that a reference leads to. -/
def node : NodeRef → Work NodeId
  | .named name => do found ((← get).nodes.get? name)
  | .root owner => do
    match (← get).instances.get? owner with
    | some i => onWorld (Run.rootOf i)
    | none => throw .noNode
  | .reference owner name => do
    match (← get).instances.get? owner with
    | some i =>
      let inst ← onWorld (Run.look i)
      let d ← onWorld ((← get).library.definition inst.definition)
      found ((d.template.ref? name).bind (inst.elements[·]?))
    | none => throw .noNode
  | .slot owner slot => do
    match (← get).instances.get? owner with
    | some i => found (← onWorld (Run.look i)).elements[slot]?
    | none => throw .noNode
  | .descendant top way => do
    let top ← node top
    found ((← document).descend top way)

/-- The node that a reference leads to, if there is a reference. -/
def maybeNode : Option NodeRef → Work (Option NodeId)
  | some r => return some (← node r)
  | none => return none

end Work

end ComponentView
