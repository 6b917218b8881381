import ComponentView.Document.Content
import ComponentView.Instance

/-! # The world

The world is everything a run can change: the document, the instances, the pools of spare instances,
the observables and the mounts that follow them, and the journal. Operations are computations over
the world (`Run`) that may stop; when one stops, what it has done so far stays.

An operation on an instance holds it: while it is held nobody else can hold it, and its new state
comes back into the world when the operation ends (`Run.hold`). Whoever asks for an instance that is
held either goes without it or stops the run.

An instance hears events only while it is in use (`World.inUse`). What a held instance or a repeater
takes up in the middle of an operation is in use at once: newcomers of a repeater are noted in the
world until its patch ends (`Holding.welcoming`), and a stash that has changed is shown to the world
(`Run.showStash`). -/

namespace ComponentView

/-! ## What the world consists of -/

/-- Who hears an event: a probe that only records it, or a handler of an instance. -/
inductive Listener where
  | probe (tag : Value)
  | bound (owner : InstanceId) (handler : Handler)
  deriving Inhabited, Repr

/-- An event on its way to the listeners of a node. -/
structure Event where
  name : String
  target : NodeId
  value : Value
  deriving Inhabited, Repr

/-- A member of an observable: the cell that is observed and a path into its value. -/
structure Observable where
  cell : Nat
  path : Path := []
  deriving DecidableEq, Inhabited, Repr

/-- The number of a mount. -/
abbrev MountId := Nat

/-- An observed value. A tracked cell tells its followers of each change, in the order in which they
last ran. -/
structure Cell where
  value : Value
  changes : Nat := 0
  tracked : Bool
  followers : List MountId := []
  deriving Inhabited, Repr

/-- A standing order to render an instance from an observable. It is due when the observable has
changed since it last ran. -/
structure Mount where
  component : InstanceId
  source : Observable
  due : Bool := false
  deriving Inhabited, Repr

/-- Everything a run can change. -/
structure World where
  document : Document Listener := {}
  instances : Array Instance := #[]
  /-- The spare instances of each definition, the last returned first. -/
  pools : Array (List InstanceId) := #[]
  cells : Array Cell := #[]
  mounts : Array Mount := #[]
  /-- The mounts that are due and will run in the next round. -/
  waiting : List MountId := []
  /-- Whether mounts are being run. -/
  running : Bool := false
  /-- The observables that user code can write by name. -/
  published : NameTable Observable := []
  /-- The instances that are held at the moment. -/
  busy : List InstanceId := []
  /-- The instances that are kept from outside. -/
  kept : List InstanceId := []
  /-- The instances that have joined a repeater whose patch has not ended yet. -/
  newcomers : List InstanceId := []
  journal : List Entry := []
  deriving Inhabited

namespace World

/-- The world before anything happened, for a library of `definitions` definitions. -/
def empty (definitions : Nat) : World := { pools := Array.replicate definitions [] }

/-- The spare instances of a definition, the last returned first. -/
def pool (w : World) (id : DefinitionId) : List InstanceId := w.pools[id]?.getD []

/-- Replaces the spare instances of a definition. -/
def setPool (w : World) (id : DefinitionId) (spare : List InstanceId) : World :=
  { w with pools := w.pools.modify id fun _ => spare }

/-- The instances that are in use by themselves: those that are kept from outside, spare, held, or
newcomers. -/
def inUseDirectly (w : World) : List InstanceId :=
  w.kept ++ w.pools.toList.flatten ++ w.busy ++ w.newcomers

/-- The instances whose stash holds an instance. -/
def holders (w : World) (i : InstanceId) : List InstanceId :=
  (List.range w.instances.size).filter fun j => w.instances[j]?.any (·.held.contains i)

/-- Whether an instance is in use by itself or has holders of holders that lead to one that is, or
lead on for `depth` steps. -/
def inUseWithin (w : World) : (depth : Nat) → InstanceId → Bool
  | 0, _ => true
  | depth + 1, i => w.inUseDirectly.contains i || (w.holders i).any (inUseWithin w depth)

/-- Whether an instance is still in use: it falls out of use when the last one in use lets go of it.
Holders that lead on for more steps than there are instances run in a ring, and instances that hold
each other in a ring never fall out of use. -/
def inUse (w : World) (i : InstanceId) : Bool := w.inUseWithin w.instances.size i

end World

/-! ## Computations -/

/-- Why a run is given up without a result. -/
inductive Abort where
  /-- An instance was asked for while it was held. -/
  | alreadyHeld (i : InstanceId)
  /-- A number names no instance. -/
  | noInstance (i : InstanceId)
  /-- A number names no definition. -/
  | noDefinition (id : DefinitionId)
  /-- A number names no slot. -/
  | noSlot (slot : Nat)
  /-- A key in the order of a repeater has no instance. -/
  | noOccupant (key : ItemKey)
  /-- Operations were nested too deep. -/
  | tooDeep
  /-- Mounts went on making each other due. -/
  | endlessUpdates
  deriving DecidableEq, Repr

/-- Why a computation stops: it failed, or the run was given up. -/
inductive Stop where
  | fault (cause : Fault)
  | abort (cause : Abort)
  deriving DecidableEq, Repr

/-- A computation over the world. -/
abbrev Run := EStateM Stop World

/-- A value that is held, and the rest of the world. -/
structure Focus (α : Type) where
  held : α
  world : World

/-- A computation over a value that is held and the rest of the world. -/
abbrev Holding (α : Type) := EStateM Stop (Focus α)

namespace Run

variable {α β : Type}

/-- Stops with a fault. -/
def fail (cause : Fault) : Run α := throw (.fault cause)

/-- Gives up the run. -/
def giveUp (cause : Abort) : Run α := throw (.abort cause)

/-- Writes into the journal. -/
def say (entries : List Entry) : Run Unit :=
  modify fun w => { w with journal := w.journal ++ entries }

/-- Records a value. -/
def record (value : Value) : Run Unit := say [.call value]

/-- Writes a line into the log. -/
def log (level : Level) (line : String) : Run Unit := say [.log level line]

/-- The result of a computation that speaks. -/
def traced (x : Traced α) : Run α := do
  say x.said
  return x.value

/-- Runs a computation and answers with its fault if it fails. -/
def attempt (x : Run α) : Run (Except Fault α) := fun w =>
  match x w with
  | .ok a w => .ok (.ok a) w
  | .error (.fault cause) w => .ok (.error cause) w
  | .error (.abort cause) w => .error (.abort cause) w

/-- Changes the document. -/
def onDocument (f : Document Listener → Document Listener) : Run Unit :=
  modify fun w => { w with document := f w.document }

/-- Makes new nodes in the document. -/
def newNode (f : Document Listener → Document Listener × NodeId) : Run NodeId :=
  modifyGet fun w =>
    let (document, i) := f w.document
    (i, { w with document })

/-- An instance that is not held. -/
def look (i : InstanceId) : Run Instance := fun w =>
  match w.instances[i]? with
  | none => .error (.abort (.noInstance i)) w
  | some inst => if i ∈ w.busy then .error (.abort (.alreadyHeld i)) w else .ok inst w

/-- The root of an instance that is not held. -/
def rootOf (i : InstanceId) : Run NodeId := return (← look i).root

/-- Holds an instance during a computation; its new state comes back into the world also when the
computation stops. -/
def hold (i : InstanceId) (x : Holding Instance α) : Run α := fun w =>
  match look i w with
  | .error stop w => .error stop w
  | .ok inst w =>
    match x ⟨inst, { w with busy := i :: w.busy }⟩ with
    | .ok a f => .ok a (back w.busy f)
    | .error stop f => .error stop (back w.busy f)
where
  /-- The world with the held instance put back. -/
  back (busy : List InstanceId) (f : Focus Instance) : World :=
    { f.world with busy, instances := f.world.instances.setIfInBounds i f.held }

/-- Shows the world the stash of the instance that was held last. -/
def showStash (stash : List StashItem) : Run Unit := modify fun w =>
  match w.busy with
  | i :: _ => { w with instances := w.instances.modify i fun inst => { inst with stash } }
  | [] => w

/-- Notes an instance that joins a repeater. -/
def welcome (i : InstanceId) : Run Unit :=
  modify fun w => { w with newcomers := i :: w.newcomers }

/-- The spare instances of a definition, the last returned first. -/
def pool (id : DefinitionId) : Run (List InstanceId) := return (← get).pool id

/-- Takes the spare instance that was returned last. -/
def popPool (id : DefinitionId) : Run (Option InstanceId) := modifyGet fun w =>
  match w.pool id with
  | i :: rest => (some i, w.setPool id rest)
  | [] => (none, w)

/-- Returns an instance to the pool of a definition. -/
def pushPool (id : DefinitionId) (i : InstanceId) : Run Unit :=
  modify fun w => w.setPool id (i :: w.pool id)

end Run

namespace Holding

variable {α β γ : Type}

/-- Runs a computation on the rest of the world. -/
def outside (x : Run γ) : Holding α γ := fun f =>
  match x f.world with
  | .ok c w => .ok c { f with world := w }
  | .error stop w => .error stop { f with world := w }

/-- The held value. -/
def held : Holding α α := return (← get).held

/-- Changes the held value. -/
def change (f : α → α) : Holding α Unit := modify fun s => { s with held := f s.held }

/-- Runs a computation on a part of the held value; the changed part comes back also when the
computation stops. -/
def within (part : α → β) (put : β → α → α) (x : Holding β γ) : Holding α γ := fun f =>
  match x ⟨part f.held, f.world⟩ with
  | .ok c g => .ok c ⟨put g.held f.held, g.world⟩
  | .error stop g => .error stop ⟨put g.held f.held, g.world⟩

/-- Runs the patch of a repeater; the instances that join it are newcomers until the patch ends, also
when it stops. -/
def welcoming (x : Holding α β) : Holding α β := fun f =>
  match x f with
  | .ok b g => .ok b ⟨g.held, { g.world with newcomers := f.world.newcomers }⟩
  | .error stop g => .error stop ⟨g.held, { g.world with newcomers := f.world.newcomers }⟩

end Holding

end ComponentView
