import ComponentView.Update.Walk

/-! # New instances

An instance is built from its definition: a copy of the markup, the node of every slot, and what the
stash is planned to hold, nested children included. Building goes down from a definition to earlier
ones only. An instance that cannot be finished leaves nothing behind. -/

namespace ComponentView

namespace Build

/-- The nodes of slots from a number on, found from the root of a fresh copy; or else the number of
the first slot that leads nowhere. -/
def bindFrom (d : Document Listener) (root : NodeId) :
    (slot : Nat) → List (List Nat) → Except Nat (List NodeId)
  | _, [] => .ok []
  | slot, way :: rest =>
    match d.descend root way with
    | none => .error slot
    | some i => (bindFrom d root (slot + 1) rest).map (i :: ·)

/-- The definition of a nested child. -/
def sourceOf (d : Definition) : ChildSource → Run DefinitionId
  | .definition id => return id
  | .stub name =>
    match d.stubs.get? name with
    | some id => return id
    | none => Run.fail (.unknownStub d.name name)

/-- Puts the root of a nested child in place of the node that stands for it. A child that starts
detached only replaces that node among the slots. -/
def takePlace (slot : Nat) (startsDetached : Bool) (child : InstanceId) (elements : List NodeId) :
    Run (List NodeId) := do
  let root ← Run.rootOf child
  match elements[slot]? with
  | none => Run.giveUp (.noSlot slot)
  | some placeholder =>
    unless startsDetached do
      Run.onDocument (·.replace placeholder root)
    Run.onDocument (·.release placeholder)
    return elements.set slot root

/-- Makes the first state of an entry of the stash, and the nodes of the slots after that. -/
def entry (build : DefinitionId → Run InstanceId) (d : Definition) (elements : List NodeId) :
    StashPlan → Run (StashItem × List NodeId)
  | .tracker detached => return (.tracker (.ofDetached detached), elements)
  | .sequential definition share anchors =>
    return (.sequential { definition, share, anchors }, elements)
  | .keyed definition key share anchors =>
    return (.keyed { definition, key, share, anchors }, elements)
  | .child slot source startsDetached => do
    let child ← build (← sourceOf d source)
    return (.child child, ← takePlace slot startsDetached child elements)

/-- Makes the rest of a stash of which some entries are there. If an entry cannot be made, the
children made so far and the root go again. -/
def entries (build : DefinitionId → Run InstanceId) (d : Definition) (root : NodeId) :
    List StashItem → List NodeId → List StashPlan → Run (List StashItem × List NodeId)
  | made, elements, [] => return (made, elements)
  | made, elements, plan :: rest => do
    match ← Run.attempt (entry build d elements plan) with
    | .ok (next, elements) => entries build d root (made ++ [next]) elements rest
    | .error fault =>
      (made.filterMap StashItem.child?).forM (Run.retire .destroy)
      Run.onDocument (·.release root)
      Run.fail fault

/-- Takes up a new instance and lets it listen at its nodes. -/
def register (t : Template) (inst : Instance) : Run InstanceId := do
  let i ← modifyGet fun w => (w.instances.size, { w with instances := w.instances.push inst })
  t.listeners.forM fun l =>
    match inst.elements[l.slot]? with
    | some node => Run.onDocument (·.listen node l.event (.bound i l.handler))
    | none => return
  return i

/-- Builds an instance of a definition, where `build` builds its nested children. -/
def assemble (lib : Library) (build : DefinitionId → Run InstanceId) (id : DefinitionId)
    (props : Value) (controller : Controller) : Run InstanceId := do
  let d ← lib.definition id
  let t := d.template
  let root ← Run.newNode (·.instantiate t.markup)
  match bindFrom (← get).document root 0 t.slots with
  | .error slot =>
    Run.onDocument (·.release root)
    Run.fail (.missingElement d.name slot)
  | .ok elements =>
    let (stash, elements) ← entries build d root [] elements t.stash
    register t
      { definition := id, root, props, state := d.initialState, controller, elements
        cache := .empty t.watches, stash, mounted := false }

end Build

namespace Run

/-- Builds an instance, following definitions in definitions to a depth. -/
def buildWithin (lib : Library) :
    (depth : Nat) → DefinitionId → Value → Controller → Run InstanceId
  | 0, _, _, _ => giveUp .tooDeep
  | depth + 1, id, props, controller =>
    Build.assemble lib (fun child => buildWithin lib depth child .null none) id props controller

/-- Builds an instance without rendering it. A definition only refers to earlier ones, so its number
bounds the depth. -/
def build (lib : Library) (id : DefinitionId) (props : Value) (controller : Controller) :
    Run InstanceId :=
  buildWithin lib (id + 1) id props controller

/-- Builds an instance and updates it for the first time. If that fails, the instance is destroyed
again. -/
def construct (engine : Engine) (id : DefinitionId) (props : Value) (controller : Controller) :
    Run InstanceId := do
  let i ← build engine.library id props controller
  match ← attempt (hold i (Instance.update engine)) with
  | .ok _ =>
    hold i (Holding.change fun inst => { inst with mounted := true })
    return i
  | .error fault =>
    retire .destroy i
    fail fault

/-- A rendered instance of a definition. With `share`, the spare instance returned last is used if
there is one. -/
def acquire (engine : Engine) (id : DefinitionId) (share : Bool) (props : Value)
    (controller : Controller) : Run InstanceId := do
  let d ← engine.library.definition id
  let spare ← if share then popPool id else pure none
  match spare with
  | some i =>
    log .debug (d.name ++ ": reusing pooled instance")
    let _ ← hold i (Instance.render engine props controller)
    return i
  | none =>
    log .debug (d.name ++ ": constructing instance")
    construct engine id props controller

end Run

end ComponentView
