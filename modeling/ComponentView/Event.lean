import ComponentView.Update.Walk

/-! # Events

An event is delivered to the listeners of one node, in the order in which they were added. A handler
holds its instance while it runs, so an event that reaches an instance in the middle of an update is
turned away with a line in the log, as is a handler that fails; neither stops the others. -/

namespace ComponentView

namespace Handler

/-- Writes a value into the state of a held instance, and whether it could be written. -/
def writeState (path : Path) (value : Value) : Holding Instance Bool := do
  let i ← Holding.held
  let (i, written) := i.withStateAt path value
  Holding.change fun _ => i
  return written

/-- Runs a handler on its held instance. -/
def run (engine : Engine) (event : Event) : Handler → Holding Instance Unit
  | record tag =>
    Holding.outside <| Run.record <|
      .list [tag, .str event.name, .int (Int64.ofNat event.target), event.value]
  | fail message => Holding.outside (Run.fail (.effect message))
  | write path => do
    let written ← writeState path event.value
    Holding.outside (Run.record (.list [.str "set", .bool written]))
  | increment path => do
    let count := (((← Holding.held).state.get path).asInt?).getD 0
    let _ ← writeState path (.int (count + 1))
    let _ ← Instance.update engine
  | setState => Holding.change fun i => { i with state := event.value }
  | update => do
    let _ ← Instance.update engine
  | render controller => do
    let _ ← Instance.render engine event.value controller
  | updatePart name => do
    let _ ← Instance.updatePart engine name
  | dispatch name => Holding.outside do
    let count ← engine.dispatch event.target name event.value
    Run.record (.list [.str "dispatched", .int (Int64.ofNat count)])
  | publish name value => Holding.outside do
    let written ← engine.publish name value
    Run.record (.list [.str "obs_set", written.elim .null .bool])
  | dismount => Retire.inPlace Run.retire .dismount
  | bind path => do
    let _ ← writeState path event.value
    let _ ← Instance.update engine

end Handler

/-- Runs the handler of an instance for an event. Nothing happens if the instance is no longer in
use. -/
def Run.handle (engine : Engine) (event : Event) (owner : InstanceId) (handler : Handler) :
    Run Unit := do
  let w ← get
  if w.inUse owner then
    if owner ∈ w.busy then
      Run.log .error
        ("`" ++ event.name ++ "` listener fired during an update of the same instance")
    else
      match ← Run.attempt (Run.hold owner (handler.run engine event)) with
      | .ok () => return
      | .error fault =>
        let d ← engine.library.definition (← Run.look owner).definition
        Run.log .error
          (d.name ++ ": `" ++ event.name ++ "` listener failed: " ++ fault.message)

/-- Delivers an event to a listener. -/
def Listener.hear (engine : Engine) (event : Event) : Listener → Run Unit
  | probe tag =>
    Run.record
      (.list [tag, .str event.name, .int (Int64.ofNat event.target), event.value])
  | bound owner handler => Run.handle engine event owner handler

/-- Raises an event on a node, and how many listeners heard it. -/
def Run.dispatch (engine : Engine) (target : NodeId) (name : String) (value : Value) : Run Nat := do
  let listeners := (← get).document.listenersFor target name
  listeners.forM (Listener.hear engine ⟨name, target, value⟩)
  return listeners.length

end ComponentView
