import ComponentView.Event
import ComponentView.Instance.Build
import ComponentView.Observable

/-! # The engine of a library

What an update calls on are updates again, so an engine is made from the engine one level below it.
The engine at level zero gives every run up. -/

namespace ComponentView

/-- Writes a published observable, and whether it was written; none if nobody published it. -/
def Run.publish (engine : Engine) (name : String) (value : Value) : Run (Option Bool) := do
  match (← get).published.get? name with
  | none => return none
  | some o => return some (← o.set engine value)

namespace Engine

/-- The engine that gives up. -/
def exhausted (library : Library) : Engine where
  library := library
  render _ _ _ := Run.giveUp .tooDeep
  acquire _ _ _ _ := Run.giveUp .tooDeep
  dispatch _ _ _ := Run.giveUp .tooDeep
  publish _ _ := Run.giveUp .tooDeep

/-- The engine one level above another. -/
def above (below : Unit → Engine) (library : Library) : Engine where
  library := library
  render i props controller := Run.hold i (Instance.render (below ()) props controller)
  acquire id share props controller := Run.acquire (below ()) id share props controller
  dispatch target name value := Run.dispatch (below ()) target name value
  publish name value := Run.publish (below ()) name value

/-- The engine that nests operations at most `depth` deep. -/
def nested (library : Library) : (depth : Nat) → Engine
  | 0 => exhausted library
  | depth + 1 => above (fun _ => nested library depth) library

/-- How deep operations can be nested. -/
def depthLimit : Nat := 65536

/-- The engine of a library. -/
def ofLibrary (library : Library) : Engine := nested library depthLimit

end Engine

end ComponentView
