import ComponentView.Instance.Retirement

/-! # What an update calls on

While an instance is updated it may have other instances rendered, ask for new ones, raise events
and publish values, and each of these may start the whole work over again on another instance. The
modules that describe one update therefore take what they call on as an argument, an `Engine`. -/

namespace ComponentView

/-- What one pass over the watches of an instance has done. -/
structure PassStats where
  /-- The watches that the pass came to. -/
  visited : Nat := 0
  /-- The watches that it passed over because they lie below a hidden node. -/
  skipped : Nat := 0
  /-- The effects run because a lookup had a new value. -/
  effects : Nat := 0
  /-- The callbacks run on every visit. -/
  always : Nat := 0
  deriving DecidableEq, Inhabited, Repr

/-- What an update calls on. -/
structure Engine where
  /-- The definitions of the run. -/
  library : Library
  /-- Renders an instance with props and a controller. -/
  render : InstanceId → Value → Controller → Run PassStats
  /-- A rendered instance of a definition, a spare one if the pool may be used and has one. -/
  acquire : DefinitionId → (share : Bool) → Value → Controller → Run InstanceId
  /-- Raises an event on a node, and how many listeners ran. -/
  dispatch : NodeId → String → Value → Run Nat
  /-- Writes a published observable, and whether it was written; none if nobody published it. -/
  publish : String → Value → Run (Option Bool)

/-- The definition of a number. -/
def Library.definition (lib : Library) (id : DefinitionId) : Run Definition :=
  match lib[id]? with
  | some d => return d
  | none => Run.giveUp (.noDefinition id)

end ComponentView
