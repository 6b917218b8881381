import ComponentView.Engine

/-! # Repeats by position

Item `i` is shown by instance `i`. Instances that are there are rendered in place; new ones are made
at the end, and the document changes only where the number of items does. A shared repeater returns
the instances it has no items for to the pool; a private one keeps them for later. -/

namespace ComponentView

namespace Sequential

/-- The instance of a position, rendered with an item: the one that is there, or else a new one. -/
def instanceFor (engine : Engine) (controller : Controller) (position : Nat) (item : Value) :
    Holding Sequential InstanceId := do
  let r ← Holding.held
  match r.instances[position]? with
  | some i =>
    let _ ← Holding.outside (engine.render i item controller)
    return i
  | none =>
    let i ← Holding.outside (engine.acquire r.definition r.share item controller)
    Holding.outside (Run.welcome i)
    Holding.change fun r => { r with instances := r.instances ++ [i] }
    return i

/-- Shows an item at a position; an instance that is not in the container comes before the
anchor. -/
def showItem (engine : Engine) (container : NodeId) (anchor : Option NodeId)
    (controller : Controller) (position : Nat) (item : Value) : Holding Sequential Unit := do
  let i ← instanceFor engine controller position item
  if (← Holding.held).attached ≤ position then
    Holding.outside do
      let root ← Run.rootOf i
      Run.onDocument (·.insertBefore container root anchor)
    Holding.change fun r => { r with attached := position + 1 }

/-- Shows items from a position on. -/
def showItems (engine : Engine) (container : NodeId) (anchor : Option NodeId)
    (controller : Controller) : (position : Nat) → List Value → Holding Sequential Unit
  | _, [] => return
  | position, item :: rest => do
    showItem engine container anchor controller position item
    showItems engine container anchor controller (position + 1) rest

/-- Takes the instances from a position on out of the container. -/
def withdraw (container : NodeId) (position : Nat) : Holding Sequential Unit := do
  let r ← Holding.held
  ((r.instances.take r.attached).drop position).forM fun i => Holding.outside do
    let root ← Run.rootOf i
    Run.onDocument (·.remove container root)
  Holding.change fun r => { r with attached := min r.attached position }

/-- Returns the instances from a position on to the pool, if the repeater is shared. -/
def giveBackFrom (position : Nat) : Holding Sequential Unit := do
  let r ← Holding.held
  if r.share then
    (r.instances.drop position).forM fun i =>
      Holding.outside (Retire.giveBack Run.retire r.definition i)
    Holding.change fun r => { r with instances := r.instances.take position }

/-- Brings the repeater in step with a list of items. New instances come before the anchor. -/
def patch (engine : Engine) (container : NodeId) (anchor : Option NodeId) (items : List Value)
    (controller : Controller) : Holding Sequential Unit := Holding.welcoming do
  showItems engine container anchor controller 0 items
  withdraw container items.length
  giveBackFrom items.length

end Sequential

end ComponentView
