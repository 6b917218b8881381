import ComponentView.Engine

/-! # Repeats by key

Every key has one instance for as long as it is among the keys of the items. Instances whose place
has changed are moved; the order of the repeater is the order of the instances in the container. An
item whose key has come before is passed over. -/

namespace ComponentView

namespace Keyed

/-- The key of an item. -/
def itemKey (r : Keyed) (item : Value) : Run ItemKey :=
  let value := item.get r.key
  match ItemKey.ofValue? value with
  | some key => return key
  | none => Run.fail (.invalidKey r.key value.kindName)

/-- The instance of a key, rendered with an item: the one that is there, or else a new one. -/
def instanceFor (engine : Engine) (controller : Controller) (key : ItemKey) (item : Value) :
    Holding Keyed InstanceId := do
  let r ← Holding.held
  match r.instance? key with
  | some i =>
    let _ ← Holding.outside (engine.render i item controller)
    return i
  | none =>
    let i ← Holding.outside (engine.acquire r.definition r.share item controller)
    Holding.outside (Run.welcome i)
    Holding.change fun r => { r with instances := r.instances ++ [(key, i)] }
    return i

/-- An order in which a key is pulled forward to a position; what stands before the position
stays. -/
def pullForward (key : ItemKey) (position : Nat) (order : List ItemKey) : List ItemKey :=
  order.take position ++ key :: (order.drop position).erase key

/-- Puts the instance of a key at a position. Past the end of the order it comes before the anchor,
otherwise before the instance that stands there. -/
def settle (container : NodeId) (anchor : Option NodeId) (key : ItemKey) (i : InstanceId)
    (position : Nat) : Holding Keyed Unit := do
  let r ← Holding.held
  let root ← Holding.outside (Run.rootOf i)
  match r.order[position]? with
  | none =>
    Holding.outside (Run.onDocument (·.insertBefore container root anchor))
    Holding.change fun r => { r with order := r.order ++ [key] }
  | some there =>
    if there ≠ key then
      match r.instance? there with
      | none => Holding.outside (Run.giveUp (.noOccupant there))
      | some occupant =>
        let before ← Holding.outside (Run.rootOf occupant)
        Holding.outside (Run.onDocument (·.insertBefore container root (some before)))
        Holding.change fun r => { r with order := pullForward key position r.order }

/-- Shows items from a position on, where `seen` holds the keys that have come before; the result is
the number of positions in use. -/
def showItems (engine : Engine) (container : NodeId) (anchor : Option NodeId)
    (controller : Controller) :
    (seen : List ItemKey) → (position : Nat) → List Value → Holding Keyed Nat
  | _, position, [] => return position
  | seen, position, item :: rest => do
    let r ← Holding.held
    let key ← Holding.outside (r.itemKey item)
    if key ∈ seen then
      Holding.outside do
        let d ← engine.library.definition r.definition
        Run.log .warn (d.name ++ ": duplicate repeat key `" ++ key.text ++ "`, item skipped")
      showItems engine container anchor controller seen position rest
    else
      let i ← instanceFor engine controller key item
      settle container anchor key i position
      showItems engine container anchor controller (key :: seen) (position + 1) rest

/-- Drops the instance of a key. -/
def dropKey (container : NodeId) (key : ItemKey) : Holding Keyed Unit := do
  let r ← Holding.held
  match r.instance? key with
  | none => return
  | some i =>
    Holding.outside do
      let root ← Run.rootOf i
      Run.onDocument (·.remove container root)
      Retire.drop Run.retire r.definition r.share i
    Holding.change fun r => { r with instances := r.instances.filter (·.1 ≠ key) }

/-- Drops the instances from a position on. -/
def dropFrom (container : NodeId) (position : Nat) : Holding Keyed Unit := do
  let r ← Holding.held
  (r.order.drop position).forM (dropKey container)
  Holding.change fun r => { r with order := r.order.take position }

/-- Brings the repeater in step with a list of items. New instances at the end come before the
anchor. -/
def patch (engine : Engine) (container : NodeId) (anchor : Option NodeId) (items : List Value)
    (controller : Controller) : Holding Keyed Unit := Holding.welcoming do
  let position ← showItems engine container anchor controller [] 0 items
  dropFrom container position

end Keyed

end ComponentView
