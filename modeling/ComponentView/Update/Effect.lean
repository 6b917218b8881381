import ComponentView.Repeat.Keyed
import ComponentView.Repeat.Sequential
import ComponentView.Update.Pass

/-! # Effects

What an effect does when its watch is visited: it writes to the node, renders child components, or
acts as user code would. -/

namespace ComponentView

namespace Effect

/-- What an attribute shows of a value: null and false remove it, true leaves it empty. -/
def attributeText : Value → Option String
  | .null | .bool false => none
  | .bool true => some ""
  | v => some v.text

/-- What a style property shows of a value: null clears it. -/
def styleText : Value → Option String
  | .null => none
  | v => some v.text

/-- The items of a repeat; null counts as no items. -/
def itemsOf : Value → Run (List Value)
  | .null => return []
  | .list items => return items
  | v => Run.fail (.notAList v.kindName)

/-- The first of some anchors that is in a container at the moment. -/
def anchorIn (s : Setting) (stash : List StashItem) (container : NodeId) :
    List Anchor → Run (Option NodeId)
  | [] => return none
  | .slot slot :: rest => do
    let d := (← get).document
    match s.elements[slot]?.filter fun i => d.parent? i = some container with
    | some i => return some i
    | none => anchorIn s stash container rest
  | .repeater key :: rest => do
    match stash[key]?.bind StashItem.head? with
    | some i => return some (← Run.rootOf i)
    | none => anchorIn s stash container rest

/-- Renders a nested child. -/
def renderNested (s : Setting) (key : StashIndex) (props : LookupKey) : Holding Pass Unit := do
  let props ← Pass.evaluate s props
  let child ← Pass.fetch s key .child StashItem.child?
  let _ ← Holding.outside (s.engine.render child props s.controller)

/-- Brings a repeater by position in step with its items. -/
def renderByPosition (s : Setting) (container : NodeId) (key : StashIndex) (items : LookupKey) :
    Holding Pass Unit := do
  let items ← Holding.outside (itemsOf (← Pass.evaluate s items))
  let r ← Pass.fetch s key .sequential StashItem.sequential?
  let anchor ← Holding.outside (anchorIn s (← Holding.held).stash container r.anchors)
  Pass.revise key .sequential r (Sequential.patch s.engine container anchor items s.controller)

/-- Brings a repeater by key in step with its items. -/
def renderByKey (s : Setting) (container : NodeId) (key : StashIndex) (items : LookupKey) :
    Holding Pass Unit := do
  let items ← Holding.outside (itemsOf (← Pass.evaluate s items))
  let r ← Pass.fetch s key .keyed StashItem.keyed?
  let anchor ← Holding.outside (anchorIn s (← Holding.held).stash container r.anchors)
  Pass.revise key .keyed r (Keyed.patch s.engine container anchor items s.controller)

/-- Runs an effect on a node with the watched value. -/
def run (s : Setting) (node : NodeId) (value : Value) : Effect → Holding Pass Unit
  | setText => Holding.outside (Run.onDocument (·.setText node value.text))
  | setAttribute name =>
    Holding.outside (Run.onDocument (·.setAttribute node name (attributeText value)))
  | switchClass name => Holding.outside (Run.onDocument (·.setClass node name value.isTruthy))
  | switchClasses names =>
    names.forM fun name =>
      Holding.outside (Run.onDocument (·.setClass node name value.isTruthy))
  | setStyle property =>
    Holding.outside (Run.onDocument (·.setStyle node property (styleText value)))
  | renderChild key props => renderNested s key props
  | renderSequence key items => renderByPosition s node key items
  | renderKeyed key items => renderByKey s node key items
  | record tag =>
    Holding.outside <|
      Run.record (.list [tag, value, .int (Int64.ofNat node), s.controller.toValue])
  | failWhen message =>
    if value.isTruthy then Holding.outside (Run.fail (.effect message)) else return
  | recordLookup key => do
    let v ← Pass.evaluate s key
    Holding.outside (Run.record (.list [.str "eval", v]))
  | recordScope =>
    Holding.outside (Run.record (.list [.str "scope", s.scope.props, s.scope.state]))
  | dispatch event => Holding.outside do
    let count ← s.engine.dispatch node event value
    Run.record (.list [.str "dispatched", .int (Int64.ofNat count)])
  | publish name => Holding.outside do
    let written ← s.engine.publish name value
    Run.record (.list [.str "obs_set", written.elim .null .bool])

end Effect

end ComponentView
