import ComponentView.Template
import ComponentView.Template.Check

/-! # Compilation

Compilation walks the outline of a component once. A node with directives gets a slot, the position
at which instances keep its node, and one watch with everything an update does there; expressions
are interned, child components become entries of the stash. After the walk every shield learns how
many watches lie below it, every part which watches are its own, and every repeat which later
siblings its items come before. -/

namespace ComponentView

/-- The choices that a component is compiled with. -/
structure CompileSettings where
  /-- Whether a repeat that does not say so returns its children to the pool. -/
  sharePools : Bool := true
  /-- The attribute of a node that is out of sight. -/
  hideAttribute : String := "hidden"
  deriving Inhabited, Repr

/-- What has been laid out so far. -/
structure Layout where
  lookups : LookupTable := {}
  watches : List Watch := []
  /-- The entry of the outline that each slot belongs to. -/
  owners : List Nat := []
  /-- The trackers by the entry of their parent. -/
  trackers : List (Nat × StashIndex) := []
  /-- The repeaters by their entry. -/
  repeats : List (Nat × StashIndex) := []
  stash : List StashPlan := []
  listeners : List ListenerPlan := []
  refs : List (String × Nat) := []
  deriving Inhabited

/-- A step of the walk, which lays something out. -/
abbrev Lay := StateM Layout

namespace Lay

/-- The slot of an entry, which gets one at its first use. -/
def slot (entry : Nat) : Lay Nat := fun l =>
  match l.owners.idxOf? entry with
  | some slot => (slot, l)
  | none => (l.owners.length, { l with owners := l.owners ++ [entry] })

/-- The key of an expression. -/
def intern (e : Expr) : Lay LookupKey := fun l =>
  let (lookups, key) := l.lookups.intern e
  (key, { l with lookups })

/-- Plans one more entry of the stash. -/
def plan (p : StashPlan) : Lay StashIndex := fun l =>
  (l.stash.length, { l with stash := l.stash ++ [p] })

/-- Adds a listener. -/
def listen (slot : Nat) (event : String) (handler : Handler) : Lay Unit :=
  modify fun l => { l with listeners := l.listeners ++ [⟨slot, event, handler⟩] }

/-- The tracker of a parent, which gets one at its first use. -/
def tracker (parent : Nat) : Lay StashIndex := do
  match (← get).trackers.lookup parent with
  | some key => return key
  | none =>
    let key ← plan (.tracker [])
    modify fun l => { l with trackers := l.trackers ++ [(parent, key)] }
    return key

/-! ## One node -/

/-- How a node in detach mode leaves its parent. A child component starts outside of it. -/
def detachPlan (e : OutlineEntry) : Lay (Option DetachPlan) := do
  match e.node.head.canDetach, e.parent, e.siblingPlace with
  | true, some parent, some position =>
    let key ← tracker parent
    let parentSlot ← slot parent
    if e.node.head.isComponent then
      modify fun l => { l with stash := l.stash.modify key (StashPlan.startDetached position) }
    return some ⟨position, key, parentSlot⟩
  | _, _, _ => return none

/-- The shield of a node; how much it passes over is known only after the walk. -/
def shield (e : OutlineEntry) : Lay (Option Shield) := do
  match e.node.head.visibility with
  | some v =>
    let query ← intern v.query
    let detach ← detachPlan e
    return some ⟨query, v.reverse, 0, detach⟩
  | none => return none

/-- Adds the watches of a node. -/
def addWatches (directives : List WatchDirective) (w : Watch) : Lay Watch :=
  directives.foldlM (fun w d => do
    let key ← intern d.expr
    return w.add (.lookup key) d.effect) w

/-- Adds the bindings of a node: each shows a member of the state and listens for its event. -/
def addBinds (directives : List BindDirective) (w : Watch) : Lay Watch :=
  directives.foldlM (fun w d => do
    let key ← intern (.state d.path)
    let w := w.add (.lookup key) (.setAttribute d.attributeName)
    listen w.slot d.event (.bind d.path)
    return w) w

/-- The classes that a condition switches: those of the target of its name, or else its name. -/
def toggledClasses (targets : List ToggleClasses) (name : String) : List String :=
  match targets.find? (·.name = name) with
  | some target => target.classes
  | none => [name]

/-- Adds the conditions of a node that switch classes. -/
def addToggles (targets : List ToggleClasses) (directives : List ToggleDirective) (w : Watch) :
    Lay Watch :=
  directives.foldlM (fun w d => do
    let key ← intern d.expr
    return w.add (.lookup key) (.switchClasses (toggledClasses targets d.name))) w

/-- Adds a nested child, built from `source` and rendered on every visit. -/
def addChild (source : ChildSource) (props : Expr) (e : OutlineEntry) (w : Watch) : Lay Watch := do
  let props ← intern props
  let key ← plan (.child w.slot source e.node.head.canDetach)
  return w.add .always (.renderChild key props)

/-- Adds a repeater, rendered on every visit. -/
def addRepeat (options : CompileSettings) (index : Nat) (definition : DefinitionId)
    (d : RepeatDirective) (w : Watch) : Lay Watch := do
  let items ← intern d.items
  let share := d.share.getD options.sharePools
  let key ← plan <| match d.key with
    | none => .sequential definition share []
    | some path => .keyed definition path share []
  modify fun l => { l with repeats := l.repeats ++ [(index, key)] }
  return w.add .always <| match d.key with
    | none => .renderSequence key items
    | some _ => .renderKeyed key items

/-- Adds the child component of a node, if it has one. -/
def addComponent (options : CompileSettings) (index : Nat) (e : OutlineEntry) (w : Watch) :
    Lay Watch :=
  match e.node.head.nested, e.node.head.stub with
  | some n, _ => match n.items with
    | none => addChild (.definition n.definition) n.props e w
    | some d => addRepeat options index n.definition d w
  | none, some s => addChild (.stub s.name) s.props e w
  | none, none => return w

/-- Lays out one node. A repeated node works at the slot of its container. -/
def entry (options : CompileSettings) (index : Nat) (e : OutlineEntry) : Lay Unit := do
  if e.node.takesSlot then
    let head := e.node.head
    let owner := if head.isRepeated then e.parent.getD index else index
    let slot ← slot owner
    head.reference.forM fun name => modify fun l => { l with refs := l.refs ++ [(name, slot)] }
    head.listeners.forM fun d => listen slot d.event d.handler
    let shield ← shield e
    let w ← addWatches head.watches ⟨slot, e.address, [], shield⟩
    let w ← addBinds head.binds w
    let w ← addToggles head.targets head.toggles w
    let w ← addComponent options index e w
    if !w.callbacks.isEmpty || w.shield.isSome then
      modify fun l => { l with watches := l.watches ++ [w] }

/-! ## After the walk -/

/-- The later siblings of a repeated entry, as anchors. -/
def laterSiblings (o : Outline) (index : Nat) : Lay (List Anchor) := do
  match o[index]?.bind (·.parent) with
  | none => return []
  | some parent =>
    ((o.childrenOf parent).filter (index < ·)).filterMapM fun sibling => do
      if o[sibling]?.any (·.node.head.isRepeated) then
        return ((← get).repeats.lookup sibling).map .repeater
      else
        return some (.slot (← slot sibling))

/-- Gives every repeater its anchors. -/
def anchors (o : Outline) : Lay Unit := do
  for (index, key) in (← get).repeats do
    let found ← laterSiblings o index
    modify fun l => { l with stash := l.stash.modify key (StashPlan.anchored found) }

end Lay

/-! ## The watch list -/

/-- A list of watches in which every shield passes over the watches directly after it that lie below
it. -/
def Watch.withSkips : List Watch → List Watch
  | [] => []
  | w :: rest =>
    let below := (rest.takeWhile fun later => later.address.extends? w.address).length
    { w with shield := w.shield.map fun s => { s with skip := below } } :: withSkips rest

/-- The watches of the node at an address and of the nodes below it: from the first such watch as
far as they follow each other, or nothing. -/
def Watch.partWindow (addresses : List Address) (address : Address) : Nat × Nat :=
  match addresses.findIdx? (·.within? address) with
  | some start =>
    (start, start + ((addresses.drop start).takeWhile (·.within? address)).length)
  | none => (0, 0)

namespace Template

/-- The template of a component that passed the checks. -/
def ofOutline (options : CompileSettings) (root : Node) (o : Outline) : Template :=
  let walk : Lay Unit := do
    for (e, index) in o.zipIdx do
      Lay.entry options index e
    Lay.anchors o
  let l := (walk.run {}).2
  let addresses := l.watches.map (·.address)
  { markup := root.markup
    watches := Watch.withSkips l.watches
    lookups := l.lookups
    slots := l.owners.map fun owner => (o[owner]?.map (·.place)).getD []
    stash := l.stash
    listeners := l.listeners
    refs := l.refs
    parts := o.filterMap fun e =>
      e.node.head.part.map fun name => (name, Watch.partWindow addresses e.address)
    hideAttribute := options.hideAttribute }

/-- Compiles a component, or says why it cannot be compiled. -/
def compile (options : CompileSettings) (name : String) (root : Node) :
    Except CompileError Template :=
  match root.checkRoot with
  | .error fault => .error ⟨name, fault⟩
  | .ok () =>
    let o := Outline.ofRoot root
    match o.check with
    | .error fault => .error ⟨name, fault⟩
    | .ok () => .ok (ofOutline options root o)

/-- What the log says about a compiled component. -/
def summary (t : Template) (name : String) : String :=
  "compiled " ++ name ++ ": " ++ Decimal.natText t.watches.length ++ " watches, "
    ++ Decimal.natText t.lookups.size ++ " lookups, " ++ Decimal.natText t.slots.length
    ++ " slots, " ++ Decimal.natText t.stash.length ++ " stash slots"

end Template

end ComponentView
