import ComponentView.Update.Effect

/-! # Updates

An update walks a window of the watch list from one end to the other. A watch with a shield first
asks whether its node is visible; while it is not, the watches of the nodes below it are passed
over, as far as the window reaches. The other watches run their callbacks: those of a lookup when it
has a new value, the others on every visit. -/

namespace ComponentView

namespace Pass

variable (s : Setting)

/-- Whether the node of a shield is to be visible. -/
def isVisible (shield : Shield) : Holding Pass Bool :=
  return (← evaluate s shield.query).isTruthy != shield.reverse

/-- Moves a node into its parent or out of it, as the tracker of the parent says. -/
def moveNode (plan : DetachPlan) (node : NodeId) (visible : Bool) : Holding Pass Unit := do
  let parent ← Holding.outside (s.node plan.parent)
  let t ← fetch s plan.tracker .tracker StashItem.tracker?
  let t ← Holding.outside <| modifyGet fun w =>
    let (t, document, _) := t.apply w.document plan.position parent node visible
    (t, { w with document })
  Holding.change (store plan.tracker (.tracker t))

/-- Shows or hides the node of a shield, and whether it is visible. -/
def applyShield (shield : Shield) (node : NodeId) : Holding Pass Bool := do
  let visible ← isVisible s shield
  match shield.detach with
  | some plan => moveNode s plan node visible
  | none =>
    let hidden := if visible then none else some ""
    Holding.outside (Run.onDocument (·.setAttribute node s.template.hideAttribute hidden))
  return visible

/-- Runs a callback of a watch. The value of a lookup is remembered only after all effects have run
with it. -/
def runCallback (node : NodeId) (watch position : Nat) (c : Callback) : Holding Pass Unit := do
  match c.trigger with
  | .always =>
    c.effects.forM (Effect.run s node .null)
    Holding.change fun p => { p with always := p.always + 1 }
  | .lookup key =>
    let value ← evaluate s key
    unless ((← Holding.held).cache.get? watch position).any (· == value) do
      c.effects.forM (Effect.run s node value)
      Holding.change fun p => { p with
        effects := p.effects + c.effects.length
        cache := p.cache.set watch position value }

/-- Runs the callbacks of a watch in order. -/
def runCallbacks (node : NodeId) (watch : Nat) (w : Watch) : Holding Pass Unit :=
  w.callbacks.zipIdx.forM fun (c, position) => runCallback s node watch position c

/-- Comes to a watch: shows or hides its node and runs its callbacks if it is visible. The result is
the number of watches to pass over, of which at most `rest` follow in the window. -/
def visit (watch : Nat) (w : Watch) (rest : Nat) : Holding Pass Nat := do
  let node ← Holding.outside (s.node w.slot)
  Holding.change fun p => { p with visits := p.visits ++ [watch] }
  match w.shield with
  | none =>
    runCallbacks s node watch w
    return 0
  | some shield =>
    if ← applyShield s shield node then
      runCallbacks s node watch w
      return 0
    else
      let skip := min shield.skip rest
      Holding.outside <| Run.log .trace <|
        s.definition.name ++ ": watch " ++ Decimal.natText watch ++ " hidden, skipping "
          ++ Decimal.natText skip
      Holding.change fun p => { p with skipped := p.skipped + skip }
      return skip

/-- Walks a window of numbered watches, of which the first `skip` are passed over. -/
def walk : (skip : Nat) → List (Watch × Nat) → Holding Pass Unit
  | _, [] => return
  | skip + 1, _ :: rest => walk skip rest
  | 0, (w, watch) :: rest => do
    let skip ← visit s watch w rest.length
    walk skip rest

end Pass

/-- The watches from one position up to another, with their positions. -/
def Template.window (t : Template) (start stop : Nat) : List (Watch × Nat) :=
  (t.watches.zipIdx.take stop).drop start

namespace Instance

variable (engine : Engine)

/-- Updates the watches of a held instance from one position up to another. -/
def updateWindow (start stop : Nat) : Holding Instance PassStats := do
  let i ← Holding.held
  let d ← Holding.outside (engine.library.definition i.definition)
  Holding.within (Pass.start d.template) Pass.finish do
    Pass.walk (.ofInstance engine d i) 0 (d.template.window start stop)
    return (← Holding.held).stats

/-- Updates all watches of a held instance. -/
def update : Holding Instance PassStats := do
  let i ← Holding.held
  let d ← Holding.outside (engine.library.definition i.definition)
  updateWindow engine 0 d.template.watches.length

/-- Updates the watches of one part of a held instance. -/
def updatePart (name : String) : Holding Instance PassStats := do
  let i ← Holding.held
  let d ← Holding.outside (engine.library.definition i.definition)
  match d.template.part? name with
  | some (start, stop) => updateWindow engine start stop
  | none => Holding.outside (Run.fail (.unknownPart d.name name))

/-- Gives a held instance new props and a controller and updates it. -/
def render (props : Value) (controller : Controller) : Holding Instance PassStats := do
  Holding.change fun i => { i with props, controller, mounted := true }
  update engine

end Instance

end ComponentView
