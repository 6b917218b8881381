import ComponentView.Engine

/-! # One pass over an instance

A pass sees its instance through a setting that stays the same from its start to its end: the
definition, the scope and the nodes of the slots. All that it changes of the instance is the cache
and the stash; beside them it keeps the values it has looked up and notes what it does. -/

namespace ComponentView

/-- What stays the same during a pass. -/
structure Setting where
  engine : Engine
  definition : Definition
  scope : Scope
  /-- The node of every slot. -/
  elements : List NodeId

/-- What changes during a pass. -/
structure Pass where
  cache : Cache
  stash : List StashItem
  memo : Memo
  /-- The watches that the pass has come to, in order. -/
  visits : List Nat := []
  /-- The number of watches passed over because they lie below a hidden node. -/
  skipped : Nat := 0
  /-- The number of effects run because a lookup had a new value. -/
  effects : Nat := 0
  /-- The number of callbacks run on every visit. -/
  always : Nat := 0
  deriving Inhabited

namespace Setting

variable (s : Setting)

/-- The setting of a pass over an instance. -/
def ofInstance (engine : Engine) (d : Definition) (i : Instance) : Setting :=
  { engine
    definition := d
    scope :=
      { props := i.props, state := i.state, controller := i.controller, methods := d.methods }
    elements := i.elements }

/-- The template of the instance. -/
def template : Template := s.definition.template

/-- The controller that the instance was rendered with. -/
def controller : Controller := s.scope.controller

/-- The node of a slot. -/
def node (slot : Nat) : Run NodeId :=
  match s.elements[slot]? with
  | some i => return i
  | none => Run.giveUp (.noSlot slot)

end Setting

/-- The entry of a stash under a key, if it is of the expected kind, as `pick` tells. The log says
what is there instead. -/
def Run.fetch {α : Type} (component : String) (stash : List StashItem) (key : StashIndex)
    (expected : StashKind) (pick : StashItem → Option α) : Run α :=
  let found := stash[key]?
  match found.bind pick with
  | some a => return a
  | none => do
    let text := (found.map (·.kind.text)).getD "nothing"
    log .debug (component ++ ": stash slot " ++ Decimal.natText key ++ " holds " ++ text)
    fail (.stashMismatch component key expected)

namespace Pass

/-- A pass over an instance at its start. -/
def start (t : Template) (i : Instance) : Pass :=
  { cache := i.cache, stash := i.stash, memo := .empty t.lookups }

/-- An instance after a pass over it. -/
def finish (p : Pass) (i : Instance) : Instance := { i with cache := p.cache, stash := p.stash }

/-- What the pass has done so far. -/
def stats (p : Pass) : PassStats :=
  { visited := p.visits.length, skipped := p.skipped, effects := p.effects, always := p.always }

/-- The value of a lookup, which is computed at its first use. -/
def evaluate (s : Setting) (key : LookupKey) : Holding Pass Value := do
  let result := (← Holding.held).memo.evaluate s.template.lookups key s.scope
  let (value, memo) ← Holding.outside (Run.traced result)
  Holding.change fun p => { p with memo }
  return value

/-- The entry of the stash under a key, if it is of the expected kind. -/
def fetch {α : Type} (s : Setting) (key : StashIndex) (expected : StashKind)
    (pick : StashItem → Option α) : Holding Pass α := do
  Holding.outside (Run.fetch s.definition.name (← Holding.held).stash key expected pick)

/-- Replaces the entry of the stash under a key. -/
def store (key : StashIndex) (entry : StashItem) (p : Pass) : Pass :=
  { p with stash := p.stash.set key entry }

/-- Works on what the entry of the stash under a key holds, and then shows the stash to the world. -/
def revise {α : Type} (key : StashIndex) (entry : α → StashItem) (a : α) (x : Holding α Unit) :
    Holding Pass Unit := do
  Holding.within (fun _ => a) (fun a => store key (entry a)) x
  Holding.outside (Run.showStash (← Holding.held).stash)

end Pass

end ComponentView
