import ComponentView.Mount

/-! # Observables

An observable is a member of an observed value, at any depth. Writing it changes the whole value and
tells the followers of the cell, whatever member they follow. A write that cannot be made tells
nobody. -/

namespace ComponentView

/-- Counts a change of a cell and lets its followers run. -/
def Run.notify (engine : Engine) (cell : Nat) : Run Unit := do
  let w ← get
  let fresh := (w.cells[cell]?.elim [] Cell.followers).filter fun id => !w.isDue id
  let w := { w with cells := w.cells.modify cell fun c => { c with changes := c.changes + 1 } }
  set (fresh.foldl (World.setDue · true) w)
  fresh.forM (Run.schedule engine)

namespace Observable

variable {α : Type}

/-- A new cell, as an observable of its whole value. -/
def new (value : Value) (tracked : Bool) : Run Observable := modifyGet fun w =>
  ({ cell := w.cells.size }, { w with cells := w.cells.push { value, tracked } })

/-- A member of an observable. -/
def member (o : Observable) (steps : Path) : Observable := { o with path := o.path ++ steps }

/-- The number of changes of an observable. -/
def changes (o : Observable) (w : World) : Nat := w.cells[o.cell]?.elim 0 Cell.changes

/-- Changes the observed member by `f`, which also says whether it did, and tells the followers if
so. -/
def alter (engine : Engine) (o : Observable) (f : Value → Value × Option α) : Run (Option α) := do
  match (← get).cells[o.cell]? with
  | none => return none
  | some c =>
    let (value, answer) := c.value.modifyAt f o.path
    modify fun w => { w with cells := w.cells.modify o.cell fun c => { c with value } }
    match answer.join with
    | none => return none
    | some a =>
      Run.notify engine o.cell
      return some a

/-- Replaces the observed member, and whether it could be reached. -/
def set (engine : Engine) (o : Observable) (value : Value) : Run Bool :=
  return (← o.alter engine fun _ => (value, some ())).isSome

/-- A list with one more item; null becomes a list of one item. -/
def pushItem (item : Value) : Value → Value × Option Unit
  | .list items => (.list (items ++ [item]), some ())
  | .null => (.list [item], some ())
  | v => (v, none)

/-- Adds an item to the observed list, and whether there was one. -/
def push (engine : Engine) (o : Observable) (item : Value) : Run Bool :=
  return (← o.alter engine (pushItem item)).isSome

/-- A list without the item at a position, and that item. -/
def removeItem (position : Nat) : Value → Value × Option Value
  | .list items => match items[position]? with
    | some item => (.list (items.eraseIdx position), some item)
    | none => (.list items, none)
  | v => (v, none)

/-- Takes the item at a position out of the observed list. -/
def remove (engine : Engine) (o : Observable) (position : Nat) : Run (Option Value) :=
  o.alter engine (removeItem position)

/-- Changes the observed member by a function, and hands back what the function answers if the
member could be reached. -/
def update (engine : Engine) (o : Observable) (f : Value → Value × α) : Run (Option α) :=
  o.alter engine fun v =>
    let (v, answer) := f v
    (v, some answer)

end Observable

end ComponentView
