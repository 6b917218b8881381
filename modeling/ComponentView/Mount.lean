import ComponentView.Update.Walk

/-! # Mounts

A mount renders its instance again whenever the observable it follows changes. A change makes the
followers of the cell due, and they run in rounds until none is waiting. Changes made by the mounts
themselves wait for the next round. -/

namespace ComponentView

namespace World

/-- Notes whether a mount is due. -/
def setDue (w : World) (due : Bool) (id : MountId) : World :=
  { w with mounts := w.mounts.modify id fun m => { m with due } }

/-- Changes the followers of a cell. -/
def changeFollowers (w : World) (cell : Nat) (f : List MountId → List MountId) : World :=
  { w with cells := w.cells.modify cell fun c => { c with followers := f c.followers } }

/-- The value of an observable; null if its path leads nowhere. -/
def read (w : World) (o : Observable) : Value :=
  (w.cells[o.cell]?.elim .null Cell.value).get o.path

/-- Whether a mount is due. -/
def isDue (w : World) (id : MountId) : Bool := w.mounts[id]?.elim false Mount.due

end World

namespace Run

/-- The number of rounds after which mounts that go on making each other due are given up. -/
def roundLimit : Nat := 1000

/-- Renders an instance from an observable with the controller it has. An instance that is held is
left alone, and a failure only goes into the log. -/
def renderFrom (engine : Engine) (i : InstanceId) (source : Observable) : Run Unit := do
  let w ← get
  if i ∈ w.busy then
    log .error "render skipped: component is already being updated"
  else
    let inst ← look i
    match ← attempt (engine.render i (w.read source) inst.controller) with
    | .ok _ => return
    | .error fault =>
      let d ← engine.library.definition inst.definition
      log .error (d.name ++ ": render failed: " ++ fault.message)

/-- Runs a mount if it is due. From then on it comes last among the followers of its cell. -/
def runMount (engine : Engine) (id : MountId) : Run Unit := do
  match (← get).mounts[id]? with
  | none => return
  | some m =>
    if m.due then
      modify fun w => w.setDue false id
      renderFrom engine m.component m.source
      modify fun w => w.changeFollowers m.source.cell fun others => others.erase id ++ [id]

/-- Runs the waiting mounts, round after round, until none is waiting. -/
def runRounds (engine : Engine) : (rounds : Nat) → Run Unit
  | 0 => giveUp .endlessUpdates
  | rounds + 1 => do
    match (← get).waiting with
    | [] => return
    | waiting =>
      modify fun w => { w with waiting := [] }
      waiting.forM (runMount engine)
      runRounds engine rounds

/-- Lets a due mount wait for the next round, which starts at once unless mounts are being run. -/
def schedule (engine : Engine) (id : MountId) : Run Unit := do
  modify fun w => { w with waiting := w.waiting ++ [id] }
  unless (← get).running do
    modify fun w => { w with running := true }
    runRounds engine roundLimit
    modify fun w => { w with running := false }

/-- Renders an instance from an observable, now and after every change; an observable that is not
tracked renders it only now. -/
def mount (engine : Engine) (component : InstanceId) (source : Observable) :
    Run (Option MountId) := do
  if (← get).cells[source.cell]?.elim false Cell.tracked then
    let id ← modifyGet fun w =>
      (w.mounts.size, { w with mounts := w.mounts.push { component, source, due := true } })
    schedule engine id
    return some id
  else
    log .warn "mounting an untracked observable; it will render once"
    renderFrom engine component source
    return none

/-- Ends a mount. -/
def endMount (id : MountId) : Run Unit :=
  modify fun w => match w.mounts[id]? with
    | some m => (w.setDue false id).changeFollowers m.source.cell (·.erase id)
    | none => w

end Run

end ComponentView
