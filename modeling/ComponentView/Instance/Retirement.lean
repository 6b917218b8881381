import ComponentView.World

/-! # Retirement

An instance is put out of use in two ways. Dismounting keeps its nodes, for it may be used again;
destroying releases them. Either way goes down through everything the instance holds. Instances of a
shared repeater go back to the pool of their definition; those of a private repeater stay where they
are when it is dismounted and are destroyed with it. -/

namespace ComponentView

/-- How an instance is put out of use. -/
inductive Retirement where
  | dismount
  | destroy
  deriving DecidableEq, Repr

/-- A way to put an instance out of use. -/
abbrev Retire := Retirement → InstanceId → Run Unit

namespace Retire

variable (retire : Retire)

/-- Returns an instance to a pool: its root leaves the document, it is dismounted, and it is the
next to be used again. -/
def giveBack (id : DefinitionId) (i : InstanceId) : Run Unit := do
  let root ← Run.rootOf i
  Run.onDocument (·.detach root)
  retire .dismount i
  Run.pushPool id i

/-- Puts an instance that a repeater has dropped out of use. -/
def drop (id : DefinitionId) (share : Bool) (i : InstanceId) : Run Unit :=
  if share then giveBack retire id i else retire .destroy i

/-- Takes instances out of the document and puts them out of use. -/
def clear (id : DefinitionId) (share : Bool) (instances : List InstanceId) : Run Unit :=
  instances.forM fun i => do
    let root ← Run.rootOf i
    Run.onDocument (·.detach root)
    drop retire id share i

/-- Puts what a repeater by position holds out of use. -/
def sequential (mode : Retirement) (r : Sequential) : Run Sequential := do
  if mode = .destroy ∨ r.share then
    clear retire r.definition r.share r.instances
    return { r with instances := [], attached := 0 }
  else
    r.instances.forM (retire .dismount)
    return r

/-- Puts what a repeater by key holds out of use. -/
def keyed (mode : Retirement) (r : Keyed) : Run Keyed := do
  if mode = .destroy ∨ r.share then
    clear retire r.definition r.share r.inOrder
    return { r with instances := r.instances.filter (·.1 ∉ r.order), order := [] }
  else
    (r.instances.map (·.2)).forM (retire .dismount)
    return r

/-- Puts what an entry of a stash holds out of use. -/
def entry (mode : Retirement) : StashItem → Run StashItem
  | .tracker t => return .tracker t
  | .child i => do
    retire mode i
    return .child i
  | .sequential r => return .sequential (← sequential retire mode r)
  | .keyed r => return .keyed (← keyed retire mode r)

/-- Puts a held instance out of use: first what it holds, in the order of its stash, then itself. -/
def inPlace (mode : Retirement) : Holding Instance Unit := do
  let i ← Holding.held
  let stash ← Holding.outside (i.stash.mapM (entry retire mode))
  if mode = .destroy then
    Holding.outside (Run.onDocument (·.release i.root))
  Holding.change fun i => { i with stash, mounted := false }

end Retire

namespace Run

/-- Puts an instance out of use, following instances in instances to a depth. -/
def retireWithin : (depth : Nat) → Retire
  | 0, _, _ => giveUp .tooDeep
  | depth + 1, mode, i => hold i (Retire.inPlace (retireWithin depth) mode)

/-- Puts an instance out of use. All instances on the way down are held, so no way down is longer
than their number: one that comes back to an instance gives up there. -/
def retire (mode : Retirement) (i : InstanceId) : Run Unit := do
  retireWithin ((← get).instances.size + 1) mode i

/-- Destroys the spare instances of a definition, the first returned first. -/
def clearPool (id : DefinitionId) : Run Unit := do
  let spare := (← get).pool id
  modify fun w => w.setPool id []
  spare.reverse.forM (retire .destroy)

end Run

end ComponentView
