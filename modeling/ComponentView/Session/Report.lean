import ComponentView.Session.Perform

/-! # Reports

After every step a session reports: the reply, or the obstacle in its place; how much the document
has changed so far; how full the pools are; the written form of every named node and instance whose
form is not what it was; and what was said. A run that is given up ends the session. -/

namespace ComponentView

/-- Why a step has no reply, if the session goes on. -/
inductive Refusal where
  | fault (cause : Fault)
  | noNode
  deriving DecidableEq, Repr

namespace Refusal

/-- A refusal in words. -/
def message : Refusal → String
  | fault cause => cause.message
  | noNode => "the node reference resolves to nothing"

end Refusal

/-- Why a session ends early. -/
inductive Breakdown where
  | unknownName (name : String)
  | abort (cause : Abort)
  deriving DecidableEq, Repr

/-- What is reported after a step. -/
structure Report where
  outcome : Except Refusal Reply
  tally : Tally
  live : Nat
  /-- The number of spare instances of every definition. -/
  pools : List Nat
  /-- The written forms that are new or have changed, by name. -/
  html : NameTable String
  journal : List Entry

namespace Report

/-- The values that were recorded during the step. -/
def calls (r : Report) : List Value := r.journal.filterMap Entry.call?

/-- The lines of the log that are not less important than a limit. -/
def lines (r : Report) (limit : Option Level) : List (Level × String) :=
  r.journal.filterMap (Entry.line? limit)

end Report

namespace Session

/-- The written form of every named node and instance. -/
def forms (s : Session) : NameTable String :=
  let d := s.world.document
  s.nodes.map (fun entry => (entry.1, d.html entry.2))
    ++ s.instances.map fun entry =>
      (entry.1, s.world.instances[entry.2]?.elim "" fun inst => d.html inst.root)

/-- The entries of a table that another table does not have. -/
def changedForms (before now : NameTable String) : NameTable String :=
  now.filter fun entry => before.get? entry.1 ≠ some entry.2

/-- The report after a step, and the session with an empty journal. -/
def report (before : NameTable String) (outcome : Except Refusal Reply) (s : Session) :
    Report × Session :=
  let w := s.world
  ({ outcome
     tally := w.document.tally
     live := w.document.liveCount
     pools := w.pools.toList.map List.length
     html := changedForms before s.forms
     journal := w.journal },
    { s with world := { w with journal := [] } })

/-- Carries out a step and reports. -/
def step (s : Session) (step : Step) : Except Breakdown (Report × Session) :=
  let before := s.forms
  match step.perform s.engine s.keepNamed with
  | .ok reply after => .ok (after.report before (.ok reply))
  | .error (.fault cause) after => .ok (after.report before (.error (.fault cause)))
  | .error .noNode after => .ok (after.report before (.error .noNode))
  | .error (.unknownName name) _ => .error (.unknownName name)
  | .error (.abort cause) _ => .error (.abort cause)

/-- Carries out steps in order and reports after each. -/
def run (s : Session) : List Step → Except Breakdown (List Report)
  | [] => .ok []
  | first :: rest => do
    let (report, s) ← s.step first
    return report :: (← s.run rest)

end Session

end ComponentView
