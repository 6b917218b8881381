import ComponentView.Outline
import ComponentView.Template.Error

/-! # What can be compiled

A component is compiled only if its root is a plain, always visible element and every node of its
outline respects the limits of its directives. Of several faults the first in the outline is
reported, and of several at one node the first in the order of `Outline.checkEntry`. -/

namespace ComponentView

/-- Refuses a root that is not a plain, always visible element. -/
def Node.checkRoot (root : Node) : Except CompileFault Unit :=
  if root.head.visibility.isSome then .error .conditionalRoot
  else if !root.head.isElement then .error (.invalidRoot "a text node")
  else if root.head.isRepeated then .error (.invalidRoot "a repeated component")
  else if root.head.nested.isSome then .error (.invalidRoot "a nested component")
  else if root.head.stub.isSome then .error (.invalidRoot "a stub")
  else .ok ()

namespace Outline

/-- The faults that a node can have by itself, given the entries before it and its number of
siblings; each condition comes with what it reports. -/
def faults (earlier : List OutlineEntry) (siblings : Nat) (e : OutlineEntry) :
    List (Bool × CompileFault) :=
  let head := e.node.head
  let taken (name : Option String) (used : NodeHead → Option String) : Bool :=
    name.isSome && earlier.any fun other => used other.node.head = name
  [ (taken head.reference (·.reference), .duplicateRef (head.reference.getD "") e.address),
    (taken head.part (·.part), .duplicatePart (head.part.getD "") e.address) ]
  ++ head.targets.map (fun target =>
    (!head.toggles.any (·.name = target.name), .unmatchedTarget target.name e.address))
  ++ [
    (head.nested.any (fun n => !n.allowSiblings) && 1 < siblings, .nestedSiblings e.address),
    (head.isRepeated && head.visibility.isSome, .conditionalRepeat e.address),
    (head.isComponent && !head.attributes.isEmpty, .nestedAttributes e.address),
    (head.isComponent && !e.node.children.isEmpty, .nestedChildren e.address) ]

/-- Refuses an entry with its first fault. -/
def checkEntry (o : Outline) (index : Nat) (e : OutlineEntry) : Except CompileFault Unit :=
  match (faults (o.take index) (o.elementSiblings e) e).find? (·.1) with
  | some (_, fault) => .error fault
  | none => .ok ()

/-- Refuses an outline with the first fault of its first faulty entry. -/
def check (o : Outline) : Except CompileFault Unit :=
  o.zipIdx.forM fun (e, index) => o.checkEntry index e

end Outline

end ComponentView
