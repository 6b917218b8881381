import ComponentView.Node

/-! # Faults of a run

A run of an instance can fail in seven ways, each with its message. A fault ends the pass in which
it arises; what the pass has done so far stays. -/

namespace ComponentView

/-- What an entry of a stash holds. -/
inductive StashKind where
  | tracker
  | child
  | sequential
  | keyed
  deriving DecidableEq, Repr

/-- A kind of stash entry in words. -/
def StashKind.text : StashKind → String
  | tracker => "an offset tracker"
  | child => "a nested child"
  | sequential => "a sequential repeater"
  | keyed => "a keyed repeater"

/-- Why a run fails. -/
inductive Fault where
  /-- An entry of the stash is not of the kind that is asked for. -/
  | stashMismatch (component : String) (key : StashIndex) (expected : StashKind)
  /-- A slot leads nowhere in the fresh copy of the markup. -/
  | missingElement (component : String) (slot : Nat)
  /-- The items of a repeat are not a list. -/
  | notAList (found : String)
  /-- An item has no key. -/
  | invalidKey (path : Path) (found : String)
  /-- No definition goes by the name of a stub. -/
  | unknownStub (component name : String)
  /-- No part goes by a name. -/
  | unknownPart (component name : String)
  /-- User code gave up. -/
  | effect (message : String)
  deriving DecidableEq, Repr

/-- A fault in words. -/
def Fault.message : Fault → String
  | stashMismatch component key expected =>
    component ++ ": stash slot " ++ Decimal.natText key ++ " does not hold " ++ expected.text
  | missingElement component slot =>
    component ++ ": element slot " ++ Decimal.natText slot
      ++ " is missing from the instantiated markup"
  | notAList found => "repeat items must be a list, found " ++ found
  | invalidKey path found =>
    "repeat key `" ++ path.text ++ "` must be a bool, int or string, found " ++ found
  | unknownStub component name =>
    component ++ ": no stub named `" ++ name ++ "` in the method table"
  | unknownPart component name => component ++ ": no part named `" ++ name ++ "`"
  | effect message => "effect failed: " ++ message

end ComponentView
