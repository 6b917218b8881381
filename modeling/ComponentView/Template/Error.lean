import ComponentView.Address

/-! # Errors of compilation

A component that cannot be compiled is refused with one error, which names the component, and for a
fault at a node also its address. -/

namespace ComponentView

/-- Why a component is refused. -/
inductive CompileFault where
  | duplicateRef (name : String) (address : Address)
  | unmatchedTarget (name : String) (address : Address)
  | conditionalRoot
  | invalidRoot (found : String)
  | nestedSiblings (address : Address)
  | nestedAttributes (address : Address)
  | nestedChildren (address : Address)
  | conditionalRepeat (address : Address)
  | duplicatePart (name : String) (address : Address)
  deriving DecidableEq, Repr

/-- A refused component and the reason. -/
structure CompileError where
  component : String
  fault : CompileFault
  deriving DecidableEq, Repr

namespace CompileFault

/-- The reason in words. -/
def message : CompileFault → String
  | duplicateRef name address =>
    "ref `" ++ name ++ "` is declared more than once (again at " ++ address.text ++ ")"
  | unmatchedTarget name address =>
    "toggle target `" ++ name ++ "` at " ++ address.text ++ " has no matching trigger"
  | conditionalRoot => "the component root cannot be conditionally rendered"
  | invalidRoot found => "the root must be a plain element, found " ++ found
  | nestedSiblings address =>
    "nested node at " ++ address.text ++ " has siblings; call allow_siblings() to permit them"
  | nestedAttributes address =>
    "nested node at " ++ address.text ++ " cannot carry plain attributes"
  | nestedChildren address => "nested node at " ++ address.text ++ " cannot have child nodes"
  | conditionalRepeat address =>
    "repeated node at " ++ address.text ++
      " cannot be conditionally rendered; toggle its container"
  | duplicatePart name address =>
    "part `" ++ name ++ "` is declared more than once (again at " ++ address.text ++ ")"

end CompileFault

/-- The error in words. -/
def CompileError.message (e : CompileError) : String := e.component ++ ": " ++ e.fault.message

end ComponentView
