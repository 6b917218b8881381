import ComponentView.Expr
import ComponentView.Journal
import ComponentView.NameTable

/-! # Evaluation of expressions

An expression is evaluated in a scope: the props and the state of an instance, the controller it was
rendered with and the methods of its definition. Evaluation changes nothing; it may record values
and write log lines, and its result does not depend on them.

Methods call each other by name. The body of a method cannot see its arguments except to pass them
on, so a chain of calls that meets a method twice never ends; `Scope.call` follows chains that visit
each method once and one unknown name, which are all the chains that end. -/

namespace ComponentView

/-- The object handed down from the caller of a render, known only by its name. -/
abbrev Controller := Option String

/-- The body of a method. -/
inductive Method where
  | const (value : Value)
  | argument (position : Nat)
  | arguments
  | expr (body : Expr)
  | forward (method : String)
  | controller
  | record (tag : Value) (body : Method)
  deriving Inhabited, Repr

/-- The methods of a definition by name. -/
abbrev Methods := NameTable Method

/-- What expressions can see of an instance. -/
structure Scope where
  props : Value
  state : Value
  controller : Controller
  methods : Methods
  deriving Inhabited

/-- The meaning of calls inside expressions. -/
abbrev Calls := String → List Value → Traced Value

/-- A controller as a value. -/
def Controller.toValue : Controller → Value
  | some name => .str name
  | none => .null

namespace Expr

mutual
/-- The value of an expression, where `call` answers the calls of methods. The operands of `and`,
`or` and `cond` are evaluated only as far as they are needed. -/
def evalWith (call : Calls) (scope : Scope) : Expr → Traced Value
  | literal value => pure value.toValue
  | prop path => pure (scope.props.get path)
  | state path => pure (scope.state.get path)
  | not a => do
    let v ← evalWith call scope a
    return .bool (!v.isTruthy)
  | equals a b => do
    let v ← evalWith call scope a
    let w ← evalWith call scope b
    return .bool (v == w)
  | lessThan a b => do
    let v ← evalWith call scope a
    let w ← evalWith call scope b
    return .bool (v.lessThan w)
  | and a b => do
    let v ← evalWith call scope a
    if v.isTruthy then evalWith call scope b else return v
  | or a b => do
    let v ← evalWith call scope a
    if v.isTruthy then return v else evalWith call scope b
  | len a => do
    let v ← evalWith call scope a
    return .int (Int64.ofNat v.length)
  | concat parts => do
    let vs ← evalAll call scope parts
    return .str (String.join (vs.map Value.text))
  | cond test yes no => do
    let v ← evalWith call scope test
    if v.isTruthy then evalWith call scope yes else evalWith call scope no
  | .call method arguments => do
    let vs ← evalAll call scope arguments
    call method vs

/-- The values of some expressions, from the first to the last. -/
def evalAll (call : Calls) (scope : Scope) : List Expr → Traced (List Value)
  | [] => pure []
  | e :: rest => do
    let v ← evalWith call scope e
    let vs ← evalAll call scope rest
    return v :: vs
end

end Expr

/-- The result of a method for some arguments. -/
def Method.run (call : Calls) (scope : Scope) (args : List Value) : Method → Traced Value
  | const value => pure value
  | argument position => pure (args[position]?.getD .null)
  | arguments => pure (.list args)
  | expr body => body.evalWith call scope
  | forward method => call method args
  | controller => pure scope.controller.toValue
  | record tag body => do
    let v ← body.run call scope args
    Traced.say (.call (.list [tag, v]))
    return v

namespace Scope

/-- The result of a call that may go `depth` calls deep. An unknown name is noted and gives null. -/
def callWithin (scope : Scope) : (depth : Nat) → Calls
  | 0, _, _ => pure .null
  | depth + 1, name, args =>
    match NameTable.get? name scope.methods with
    | some method => method.run (scope.callWithin depth) scope args
    | none => do
      Traced.say (.log .debug ("call to unknown method `" ++ name ++ "`"))
      return .null

/-- The result of a call by name. -/
def call (scope : Scope) : Calls := scope.callWithin (scope.methods.length + 1)

end Scope

/-- The value of an expression in a scope. -/
def Expr.eval (scope : Scope) (e : Expr) : Traced Value := e.evalWith scope.call scope

end ComponentView
