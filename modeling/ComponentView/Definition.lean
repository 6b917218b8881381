import ComponentView.Template.Compile

/-! # Definitions

A definition gives a template a name, methods, stubs and an initial state. One definition can extend
another: it shares the template and starts from the methods, stubs and state of its base, and what
it declares itself replaces what the base declares under the same name. All definitions of a run
form a library, in which a definition only refers to earlier ones. -/

namespace ComponentView

/-- A component as it is instantiated. The tables hold its own methods and stubs together with those
of its bases. -/
structure Definition where
  name : String
  template : Template
  /-- The name of the extended definition. -/
  base : Option String := none
  methods : Methods := []
  stubs : NameTable DefinitionId := []
  initialState : Value := .null
  deriving Inhabited

namespace Definition

/-- A definition of a new component. -/
def new (name : String) (template : Template) : Definition := { name, template }

/-- A definition that starts out like its base under another name.

The methods of its base are copied into its own table at once. The table could as well be built from
the declarations of the whole chain of bases when a method is first asked for, and be kept from then
on. Nothing would show the difference: before a definition can be asked for a method it is finished,
and its bases before it, and none of them declares anything later, so a table that is kept is never
stale. -/
def extend (base : Definition) (name : String) : Definition :=
  { base with name, base := some base.name }

/-- Declares a method. -/
def declareMethod (d : Definition) (name : String) (method : Method) : Definition :=
  { d with methods := d.methods.set name method }

/-- Declares a stub. -/
def declareStub (d : Definition) (name : String) (stub : DefinitionId) : Definition :=
  { d with stubs := d.stubs.set name stub }

/-- Declares the initial state. -/
def declareState (d : Definition) (state : Value) : Definition := { d with initialState := state }

/-- Extending keeps the template. -/
@[simp] theorem template_extend (base : Definition) (name : String) :
    (base.extend name).template = base.template := rfl

/-- Extending keeps the methods of the base. -/
@[simp] theorem methods_extend (base : Definition) (name : String) :
    (base.extend name).methods = base.methods := rfl

/-- Extending keeps the stubs of the base. -/
@[simp] theorem stubs_extend (base : Definition) (name : String) :
    (base.extend name).stubs = base.stubs := rfl

end Definition

/-! ## Libraries -/

/-- All definitions of a run. -/
abbrev Library := List Definition

/-- Where the template of a definition comes from. -/
inductive Origin where
  /-- A component to compile. -/
  | root (node : Node) (options : CompileSettings)
  /-- An earlier definition to extend. -/
  | base (id : DefinitionId)
  deriving Inhabited

/-- A definition as it is declared. -/
structure Declaration where
  /-- The name under which other declarations refer to it. -/
  id : String
  name : String
  origin : Origin
  methods : List (String × Method) := []
  stubs : List (String × DefinitionId) := []
  state : Option Value := none
  deriving Inhabited

namespace Declaration

/-- The definition without what the declaration adds to it, and what the log says about it. A base
that does not exist has an empty template. -/
def start (lib : Library) (d : Declaration) : Except CompileError (Traced Definition) :=
  match d.origin with
  | .root node options => do
    let template ← Template.compile options d.name node
    return ⟨.new d.name template, [.log .debug (template.summary d.name)]⟩
  | .base id => return ⟨(lib[id]?.getD default).extend d.name, []⟩

/-- The declared definition. -/
def define (lib : Library) (d : Declaration) : Except CompileError (Traced Definition) := do
  let start ← d.start lib
  let definition := d.methods.foldl (fun c m => c.declareMethod m.1 m.2) start.value
  let definition := d.stubs.foldl (fun c s => c.declareStub s.1 s.2) definition
  let definition := match d.state with
    | some state => definition.declareState state
    | none => definition
  return ⟨definition, start.said⟩

end Declaration

/-- The library of some declarations, in order, or the first that cannot be compiled. -/
def Library.define (declarations : List Declaration) :
    Except (String × CompileError) (Traced Library) :=
  declarations.foldlM (fun lib d =>
    match d.define lib.value with
    | .ok definition => .ok ⟨lib.value ++ [definition.value], lib.said ++ definition.said⟩
    | .error e => .error (d.id, e)) ⟨[], []⟩

end ComponentView
