import ComponentView.Instance.Build
import ComponentView.Proofs.Calls
import ComponentView.Proofs.Libraries

/-! # Inheritance

A definition that extends another goes back, from one base to the next, to a component that is
compiled (`Declaration.Chain`). Each link of this chain starts from the tables of its base and sets
its own methods and stubs over them, so the tables of the last link hold for each name what the most
derived link that declares it declares last (`Declaration.resolve`, `Declaration.Chain.inherits`).
`Definition.resolves_of_chain` says what the instances of the last link make of that: which methods
their calls run, and which definitions the children are built from that fill their stubs. -/

namespace ComponentView

/-! ## Chains of declarations -/

namespace Declaration

/-- The declarations that a definition goes back to, the most derived first: its own, that of the
definition it extends, and so on down to the one whose component is compiled. -/
inductive Chain (declarations : List Declaration) : DefinitionId → List Declaration → Prop
  | root {id : DefinitionId} {d : Declaration} {node : Node} {options : CompileSettings}
      (declared : declarations[id]? = some d) (origin : d.origin = .root node options) :
      Chain declarations id [d]
  | link {id base : DefinitionId} {d : Declaration} {links : List Declaration}
      (declared : declarations[id]? = some d) (origin : d.origin = .base base)
      (earlier : base < id) (below : Chain declarations base links) :
      Chain declarations id (d :: links)

section Resolve

variable {α : Type} (declared : Declaration → List (String × α)) {links : List Declaration}
  {name : String}

/-- What a name stands for in a chain: what the most derived link that declares it declares last. -/
def resolve (links : List Declaration) (name : String) : Option α :=
  links.findSome? fun link => (declared link).reverse.lookup name

/-- A name is resolved by the latest declaration, or by those before it. -/
theorem resolve_cons (d : Declaration) : resolve declared (d :: links) name
    = ((declared d).reverse.lookup name).or (resolve declared links name) := by
  rw [resolve, List.findSome?_cons]
  cases (declared d).reverse.lookup name <;> rfl

/-- A name stands for nothing if no link declares it. -/
theorem resolve_eq_none_iff : resolve declared links name = none ↔
    ∀ link ∈ links, name ∉ (declared link).map Prod.fst := by
  rw [resolve, List.findSome?_eq_none_iff]
  refine forall₂_congr fun link _ => ?_
  rw [List.lookup_eq_none_iff, List.mem_map]
  constructor
  · rintro unlike ⟨entry, he, rfl⟩
    simpa using unlike entry (List.mem_reverse.mpr he)
  · intro missing entry he
    have other : name ≠ entry.1 := fun same => missing ⟨entry, List.mem_reverse.mp he, same.symm⟩
    simpa using other

end Resolve

end Declaration

/-! ## What a definition inherits -/

/-- The definition has the name of the last link of a chain and the template that its root compiles,
and its tables give each name what it stands for in the chain. -/
structure Definition.Inherits (links : List Declaration) (d : Definition) : Prop where
  name : links.head?.map Declaration.name = some d.name
  template : ∃ root node options, links.getLast? = some root ∧
    root.origin = .root node options ∧ Template.compile options root.name node = .ok d.template
  methods : ∀ name, d.methods.get? name = Declaration.resolve Declaration.methods links name
  stubs : ∀ name, d.stubs.get? name = Declaration.resolve Declaration.stubs links name

section Inherits

variable {declarations links : List Declaration} {library : Traced Library} {id : DefinitionId}

/-- A definition that is extended passes on what it inherits, with the new link before it. -/
theorem Definition.Inherits.extend {base : Definition} (h : base.Inherits links) (d : Declaration)
    (state : Value) :
    Inherits (d :: links)
      { base.extend d.name with
        methods := base.methods.setAll d.methods
        stubs := base.stubs.setAll d.stubs
        initialState := state } where
  name := rfl
  template := by
    obtain ⟨root, node, options, last, compiled⟩ := h.template
    exact ⟨root, node, options, by rw [List.getLast?_cons, last]; rfl, compiled⟩
  methods n := by rw [NameTable.get?_setAll, h.methods, Declaration.resolve_cons]
  stubs n := by rw [NameTable.get?_setAll, h.stubs, Declaration.resolve_cons]

/-- The last link of a chain inherits from all of it. -/
theorem Declaration.Chain.inherits (chain : Chain declarations id links)
    (defined : Library.define declarations = .ok library) :
    ∃ d, library.value[id]? = some d ∧ d.Inherits links := by
  induction chain with
  | @root id d node options declared origin =>
    obtain ⟨definition, own, there⟩ := Library.define_at defined declared
    obtain ⟨start, starts, whole⟩ := value_define own
    obtain ⟨t, compiled, starts⟩ := start_root origin starts
    rw [whole, starts] at there
    refine ⟨_, there, rfl, ⟨d, node, options, rfl, origin, compiled⟩, fun n => ?_, fun n => ?_⟩
    · rw [resolve_cons]
      exact NameTable.get?_setAll n d.methods []
    · rw [resolve_cons]
      exact NameTable.get?_setAll n d.stubs []
  | link declared origin earlier below ih =>
    obtain ⟨base, known, inherits⟩ := ih
    obtain ⟨definition, own, there⟩ := Library.define_at defined declared
    obtain ⟨start, starts, whole⟩ := value_define own
    rw [whole, start_base origin starts, List.getElem?_take_of_lt earlier, known] at there
    exact ⟨_, there, inherits.extend _ _⟩

end Inherits

/-! ## What its instances resolve -/

namespace Definition

variable {declarations links : List Declaration} {library : Traced Library} {id : DefinitionId}

/-- Instances of the definition resolve names along a chain. -/
structure Resolves (links : List Declaration) (d : Definition) : Prop where
  /-- A call in the scope of an instance, however deep, runs the method that its name stands for. -/
  calls : ∀ engine inst depth,
    let scope := (Setting.ofInstance engine d inst).scope
    scope.callWithin (depth + 1)
      = scope.answer (Declaration.resolve Declaration.methods links) (scope.callWithin depth)
  /-- An expression whose calls end has the value that it has if each call runs the method that its
  name stands for. -/
  values : ∀ engine inst (e : Expr),
    let scope := (Setting.ofInstance engine d inst).scope
    (∀ n ∈ e.callNames scope.call scope, scope.Ends n) →
      e.eval scope
        = e.evalWith (scope.answer (Declaration.resolve Declaration.methods links) scope.call) scope
  /-- A call of a name that no link declares gives null. -/
  missing : ∀ engine inst name, (∀ link ∈ links, name ∉ link.methods.map Prod.fst) →
    ∀ args, ((Setting.ofInstance engine d inst).scope.call name args).value = .null
  /-- A child that fills a stub is built from the definition that the stub's name stands for. -/
  children : ∀ build elements slot name startsDetached,
    Build.entry build d elements (.child slot (.stub name) startsDetached)
      = match Declaration.resolve Declaration.stubs links name with
        | some child =>
          Build.entry build d elements (.child slot (.definition child) startsDetached)
        | none => Run.fail (.unknownStub d.name name)
  /-- The name of a stub is refused exactly if no link declares it. -/
  unknown : ∀ name w,
    Build.sourceOf d (.stub name) w = .error (.fault (.unknownStub d.name name)) w ↔
      ∀ link ∈ links, name ∉ link.stubs.map Prod.fst

/-- A definition that inherits from its links resolves as they do. -/
theorem Inherits.resolves {d : Definition} (h : d.Inherits links) : d.Resolves links := by
  have methods (engine : Engine) (inst : Instance) :
      ((Setting.ofInstance engine d inst).scope.methods.get? ·)
        = Declaration.resolve Declaration.methods links := funext h.methods
  refine ⟨fun engine inst depth => ?calls, fun engine inst e => ?values,
    fun engine inst name undeclared args => ?missing,
    fun build elements slot name startsDetached => ?children, fun name w => ?unknown⟩
  case calls =>
    rw [← methods engine inst]
    exact Scope.callWithin_succ _ depth
  case values =>
    rw [← methods engine inst]
    exact Scope.eval_eq
  case missing =>
    have none := (h.methods name).trans ((Declaration.resolve_eq_none_iff _).mpr undeclared)
    rw [Scope.call, Scope.callWithin_succ]
    exact Scope.value_answer_of_none none _ args
  case children =>
    rw [Build.entry, Build.sourceOf, h.stubs]
    cases Declaration.resolve Declaration.stubs links name <;> rfl
  case unknown =>
    rw [← Declaration.resolve_eq_none_iff Declaration.stubs, ← h.stubs, Build.sourceOf]
    cases d.stubs.get? name with
    | none => exact iff_of_true rfl rfl
    | some child => exact iff_of_false (fun h => by cases h) (fun h => by cases h)

/-- The definition at the end of a chain has the template of the root, and its instances resolve
names along the chain. What is declared after it changes nothing of that. -/
theorem resolves_of_chain (defined : Library.define declarations = .ok library)
    (chain : Declaration.Chain declarations id links) :
    ∃ d, library.value[id]? = some d ∧ d.Inherits links ∧ d.Resolves links ∧
      ∀ others later, Library.define others = .ok later →
        others.take (id + 1) = declarations.take (id + 1) → later.value[id]? = some d := by
  obtain ⟨d, known, inherits⟩ := chain.inherits defined
  refine ⟨d, known, inherits, inherits.resolves, fun others later again same => ?_⟩
  obtain ⟨upto, taken, first⟩ := Library.define_take defined (id + 1)
  obtain ⟨_, taken', first'⟩ := Library.define_take again (id + 1)
  rw [same] at taken'
  obtain rfl := Except.ok.inj (taken.symm.trans taken')
  rw [← known, ← List.getElem?_take_of_lt id.lt_succ_self, ← first', first,
    List.getElem?_take_of_lt id.lt_succ_self]

/-! A task shows a mark. Tasks that are done have another label, and failed ones, which are done
too, have another mark. -/

/-- A mark, which is one empty element. -/
def markDeclaration (name element : String) : Declaration where
  id := name
  name := name
  origin := .root ⟨{ kind := .element element }, []⟩ {}

/-- A task has a title, which is its label, and a place for a mark. -/
def taskDeclaration : Declaration where
  id := "task"
  name := "task"
  origin := .root ⟨{ kind := .element "div" }, [
    ⟨{ kind := .element "p", stub := some ⟨"mark", .props⟩ }, []⟩]⟩ {}
  methods := [("label", .const (.str "open")), ("title", .forward "label")]
  stubs := [("mark", 0)]

/-- A task that is done has its own label. -/
def doneDeclaration : Declaration where
  id := "done"
  name := "done"
  origin := .base 2
  methods := [("label", .const (.str "closed")), ("label", .const (.str "done"))]

/-- A task that has failed has its own mark, and a method of that name. -/
def failedDeclaration : Declaration where
  id := "failed"
  name := "failed"
  origin := .base 3
  methods := [("mark", .const .null)]
  stubs := [("mark", 0), ("mark", 1)]

def taskDeclarations : List Declaration :=
  [markDeclaration "tick" "b", markDeclaration "cross" "i", taskDeclaration, doneDeclaration,
    failedDeclaration]

/-- The library of tasks. -/
def taskLibrary : Traced Library := (Library.define taskDeclarations).toOption.getD ⟨[], []⟩

/-- The title of a task. -/
def title : Expr := .call "title" []

/-- A failed task is titled done and marked with a cross, and has no place for a sign. A task is
marked with a tick, whatever is declared after it. -/
theorem resolves_of_tasks :
    Library.define taskDeclarations = .ok taskLibrary ∧
      ∃ d, taskLibrary.value[4]? = some d ∧
        (∀ engine inst, (title.eval (Setting.ofInstance engine d inst).scope).value = .str "done") ∧
        (∀ build elements, Build.entry build d elements (.child 1 (.stub "mark") false)
          = Build.entry build d elements (.child 1 (.definition 1) false)) ∧
        (∀ w, Build.sourceOf d (.stub "sign") w
          = .error (.fault (.unknownStub "failed" "sign")) w) ∧
        ∀ more later, Library.define (taskDeclarations.take 3 ++ more) = .ok later →
          ∃ task, later.value[2]? = some task ∧ task.stubs.get? "mark" = some 0 := by
  have defined : Library.define taskDeclarations = .ok taskLibrary :=
    eq_ok_of_isOk (by decide +kernel) _
  have task : Declaration.Chain taskDeclarations 2 [taskDeclaration] := .root rfl rfl
  have failed : Declaration.Chain taskDeclarations 4
      [failedDeclaration, doneDeclaration, taskDeclaration] :=
    .link rfl rfl (by decide) (.link rfl rfl (by decide) task)
  obtain ⟨d, known, inherits, resolves, -⟩ := resolves_of_chain defined failed
  obtain ⟨base, -, inherits', -, same⟩ := resolves_of_chain defined task
  have label : d.methods.get? "label" = some (.const (.str "done")) := inherits.methods "label"
  have forward : d.methods.get? "title" = some (.forward "label") := inherits.methods "title"
  refine ⟨defined, d, known, fun engine inst => ?titled,
    fun build elements => resolves.children .., fun w => ?refused,
    fun more later again => ⟨base, same _ later again rfl, inherits'.stubs "mark"⟩⟩
  case titled =>
    have label_ends : (Setting.ofInstance engine d inst).scope.Ends "label" := by
      refine ⟨fun method found n hn => ?_⟩
      obtain rfl := Option.some.inj (label.symm.trans found)
      cases hn
    have title_ends : (Setting.ofInstance engine d inst).scope.Ends "title" := by
      refine ⟨fun method found n hn => ?_⟩
      obtain rfl := Option.some.inj (forward.symm.trans found)
      exact List.mem_singleton.mp hn ▸ label_ends
    rw [resolves.values engine inst title fun n hn => List.mem_singleton.mp hn ▸ title_ends]
    show ((Setting.ofInstance engine d inst).scope.call "label" []).value = .str "done"
    rw [label_ends.call_eq, Scope.answer_of_some label]
    rfl
  case refused =>
    have refused := (resolves.unknown "sign" w).mpr (by decide)
    rwa [← Option.some.inj inherits.name] at refused

end Definition

end ComponentView
