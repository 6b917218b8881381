import ComponentView.Definition
import Mathlib.Data.List.Induction

/-! # Libraries

A definition of a library is what its declaration defines after the definitions before it
(`Library.define_at`), whatever comes later (`Library.define_take`). Its methods and stubs are set
over those that it starts from (`Declaration.value_define`). Its template is the one that its
declaration compiles, or that of an earlier definition, so what holds of the templates that are
compiled holds of all templates of a library (`Library.templates_of_define`). -/

namespace ComponentView

/-- What is ok has a result. -/
theorem exists_of_isOk {ε α : Type} {x : Except ε α} (h : x.isOk = true) : ∃ a, x = .ok a := by
  cases x with
  | ok a => exact ⟨a, rfl⟩
  | error e => cases h

/-- What went well is what is taken of it, whatever is taken otherwise. -/
theorem eq_ok_of_isOk {ε α : Type} {x : Except ε α} (h : x.isOk = true) (a : α) :
    x = .ok (x.toOption.getD a) := by
  obtain ⟨b, rfl⟩ := exists_of_isOk h
  rfl

/-! ## What is defined -/

namespace Declaration

variable {d : Declaration} {lib : Library} {definition : Traced Definition}

/-- A component that is compiled starts with nothing but its template. -/
theorem start_root {node : Node} {options : CompileSettings} {start : Traced Definition}
    (origin : d.origin = .root node options) (h : d.start lib = .ok start) :
    ∃ t, Template.compile options d.name node = .ok t ∧ start.value = .new d.name t := by
  unfold Declaration.start at h
  rw [origin] at h
  cases compiled : Template.compile options d.name node with
  | error e => simp [compiled, bind, Except.bind] at h
  | ok t =>
    simp only [compiled] at h
    exact ⟨t, rfl, by rw [← Except.ok.inj h]⟩

/-- A definition that extends another starts as that one under its own name. -/
theorem start_base {base : DefinitionId} {start : Traced Definition} (origin : d.origin = .base base)
    (h : d.start lib = .ok start) : start.value = (lib[base]?.getD default).extend d.name := by
  unfold Declaration.start at h
  rw [origin] at h
  rw [← Except.ok.inj h]

/-- The methods, the stubs and the state of a declaration are set over those that it starts from. -/
theorem value_define (h : d.define lib = .ok definition) :
    ∃ start, d.start lib = .ok start ∧ definition.value =
      { start.value with
        methods := start.value.methods.setAll d.methods
        stubs := start.value.stubs.setAll d.stubs
        initialState := d.state.getD start.value.initialState } := by
  have methods (ms : List (String × Method)) (c : Definition) :
      ms.foldl (fun c m => c.declareMethod m.1 m.2) c
        = { c with methods := c.methods.setAll ms } := by
    induction ms generalizing c with
    | nil => rfl
    | cons m ms ih => exact ih _
  have stubs (ss : List (String × DefinitionId)) (c : Definition) :
      ss.foldl (fun c s => c.declareStub s.1 s.2) c = { c with stubs := c.stubs.setAll ss } := by
    induction ss generalizing c with
    | nil => rfl
    | cons s ss ih => exact ih _
  unfold define at h
  cases hs : d.start lib with
  | error e => rw [hs] at h; cases h
  | ok start =>
    rw [hs] at h
    obtain rfl := Except.ok.inj h
    refine ⟨start, rfl, ?_⟩
    rw [methods, stubs]
    cases d.state <;> rfl

end Declaration

namespace Library

variable {declarations : List Declaration} {library : Traced Library}

/-- The last declaration is defined over the library of those before it. -/
theorem define_concat {d : Declaration} (h : define (declarations ++ [d]) = .ok library) :
    ∃ earlier definition, define declarations = .ok earlier ∧
      d.define earlier.value = .ok definition ∧
      library.value = earlier.value ++ [definition.value] := by
  rw [define, List.foldlM_append, ← define] at h
  cases before : define declarations with
  | error e => rw [before] at h; cases h
  | ok earlier =>
    simp only [before, List.foldlM_cons, List.foldlM_nil, bind, Except.bind] at h
    cases next : d.define earlier.value with
    | error e => rw [next] at h; cases h
    | ok definition =>
      rw [next] at h
      obtain rfl := Except.ok.inj h
      exact ⟨earlier, definition, rfl, next, rfl⟩

/-- Every declaration gives one definition. -/
theorem length_of_define (h : define declarations = .ok library) :
    library.value.length = declarations.length := by
  induction declarations using List.reverseRecOn generalizing library with
  | nil => rw [← Except.ok.inj h]; rfl
  | append_singleton ds d ih =>
    obtain ⟨earlier, definition, defined, -, whole⟩ := define_concat h
    rw [whole, List.length_append, List.length_append, ih defined]
    rfl

/-- The first definitions come from the first declarations, whatever is declared after them. -/
theorem define_take (h : define declarations = .ok library) (n : Nat) :
    ∃ earlier, define (declarations.take n) = .ok earlier ∧
      earlier.value = library.value.take n := by
  induction declarations using List.reverseRecOn generalizing library with
  | nil => exact ⟨library, by rwa [List.take_nil], by rw [← Except.ok.inj h, List.take_nil]⟩
  | append_singleton ds d ih =>
    obtain ⟨earlier, definition, defined, -, whole⟩ := define_concat h
    have length := length_of_define defined
    rcases Nat.lt_or_ge ds.length n with le | le
    · refine ⟨library, ?_, (List.take_of_length_le ?_).symm⟩
      · rwa [List.take_of_length_le (by simpa [Nat.succ_le_iff] using le)]
      · rw [length_of_define h]
        simpa [Nat.succ_le_iff] using le
    · rw [whole, List.take_append_of_le_length le, List.take_append_of_le_length (length ▸ le)]
      exact ih defined

/-- A definition is what its declaration defines after the definitions before it. -/
theorem define_at (h : define declarations = .ok library) {id : DefinitionId} {d : Declaration}
    (declared : declarations[id]? = some d) : ∃ definition,
      d.define (library.value.take id) = .ok definition ∧
      library.value[id]? = some definition.value := by
  obtain ⟨upto, defined, taken⟩ := define_take h (id + 1)
  obtain ⟨earlier, before, taken'⟩ := define_take h id
  rw [List.take_add_one, declared] at defined
  obtain ⟨earlier', definition, before', next, whole⟩ := define_concat defined
  obtain rfl := Except.ok.inj (before.symm.trans before')
  refine ⟨definition, taken' ▸ next, ?_⟩
  have bound : id < declarations.length := (List.getElem?_eq_some_iff.mp declared).1
  have length : earlier.value.length = id := by
    rw [length_of_define before, List.length_take_of_le (Nat.le_of_lt bound)]
  rw [← List.getElem?_take_of_lt id.lt_succ_self, ← taken, whole, ← length]
  exact List.getElem?_concat_length

end Library

/-! ## Templates -/

/-- The component that is declared, if one is, is of a kind. -/
def Declaration.Roots (good : Node → Prop) (d : Declaration) : Prop :=
  match d.origin with
  | .root node _ => good node
  | .base _ => True

instance (good : Node → Prop) [DecidablePred good] (d : Declaration) : Decidable (d.Roots good) :=
  match h : d.origin with
  | .root node _ => decidable_of_iff (good node) (by rw [Declaration.Roots, h])
  | .base _ => isTrue (by rw [Declaration.Roots, h]; trivial)

/-- A component that is of a kind is of every wider one. -/
theorem Declaration.Roots.imp {good fine : Node → Prop} {d : Declaration} (h : d.Roots good)
    (wider : ∀ node, good node → fine node) : d.Roots fine := by
  unfold Declaration.Roots at h ⊢
  split at h
  · exact wider _ h
  · trivial

section Templates

variable {P : Template → Prop} {good : Node → Prop} (empty : P (default : Definition).template)
  (compiled : ∀ {options name node t}, Template.compile options name node = .ok t → good node → P t)

include empty compiled

/-- The template of a declared definition is compiled, that of an earlier definition, or empty. -/
theorem Declaration.template_of_define {lib : Library}
    (earlier : ∀ (id : DefinitionId) (d : Definition), lib[id]? = some d → P d.template)
    {d : Declaration} (roots : d.Roots good) {definition : Traced Definition}
    (h : d.define lib = .ok definition) : P definition.value.template := by
  obtain ⟨start, hs, whole⟩ := value_define h
  rw [whole]
  show P start.value.template
  unfold Roots at roots
  split at roots
  · next node options origin =>
    obtain ⟨t, ok, template⟩ := start_root origin hs
    rw [template]
    exact compiled ok roots
  · next base origin =>
    rw [start_base origin hs, Definition.template_extend]
    cases known : lib[base]? with
    | none => exact empty
    | some c => exact earlier base c known

/-- What holds of the templates that are compiled holds of those of a library. -/
theorem Library.templates_of_define {declarations : List Declaration} {library : Traced Library}
    (h : define declarations = .ok library) (roots : ∀ d ∈ declarations, d.Roots good)
    {id : DefinitionId} {d : Definition} (hd : library.value[id]? = some d) : P d.template := by
  induction id using Nat.strongRecOn generalizing d with
  | ind id ih =>
    have bound : id < declarations.length := by
      rw [← length_of_define h]
      exact (List.getElem?_eq_some_iff.mp hd).1
    obtain ⟨definition, defined, there⟩ := define_at h (List.getElem?_eq_getElem bound)
    obtain rfl := Option.some.inj (hd.symm.trans there)
    refine Declaration.template_of_define empty compiled (fun base c hc => ?_)
      (roots _ (List.getElem_mem bound)) defined
    rw [List.getElem?_take] at hc
    split at hc
    · next before => exact ih base before hc
    · cases hc

end Templates

end ComponentView
