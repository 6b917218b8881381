import ComponentView.Value

/-! # The journal

Everything that a run says beside its results goes into one journal, in the order in which it
happens: the values that user code records and the lines of the log. A computation that only speaks
is a `Traced` value; what it returns cannot depend on what was said before it. -/

namespace ComponentView

/-- How important a line of the log is. -/
inductive Level where
  | error
  | warn
  | debug
  | trace
  deriving DecidableEq, Repr, Inhabited

namespace Level

/-- The name of a level. -/
def name : Level → String
  | error => "error"
  | warn => "warn"
  | debug => "debug"
  | trace => "trace"

/-- The place of a level, the most important first. -/
def rank : Level → Nat
  | error => 1
  | warn => 2
  | debug => 4
  | trace => 5

end Level

/-- One entry of the journal. -/
inductive Entry where
  /-- A value recorded by user code. -/
  | call (value : Value)
  /-- A line of the log. -/
  | log (level : Level) (line : String)
  deriving Inhabited, Repr

namespace Entry

/-- The recorded value of an entry, if it is one. -/
def call? : Entry → Option Value
  | call value => some value
  | log _ _ => none

/-- The line of an entry, if it is one and not less important than the limit. -/
def line? (limit : Option Level) : Entry → Option (Level × String)
  | call _ => none
  | log level line => match limit with
    | some l => if level.rank ≤ l.rank then some (level, line) else none
    | none => none

end Entry

/-- A result together with what was said on the way to it. -/
structure Traced (α : Type) where
  value : α
  said : List Entry := []

namespace Traced

/-- Says one thing. -/
def say (entry : Entry) : Traced Unit := ⟨(), [entry]⟩

/-- A result with nothing said, and one computation after another. -/
instance : Monad Traced where
  pure a := ⟨a, []⟩
  bind x f :=
    let y := f x.value
    ⟨y.value, x.said ++ y.said⟩

/-- A plain result says nothing. -/
@[simp] theorem said_pure {α : Type} (a : α) : (pure a : Traced α).said = [] := rfl

/-- A plain result is its value. -/
@[simp] theorem value_pure {α : Type} (a : α) : (pure a : Traced α).value = a := rfl

/-- The value of a sequence is the value of its second part. -/
@[simp] theorem value_bind {α β : Type} (x : Traced α) (f : α → Traced β) :
    (x >>= f).value = (f x.value).value := rfl

/-- A sequence says what its parts say, in order. -/
@[simp] theorem said_bind {α β : Type} (x : Traced α) (f : α → Traced β) :
    (x >>= f).said = x.said ++ (f x.value).said := rfl

end Traced

end ComponentView
