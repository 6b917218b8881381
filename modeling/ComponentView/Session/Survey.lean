import ComponentView.Engine.Nested

/-! # Surveys of a stash

A survey makes a stash entry by entry and asks what is under its keys. The nested children and the
repeaters of the stash are rows, bare list items. The keys come from a component that has nothing
but trackers, so that every key from zero to fifteen is handed out. -/

namespace ComponentView

namespace Survey

/-- A question to a stash. -/
inductive Query where
  /-- The entry under a key, expected to be of a kind. -/
  | entry (kind : StashKind) (key : StashIndex)
  /-- The node that stands first in the container of the repeater under a key. -/
  | head (key : StashIndex)
  deriving Repr

/-- An answer to a question. -/
inductive Answer where
  | tracker
  | child (root : NodeId)
  | length (n : Nat)
  | head (root : Option NodeId)
  deriving Repr

/-- The result of a survey. -/
structure Result where
  length : Nat
  answers : List (Except Fault Answer)
  journal : List Entry

/-- The definition of rows. -/
def row : Declaration where
  id := "row"
  name := "row"
  origin := .root { head := { kind := .element "li" } } {}

/-- The definition that hands out keys: sixteen boxes, each with an item that can leave it. -/
def keys : Declaration where
  id := "keys"
  name := "keys"
  origin := .root { head := { kind := .element "div" }, children := List.replicate 16 box } {}
where
  /-- A box whose item is in it while the props count as true. -/
  box : Node :=
    { head := { kind := .element "div" }, children :=
      [{ head := { kind := .element "i", visibility := some ⟨.props, false, .detach⟩ } }] }

/-- An entry of a kind. -/
def entry (engine : Engine) : StashKind → Run StashItem
  | .tracker => return .tracker {}
  | .child => return .child (← Run.construct engine 0 .null none)
  | .sequential => return .sequential { definition := 0, share := true }
  | .keyed => return .keyed { definition := 0, key := [.field "id"], share := true }

/-- The answer to a question. -/
def answer (component : String) (stash : List StashItem) : Query → Run Answer
  | .entry .tracker key => do
    let _ ← Run.fetch component stash key .tracker StashItem.tracker?
    return .tracker
  | .entry .child key => do
    return .child (← Run.rootOf (← Run.fetch component stash key .child StashItem.child?))
  | .entry .sequential key => do
    return .length (← Run.fetch component stash key .sequential StashItem.sequential?).attached
  | .entry .keyed key => do
    return .length (← Run.fetch component stash key .keyed StashItem.keyed?).order.length
  | .head key => do
    return .head (← (stash[key]?.bind StashItem.head?).mapM Run.rootOf)

/-- Compiles a definition for a survey. -/
def compile (lib : Library) (d : Declaration) : Run Library :=
  match d.define lib with
  | .ok definition => return lib ++ [← Run.traced definition]
  | .error _ => return lib

/-- Makes a stash for a component and asks questions about it. -/
def run (component : String) (kinds : List StashKind) (queries : List Query) : Run Result := do
  let lib ← compile [] row
  let stash ← kinds.mapM (entry (.ofLibrary lib))
  let _ ← compile lib keys
  let answers ← queries.mapM fun q => Run.attempt (answer component stash q)
  return ⟨stash.length, answers, (← get).journal⟩

end Survey

/-- The result of a survey of a new stash, or why it was given up. -/
def Survey.result (component : String) (kinds : List StashKind) (queries : List Query) :
    Except Stop Result :=
  match run component kinds queries (World.empty 1) with
  | .ok r _ => .ok r
  | .error stop _ => .error stop

end ComponentView
