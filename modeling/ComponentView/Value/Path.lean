import ComponentView.Text.Blank
import ComponentView.Value

/-! # Paths into values

A path names a place in a value by the fields and positions on the way to it. Reading a place that
is not there gives null. Writing follows the same way and makes maps where it meets null; when it
cannot go on it stops, and the maps made so far stay (`modifyAt`). -/

namespace ComponentView

/-- One step of a path. -/
inductive Segment where
  | field (name : String)
  | index (position : Nat)
  deriving DecidableEq, Repr, Inhabited

namespace Segment

/-- A text of decimal digits, with or without a plus sign, as a number. -/
def number? (cs : List Char) : Option Nat :=
  let digits := match cs with
    | '+' :: rest => rest
    | _ => cs
  if !digits.isEmpty && digits.all Char.isDigit then
    some (digits.foldl (fun n c => 10 * n + (c.toNat - '0'.toNat)) 0)
  else none

/-- A piece of a path text: a position if it is a number below 2^64, a field otherwise. -/
def ofChars (cs : List Char) : Segment :=
  match number? cs with
  | some n => if n < Nat.pow 2 64 then index n else field (String.ofList cs)
  | none => field (String.ofList cs)

/-- The text of one step. -/
def text : Segment → String
  | field name => name
  | index position => Decimal.natText position

end Segment

/-- A place in a value, from the outside in. -/
abbrev Path := List Segment

namespace Path

/-- Reads a path: its steps are the non-empty pieces between dots. -/
def parse (s : String) : Path :=
  ((Text.splitOn (· == '.') s.toList).filter fun piece => !piece.isEmpty).map Segment.ofChars

/-- The text of a path, its steps between dots. -/
def text (p : Path) : String := ".".intercalate (p.map Segment.text)

end Path

namespace Value

/-! ## Reading -/

/-- The entry of a map under a name; other values have none. -/
def field? (name : String) : Value → Option Value
  | map entries => Entries.get? name entries
  | _ => none

/-- The item of a list at a position; other values have none. -/
def item? (position : Nat) : Value → Option Value
  | list items => items[position]?
  | _ => none

/-- The part of a value that one step leads to. -/
def step? (v : Value) : Segment → Option Value
  | .field name => v.field? name
  | .index position => v.item? position

/-- The value at a path, null if a step leads nowhere. -/
def get (v : Value) : Path → Value
  | [] => v
  | s :: rest => match v.step? s with
    | some next => next.get rest
    | none => null

/-- The empty path leads to the value itself. -/
@[simp] theorem get_nil (v : Value) : v.get [] = v := rfl

/-! ## Writing -/

/-- Changes the place at a path by `f` and hands back what `f` answers. A field step turns null into
an empty map and makes a null entry where there is none; it keeps what it made even if a later step
leads nowhere, in which case there is no answer. -/
def modifyAt {α : Type} (f : Value → Value × α) : Path → Value → Value × Option α
  | [], v =>
    let (v', answer) := f v
    (v', some answer)
  | .field name :: rest, v =>
    match v with
    | null =>
      let (child, answer) := modifyAt f rest null
      (map (Entries.put name child []), answer)
    | map entries =>
      let (child, answer) := modifyAt f rest ((Entries.get? name entries).getD null)
      (map (Entries.put name child entries), answer)
    | _ => (v, none)
  | .index position :: rest, v =>
    match v with
    | list items =>
      match items[position]? with
      | some item =>
        let (item', answer) := modifyAt f rest item
        (list (items.set position item'), answer)
      | none => (v, none)
    | _ => (v, none)

/-- Writes a value at a path, and whether the place could be reached. -/
def set (v : Value) (p : Path) (new : Value) : Value × Bool :=
  let (v', reached) := modifyAt (fun _ => (new, ())) p v
  (v', reached.isSome)

/-- Writing at the empty path replaces the whole value. -/
@[simp] theorem set_nil (v new : Value) : v.set [] new = (new, true) := rfl

end Value

end ComponentView
