import ComponentView.Text.Quoted
import ComponentView.Value.Path

/-! # Item keys

A repeated item is told apart from the others by a key read from it. Booleans, integers and texts
make keys; the other kinds of value do not, so two keys are the same exactly when their values are
(`ItemKey.toValue`). -/

namespace ComponentView

/-- The key of a repeated item. -/
inductive ItemKey where
  | bool (b : Bool)
  | int (n : Int64)
  | str (s : String)
  deriving DecidableEq, Repr

namespace ItemKey

/-- The key that a value makes. -/
def ofValue? : Value → Option ItemKey
  | .bool b => some (bool b)
  | .int n => some (int n)
  | .str s => some (str s)
  | _ => none

/-- The value that makes a key. -/
def toValue : ItemKey → Value
  | bool b => .bool b
  | int n => .int n
  | str s => .str s

/-- A value makes a key exactly when it is the value of that key. -/
theorem ofValue?_eq_some_iff {v : Value} {k : ItemKey} : ofValue? v = some k ↔ v = k.toValue := by
  constructor
  · intro h
    cases v <;> simp [ofValue?] at h <;> subst h <;> rfl
  · rintro rfl
    cases k <;> rfl

/-- The name of the kind of a key. -/
def kindName : ItemKey → String
  | bool _ => "bool"
  | int _ => "int"
  | str _ => "str"

/-- A key as it stands in messages: texts are quoted, so that a number and a text differ. -/
def text : ItemKey → String
  | bool true => "true"
  | bool false => "false"
  | int n => Decimal.intText n.toInt
  | str s => Text.quoted s

end ItemKey

end ComponentView
