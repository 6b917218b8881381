import ComponentView.Decimal.Shortest

/-! # Values

Props, state, watched expressions and event payloads are values: null, booleans, 64-bit integers,
floating point numbers, texts, lists and maps. This module holds the type and what the engine asks
of a value: whether it counts as true, its text, its length, and whether two values are equal.
Equality compares an integer with a floating point number as numbers and treats a value that is not
a number as equal to itself. -/

namespace ComponentView

/-- A dynamic value. The entries of a map are kept in the order of their names. -/
inductive Value where
  | null
  | bool (b : Bool)
  | int (n : Int64)
  | float (x : Binary64)
  | str (s : String)
  | list (items : List Value)
  | map (entries : List (String × Value))
  deriving Inhabited, Repr

/-! ## Entries of a map -/

/-- The entries of a map. -/
abbrev Entries := List (String × Value)

namespace Entries

/-- The value stored under a name. -/
def get? (name : String) : Entries → Option Value
  | [] => none
  | (key, value) :: rest => if name = key then some value else get? name rest

/-- Stores a value under a name: in place of the old one, or else before the first later name. -/
def put (name : String) (value : Value) : Entries → Entries
  | [] => [(name, value)]
  | (key, old) :: rest =>
    if name = key then (name, value) :: rest
    else if name < key then (name, value) :: (key, old) :: rest
    else (key, old) :: put name value rest

/-- The value just stored is the one found. -/
@[simp] theorem get?_put_self (name : String) (value : Value) (entries : Entries) :
    (entries.put name value).get? name = some value := by
  induction entries with
  | nil => simp [put, get?]
  | cons e rest ih =>
    obtain ⟨key, old⟩ := e
    unfold put
    split
    · simp [get?]
    · split
      · simp [get?]
      · simp [get?, *]

/-- Storing under one name leaves the others as they are. -/
theorem get?_put_of_ne {name other : String} (h : other ≠ name) (value : Value)
    (entries : Entries) : (entries.put name value).get? other = entries.get? other := by
  induction entries with
  | nil => simp [put, get?, h]
  | cons e rest ih =>
    obtain ⟨key, old⟩ := e
    unfold put
    split
    · next he => subst he; simp [get?, h]
    · split
      · simp [get?, h]
      · simp [get?, ih]

/-- Storing twice under one name is storing the second value. -/
theorem put_put (name : String) (first second : Value) (entries : Entries) :
    (entries.put name first).put name second = entries.put name second := by
  induction entries with
  | nil => simp [put]
  | cons e rest ih =>
    obtain ⟨key, old⟩ := e
    by_cases he : name = key
    · simp [put, he]
    · by_cases hl : name < key
      · simp [put, he, hl]
      · simp [put, he, hl, ih]

end Entries

namespace Value

/-! ## Kinds -/

/-- The name of the kind of a value. -/
def kindName : Value → String
  | null => "null"
  | bool _ => "bool"
  | int _ => "int"
  | float _ => "float"
  | str _ => "string"
  | list _ => "list"
  | map _ => "map"

/-- Whether the value is null. -/
def isNull : Value → Bool
  | null => true
  | _ => false

/-- The integer, if the value is one. -/
def asInt? : Value → Option Int64
  | int n => some n
  | _ => none

/-- The text, if the value is one. -/
def asText? : Value → Option String
  | str s => some s
  | _ => none

/-- The items, if the value is a list. -/
def asList? : Value → Option (List Value)
  | list items => some items
  | _ => none

/-- Whether the value counts as true. Null, false, the zeros, what is not a number and the empty
text do not; every list and map does. -/
def isTruthy : Value → Bool
  | null => false
  | bool b => b
  | int n => n ≠ 0
  | float x => !x.isZero && !x.isNaN
  | str s => !s.isEmpty
  | list _ => true
  | map _ => true

/-- The number of characters of a text, of items of a list or of entries of a map; zero for the
other kinds. -/
def length : Value → Nat
  | str s => s.length
  | list items => items.length
  | map entries => entries.length
  | _ => 0

/-! ## Text -/

mutual
/-- The text of a value: nothing for null, the items of a list between commas, and a fixed text for
a map. -/
def text : Value → String
  | null => ""
  | bool true => "true"
  | bool false => "false"
  | int n => Decimal.intText n.toInt
  | float x => x.text
  | str s => s
  | list items => ",".intercalate (texts items)
  | map _ => "[map]"

/-- The texts of some values, in order. -/
def texts : List Value → List String
  | [] => []
  | v :: rest => text v :: texts rest
end

/-- The texts of some values are the text of each. -/
theorem texts_eq_map (vs : List Value) : texts vs = vs.map text := by
  induction vs with
  | nil => rfl
  | cons v rest ih => simp [texts, ih]

/-! ## Equality -/

mutual
/-- Equality of values. Numbers are compared as numbers, also across the two kinds; what is not a
number equals itself; lists and maps are equal when their parts are. -/
def equal : Value → Value → Bool
  | null, null => true
  | bool a, bool b => a == b
  | int a, int b => a == b
  | float a, float b => a.eq b || (a.isNaN && b.isNaN)
  | int a, float b => (Binary64.ofInt64 a).eq b
  | float a, int b => (Binary64.ofInt64 b).eq a
  | str a, str b => a == b
  | list as, list bs => equalItems as bs
  | map as, map bs => equalEntries as bs
  | _, _ => false

/-- Equality of lists of values, item by item. -/
def equalItems : List Value → List Value → Bool
  | [], [] => true
  | a :: as, b :: bs => equal a b && equalItems as bs
  | _, _ => false

/-- Equality of entries of maps, name by name and value by value. -/
def equalEntries : List (String × Value) → List (String × Value) → Bool
  | [], [] => true
  | (k, a) :: as, (l, b) :: bs => k == l && equal a b && equalEntries as bs
  | _, _ => false
end

instance : BEq Value := ⟨equal⟩

/-- The comparison of values is `equal`. -/
theorem beq_eq (a b : Value) : (a == b) = equal a b := rfl

mutual
/-- Every value equals itself. -/
theorem equal_self : (v : Value) → v.equal v = true
  | null => by simp [equal]
  | bool _ => by simp [equal]
  | int _ => by simp [equal]
  | float x => by
    rw [equal]
    by_cases h : x.isNaN
    · simp [h]
    · simp [Binary64.eq_self (Bool.eq_false_iff.mpr h)]
  | str _ => by simp [equal]
  | list items => by rw [equal, equalItems_self items]
  | map entries => by rw [equal, equalEntries_self entries]

/-- A list equals itself. -/
theorem equalItems_self : (items : List Value) → equalItems items items = true
  | [] => by rw [equalItems]
  | v :: rest => by rw [equalItems, equal_self v, equalItems_self rest]; rfl

/-- A map equals itself. -/
theorem equalEntries_self : (entries : List (String × Value)) →
    equalEntries entries entries = true
  | [] => by rw [equalEntries]
  | (name, v) :: rest => by
    rw [equalEntries, equal_self v, equalEntries_self rest]
    simp
end

/-! ## Order -/

/-- Whether one value comes before another: numbers as numbers, texts by their characters, and
nothing else is ordered. -/
def lessThan : Value → Value → Bool
  | int a, int b => a < b
  | int a, float b => (Binary64.ofInt64 a).lt b
  | float a, int b => a.lt (Binary64.ofInt64 b)
  | float a, float b => a.lt b
  | str a, str b => a < b
  | _, _ => false

end Value

end ComponentView
