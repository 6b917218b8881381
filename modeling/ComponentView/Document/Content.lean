import ComponentView.Document
import ComponentView.Text.Blank

/-! # The content of nodes

Writing attributes, texts, classes and style properties, and reading texts and the written form of
a tree. A write that changes nothing is not counted. Classes and style properties live in one
attribute each; they are changed by taking its text apart, changing the pieces and joining them. -/

namespace ComponentView

/-! ## Attributes -/

namespace Attributes

/-- Writes an attribute: in place of its first occurrence, or else at the end. -/
def put (name value : String) : Attributes → Attributes
  | [] => [(name, value)]
  | (key, old) :: rest =>
    if key = name then (key, value) :: rest else (key, old) :: put name value rest

/-- Takes out the first occurrence of an attribute. -/
def remove (name : String) (attributes : Attributes) : Attributes :=
  attributes.eraseP (·.1 = name)

end Attributes

namespace Document

variable {L : Type}

/-- Writes an attribute, or removes it; a write of the value it has is skipped. -/
def setAttribute (d : Document L) (i : NodeId) (name : String) (value : Option String) :
    Document L :=
  if d.attribute? i name = value then d
  else
    let change (attributes : Attributes) : Attributes := match value with
      | some v => Attributes.put name v attributes
      | none => Attributes.remove name attributes
    (d.update i fun n => { n with attributes := change n.attributes }).count
      fun t => { t with attributeWrites := t.attributeWrites + 1 }

/-! ## Text -/

/-- Counts a written text. -/
def countText (d : Document L) : Document L :=
  d.count fun t => { t with textWrites := t.textWrites + 1 }

/-- Counting a change of a text changes no node. -/
@[simp] theorem node_countText (d : Document L) (i : NodeId) : d.countText.node i = d.node i := rfl

/-- Writes the content of a text. -/
def writeText (d : Document L) (i : NodeId) (content : String) : Document L :=
  d.update i fun n => { n with text := content }

/-- The text that is the only child of a node, if there is one. -/
def onlyText? (d : Document L) (i : NodeId) : Option NodeId :=
  match d.children i with
  | [only] => if (d.node only).kind = some .text then some only else none
  | _ => none

/-- Writes the text of a node. An element whose only child is a text keeps that child; the children
of any other element make way for one new text. -/
def setText (d : Document L) (i : NodeId) (content : String) : Document L :=
  match (d.node i).kind with
  | none => d
  | some .text => (d.writeText i content).countText
  | some (.element _) =>
    match d.onlyText? i with
    | some only => (d.writeText only content).countText
    | none =>
      let d := (d.children i).foldl release d
      let (d, text) := d.createText content
      let d := d.update i fun n => { n with children := n.children ++ [text] }
      let d := d.update text fun n => { n with parent := some i }
      d.countText

/-! ## Classes -/

/-- The classes of a node. -/
def classes (d : Document L) (i : NodeId) : List String :=
  Text.words ((d.attribute? i "class").getD "")

/-- Whether a node has a class. -/
def hasClass (d : Document L) (i : NodeId) (name : String) : Bool := (d.classes i).contains name

/-- Writes the classes of a node; no classes are no attribute. -/
def setClasses (d : Document L) (i : NodeId) (classes : List String) : Document L :=
  d.setAttribute i "class" (if classes.isEmpty then none else some (" ".intercalate classes))

/-- Switches a class on or off. -/
def setClass (d : Document L) (i : NodeId) (name : String) (on : Bool) : Document L :=
  if d.hasClass i name = on then d
  else if on then d.setClasses i (d.classes i ++ [name])
  else d.setClasses i ((d.classes i).filter (· ≠ name))

/-! ## Style -/

/-- The declarations of a style text: the pieces between semicolons that hold a colon, each as a
property and a value without the blanks around them. -/
def declarations (style : String) : List (String × String) :=
  (Text.splitOn (· == ';') style.toList).filterMap fun piece =>
    (Text.cut ':' piece).map fun parts =>
      (String.ofList (Text.trim parts.1), String.ofList (Text.trim parts.2))

/-- The text of some declarations. -/
def styleText (declarations : List (String × String)) : String :=
  "; ".intercalate (declarations.map fun d => d.1 ++ ": " ++ d.2)

/-- Writes a style property, as the last declaration, or clears it; no declarations are no
attribute. -/
def setStyle (d : Document L) (i : NodeId) (property : String) (value : Option String) :
    Document L :=
  let others := (declarations ((d.attribute? i "style").getD "")).filter (·.1 ≠ property)
  let all := others ++ (value.map fun v => (property, v)).toList
  d.setAttribute i "style" (if all.isEmpty then none else some (styleText all))

/-! ## Reading a tree -/

/-- The text of a node and of everything below it, to a depth. -/
def textWithin : (depth : Nat) → Document L → NodeId → String
  | 0, _, _ => ""
  | depth + 1, d, i =>
    match (d.node i).kind with
    | none => ""
    | some .text => (d.node i).text
    | some (.element _) => String.join ((d.children i).map (textWithin depth d))

/-- The text of a node and of everything below it. -/
def textContent (d : Document L) (i : NodeId) : String := textWithin (d.size + 1) d i

/-- The written form of a tree, to a depth. -/
def htmlWithin : (depth : Nat) → Document L → NodeId → String
  | 0, _, _ => ""
  | depth + 1, d, i =>
    match (d.node i).kind with
    | none => ""
    | some .text => Markup.escapeText (d.node i).text
    | some (.element tag) =>
      Markup.openTag tag (d.node i).attributes
        ++ String.join ((d.children i).map (htmlWithin depth d)) ++ Markup.closeTag tag

/-- The written form of a node and of everything below it; a node that is not live has none. -/
def html (d : Document L) (i : NodeId) : String := htmlWithin (d.size + 1) d i

end Document

end ComponentView
