/-! # Static markup

The markup of a component is a tree of elements and texts that never changes; every instance starts
as a copy of it. This module holds the tree and its one written form. Texts and attribute values are
escaped, so neither can end early (`not_mem_escapeText`, `not_mem_escapeValue`). -/

namespace ComponentView

/-- The attributes of an element, in the order in which they were set. -/
abbrev Attributes := List (String × String)

/-- A tree of elements and texts. -/
inductive Markup where
  | text (content : String)
  | element (tag : String) (attributes : Attributes) (children : List Markup)
  deriving Inhabited, Repr

namespace Markup

/-! ## Escapes -/

/-- A character of a text as it is written between tags. -/
def textEscape : Char → List Char
  | '<' => ['&', 'l', 't', ';']
  | '>' => ['&', 'g', 't', ';']
  | '&' => ['&', 'a', 'm', 'p', ';']
  | c => [c]

/-- A character of an attribute value as it is written between quotes. -/
def valueEscape : Char → List Char
  | '\"' => ['&', 'q', 'u', 'o', 't', ';']
  | '&' => ['&', 'a', 'm', 'p', ';']
  | c => [c]

/-- A text as it is written between tags. -/
def escapeText (s : String) : String := String.ofList (s.toList.flatMap textEscape)

/-- An attribute value as it is written between quotes. -/
def escapeValue (s : String) : String := String.ofList (s.toList.flatMap valueEscape)

/-- No angle bracket is left in an escaped text. -/
theorem not_mem_escapeText (s : String) : '<' ∉ (escapeText s).toList := by
  simp only [escapeText, String.toList_ofList, List.mem_flatMap, not_exists, not_and]
  intro c _ h
  unfold textEscape at h
  split at h <;> simp_all [eq_comm]

/-- No quote is left in an escaped attribute value. -/
theorem not_mem_escapeValue (s : String) : '\"' ∉ (escapeValue s).toList := by
  simp only [escapeValue, String.toList_ofList, List.mem_flatMap, not_exists, not_and]
  intro c _ h
  unfold valueEscape at h
  split at h <;> simp_all [eq_comm]

/-! ## The written form -/

/-- An attribute inside a tag; one with an empty value is written by its name alone. -/
def attributeHtml (a : String × String) : String :=
  if a.2.isEmpty then " " ++ a.1
  else " " ++ a.1 ++ "=\"" ++ escapeValue a.2 ++ "\""

/-- The tag that opens an element. -/
def openTag (tag : String) (attributes : Attributes) : String :=
  "<" ++ tag ++ String.join (attributes.map attributeHtml) ++ ">"

/-- The tag that closes an element. -/
def closeTag (tag : String) : String := "</" ++ tag ++ ">"

mutual
/-- The written form of a tree. -/
def html : Markup → String
  | text content => escapeText content
  | element tag attributes children =>
    openTag tag attributes ++ htmlAll children ++ closeTag tag

/-- The written forms of some trees, one after another. -/
def htmlAll : List Markup → String
  | [] => ""
  | m :: rest => html m ++ htmlAll rest
end

end Markup

end ComponentView
