import ComponentView.Markup
import Mathlib.Data.List.Flatten

/-! # What a written form tells

Two trees that are written in the same way differ only in how their texts are cut into nodes
(`Markup.html_eq_iff`). Every part of a written form ends at a character that the part itself cannot
hold: a name at a blank, an equals sign or a bracket, a value at a quote, a text at a bracket. So
each part can be told from what comes after it, whatever texts and values the tree holds. -/

namespace ComponentView

namespace Markup

/-! ## Names -/

/-- A character of a name: a letter, a digit or a hyphen. -/
def IsNameChar (c : Char) : Prop := c.isAlphanum = true ∨ c = '-'

instance : DecidablePred IsNameChar := fun _ => inferInstanceAs (Decidable (_ ∨ _))

/-- A name of a tag or an attribute. -/
structure IsName (name : String) : Prop where
  nonempty : name.toList ≠ []
  chars : ∀ c ∈ name.toList, IsNameChar c

instance (name : String) : Decidable (IsName name) :=
  decidable_of_iff (name.toList ≠ [] ∧ name.toList.all (fun c => decide (IsNameChar c)))
    ⟨fun h => ⟨h.1, by simpa using h.2⟩, fun h => ⟨h.nonempty, by simpa using h.chars⟩⟩

mutual
/-- Every tag and every attribute in a tree has a name. -/
def Named : Markup → Prop
  | text _ => True
  | element tag attributes children =>
    IsName tag ∧ (∀ a ∈ attributes, IsName a.1) ∧ NamedAll children

/-- Every tag and every attribute in some trees has a name. -/
def NamedAll : List Markup → Prop
  | [] => True
  | m :: rest => Named m ∧ NamedAll rest
end

/-! ## Texts as one -/

/-- A text as a node, if there is something in it. -/
def textNode (content : String) : List Markup := if content.isEmpty then [] else [text content]

mutual
/-- A tree in which texts next to each other are one, and none is empty. -/
def merged : Markup → Markup
  | text content => text content
  | element tag attributes children => element tag attributes (mergedAfter "" children)

/-- Some trees after a text, in which texts next to each other are one, and none is empty. -/
def mergedAfter (before : String) : List Markup → List Markup
  | [] => textNode before
  | text content :: rest => mergedAfter (before ++ content) rest
  | element tag attributes children :: rest =>
    textNode before ++ merged (element tag attributes children) :: mergedAfter "" rest
end

/-- A text is escaped character by character. -/
@[simp] theorem toList_escapeText (s : String) :
    (escapeText s).toList = s.toList.flatMap textEscape := String.toList_ofList

/-- A text is escaped in parts. -/
theorem escapeText_append (s t : String) :
    escapeText (s ++ t) = escapeText s ++ escapeText t := by
  rw [← String.toList_inj]
  simp

/-- Two lists of markups are written one after the other. -/
theorem htmlAll_append (ms others : List Markup) :
    htmlAll (ms ++ others) = htmlAll ms ++ htmlAll others := by
  induction ms with
  | nil => simp [htmlAll]
  | cons m ms ih => rw [List.cons_append, htmlAll, htmlAll, ih, String.append_assoc]

/-- A text node is written as its escaped text. -/
theorem htmlAll_textNode (content : String) : htmlAll (textNode content) = escapeText content := by
  unfold textNode
  split
  · next h =>
    rw [String.isEmpty_iff.mp h]
    rfl
  · simp [htmlAll, html]

mutual
/-- Making texts one changes nothing in the written form. -/
theorem html_merged : ∀ m : Markup, (merged m).html = m.html
  | text _ => rfl
  | element tag attributes children => by
    rw [merged, html, html, htmlAll_mergedAfter "" children]
    simp [escapeText]

/-- A text before some trees is written before them. -/
theorem htmlAll_mergedAfter (before : String) :
    ∀ ms : List Markup, htmlAll (mergedAfter before ms) = escapeText before ++ htmlAll ms
  | [] => by simp [mergedAfter, htmlAll_textNode, htmlAll]
  | text content :: rest => by
    rw [mergedAfter, htmlAll_mergedAfter _ rest, escapeText_append, htmlAll, html,
      String.append_assoc]
  | element tag attributes children :: rest => by
    rw [mergedAfter, htmlAll_append, htmlAll_textNode, htmlAll,
      html_merged (element tag attributes children), htmlAll_mergedAfter _ rest, htmlAll]
    simp [escapeText]
end

/-! ## Where a part ends -/

/-- Nothing comes, or something that starts with the character. -/
def StartsWith (stop : Char) (after : List Char) : Prop := ∀ c ∈ after.head?, c = stop

/-- Characters written one after another can be told from what comes after them, if none is written
as the start of another and none starts with the character that comes next. -/
theorem eq_of_flatMap_append {code : Char → List Char} {stop : Char}
    (apart : ∀ c d x y, code c ++ x = code d ++ y → c = d)
    (starts : ∀ c, ∃ e x, code c = e :: x ∧ e ≠ stop) {s s' r r' : List Char}
    (hr : StartsWith stop r) (hr' : StartsWith stop r')
    (h : s.flatMap code ++ r = s'.flatMap code ++ r') : s = s' ∧ r = r' := by
  have goesOn {after : List Char} (ha : StartsWith stop after) (c : Char) (x : List Char) :
      after ≠ code c ++ x := by
    rintro rfl
    obtain ⟨e, y, hc, hne⟩ := starts c
    rw [hc] at ha
    exact hne (ha e rfl)
  induction s generalizing s' with
  | nil =>
    cases s' with
    | nil => exact ⟨rfl, h⟩
    | cons d s' =>
      rw [List.flatMap_cons, List.append_assoc] at h
      exact absurd h (goesOn hr d _)
  | cons c s ih =>
    rw [List.flatMap_cons, List.append_assoc] at h
    cases s' with
    | nil => exact absurd h.symm (goesOn hr' c _)
    | cons d s' =>
      rw [List.flatMap_cons, List.append_assoc] at h
      obtain rfl := apart c d _ _ h
      obtain ⟨rfl, hr⟩ := ih (List.append_cancel_left h)
      exact ⟨rfl, hr⟩

/-- An escaped text begins with the escape of one character only. -/
theorem eq_of_textEscape {c d : Char} {x y : List Char}
    (h : textEscape c ++ x = textEscape d ++ y) : c = d := by
  unfold textEscape at h
  split at h <;> split at h <;> grind

/-- The escape of a character of a text is not empty and opens no tag. -/
theorem textEscape_eq_cons (c : Char) : ∃ e x, textEscape c = e :: x ∧ e ≠ '<' := by
  unfold textEscape
  split <;> simp_all

/-- A text ends at the next tag. -/
theorem eq_of_escapeText_append {s s' : String} {r r' : List Char} (hr : StartsWith '<' r)
    (hr' : StartsWith '<' r')
    (h : (escapeText s).toList ++ r = (escapeText s').toList ++ r') : s = s' ∧ r = r' := by
  rw [toList_escapeText, toList_escapeText] at h
  have := eq_of_flatMap_append (fun _ _ _ _ => eq_of_textEscape) textEscape_eq_cons hr hr' h
  exact this.imp_left String.toList_inj.mp

/-- An escaped value begins with the escape of one character only. -/
theorem eq_of_valueEscape {c d : Char} {x y : List Char}
    (h : valueEscape c ++ x = valueEscape d ++ y) : c = d := by
  unfold valueEscape at h
  split at h <;> split at h <;> grind

/-- The escape of a character of a value is not empty and does not end the value. -/
theorem valueEscape_eq_cons (c : Char) : ∃ e x, valueEscape c = e :: x ∧ e ≠ '\"' := by
  unfold valueEscape
  split <;> simp_all

/-- A value ends at the next quote. -/
theorem eq_of_escapeValue_append {s s' : String} {r r' : List Char}
    (h : (escapeValue s).toList ++ '\"' :: r = (escapeValue s').toList ++ '\"' :: r') :
    s = s' ∧ r = r' := by
  rw [escapeValue, escapeValue, String.toList_ofList, String.toList_ofList] at h
  have quote (r : List Char) : StartsWith '\"' ('\"' :: r) := by simp [StartsWith]
  obtain ⟨hs, hr⟩ := eq_of_flatMap_append (fun _ _ _ _ => eq_of_valueEscape) valueEscape_eq_cons
    (quote r) (quote r') h
  exact ⟨String.toList_inj.mp hs, (List.cons.inj hr).2⟩

/-- A name ends at the next character that is in no name. -/
theorem IsName.eq_of_append {s s' : String} {r r' : List Char} (hs : IsName s) (hs' : IsName s')
    (hr : ∀ c ∈ r.head?, ¬ IsNameChar c) (hr' : ∀ c ∈ r'.head?, ¬ IsNameChar c)
    (h : s.toList ++ r = s'.toList ++ r') : s = s' ∧ r = r' := by
  have name {s : String} {r : List Char} (hs : IsName s) (hr : ∀ c ∈ r.head?, ¬ IsNameChar c) :
      (s.toList ++ r).takeWhile (decide <| IsNameChar ·) = s.toList := by
    rw [List.takeWhile_append_of_pos (by simpa using hs.chars)]
    cases r with
    | nil => simp
    | cons c r => rw [List.takeWhile_cons_of_neg (by simpa using hr c rfl), List.append_nil]
  have same : s = s' := by rw [← String.toList_inj, ← name hs hr, h, name hs' hr']
  subst same
  exact ⟨rfl, List.append_cancel_left h⟩

/-! ## Attributes -/

/-- What is written of an attribute after its name. -/
def assigned (value : String) : List Char :=
  if value = "" then [] else '=' :: '\"' :: ((escapeValue value).toList ++ ['\"'])

/-- An attribute is written as a blank, its name and what is assigned to it. -/
theorem toList_attributeHtml (a : String × String) :
    (attributeHtml a).toList = ' ' :: (a.1.toList ++ assigned a.2) := by
  unfold attributeHtml assigned
  by_cases h : a.2 = "" <;> simp [h]

/-- Attributes as they are written, and the end of the tag that they are in. -/
def attributesEnd (attributes : Attributes) (after : List Char) : List Char :=
  attributes.flatMap (fun a => (attributeHtml a).toList) ++ '>' :: after

/-- The first attribute is written before the others. -/
theorem attributesEnd_cons (a : String × String) (attributes : Attributes) (after : List Char) :
    attributesEnd (a :: attributes) after =
      ' ' :: (a.1.toList ++ (assigned a.2 ++ attributesEnd attributes after)) := by
  simp [attributesEnd, toList_attributeHtml]

/-- The end of a tag starts with a blank or a bracket. -/
theorem attributesEnd_eq_cons (attributes : Attributes) (after : List Char) :
    ∃ c x, attributesEnd attributes after = c :: x ∧ (c = ' ' ∨ c = '>') := by
  cases attributes with
  | nil => exact ⟨'>', after, rfl, Or.inr rfl⟩
  | cons a attributes => exact ⟨' ', _, attributesEnd_cons a attributes after, Or.inl rfl⟩

/-- No character of a name comes where the attributes go on. -/
theorem not_isNameChar_attributesEnd (attributes : Attributes) (after : List Char) :
    ∀ c ∈ (attributesEnd attributes after).head?, ¬ IsNameChar c := by
  obtain ⟨c, x, hx, hc⟩ := attributesEnd_eq_cons attributes after
  rw [hx, List.head?_cons]
  rintro _ ⟨⟩
  rcases hc with rfl | rfl <;> decide

/-- The value of an attribute can be told from what comes after it. -/
theorem eq_of_assigned_append {value value' : String} {attributes others : Attributes}
    {after after' : List Char}
    (h : assigned value ++ attributesEnd attributes after =
      assigned value' ++ attributesEnd others after') :
    value = value' ∧ attributesEnd attributes after = attributesEnd others after' := by
  have bare {value : String} (hv : value ≠ "") (attributes others : Attributes)
      (after after' : List Char) : attributesEnd attributes after ≠
        assigned value ++ attributesEnd others after' := by
    obtain ⟨c, x, hx, hc⟩ := attributesEnd_eq_cons attributes after
    rw [hx, assigned, if_neg hv, List.cons_append]
    rintro he
    rcases hc with rfl | rfl <;> cases (List.cons.inj he).1
  by_cases hv : value = "" <;> by_cases hv' : value' = ""
  · subst hv hv'
    exact ⟨rfl, h⟩
  · rw [assigned, if_pos hv] at h
    exact absurd h (bare hv' _ _ _ _)
  · rw [assigned.eq_1 value', if_pos hv'] at h
    exact absurd h.symm (bare hv _ _ _ _)
  · rw [assigned, if_neg hv, assigned, if_neg hv'] at h
    simp only [List.cons_append, List.append_assoc, List.nil_append] at h
    exact eq_of_escapeValue_append (List.cons.inj (List.cons.inj h).2).2

/-- The attributes of an element end with its tag. -/
theorem eq_of_attributesEnd {attributes others : Attributes} {after after' : List Char}
    (named : ∀ a ∈ attributes, IsName a.1) (named' : ∀ a ∈ others, IsName a.1)
    (h : attributesEnd attributes after = attributesEnd others after') :
    attributes = others ∧ after = after' := by
  have stops (a : String × String) (attributes : Attributes) (after : List Char) :
      ∀ c ∈ (assigned a.2 ++ attributesEnd attributes after).head?, ¬ IsNameChar c := by
    unfold assigned
    split
    · exact not_isNameChar_attributesEnd attributes after
    · rw [List.cons_append, List.head?_cons]
      rintro _ ⟨⟩
      decide
  induction attributes generalizing others with
  | nil =>
    cases others with
    | nil => exact ⟨rfl, (List.cons.inj h).2⟩
    | cons b others =>
      rw [attributesEnd_cons] at h
      cases (List.cons.inj h).1
  | cons a attributes ih =>
    rw [attributesEnd_cons] at h
    cases others with
    | nil => cases (List.cons.inj h).1
    | cons b others =>
      rw [List.forall_mem_cons] at named named'
      rw [attributesEnd_cons] at h
      obtain ⟨name, h⟩ := named.1.eq_of_append named'.1 (stops _ _ _) (stops _ _ _)
        (List.cons.inj h).2
      obtain ⟨value, h⟩ := eq_of_assigned_append h
      obtain ⟨rfl, ends⟩ := ih named.2 named'.2 h
      exact ⟨congrArg (· :: attributes) (Prod.ext name value), ends⟩

/-! ## Trees -/

/-- The tag that closes an element, and what comes after it. -/
def closeEnd (tag : String) (after : List Char) : List Char :=
  '<' :: '/' :: (tag.toList ++ '>' :: after)

/-- An element is written as its tag, its attributes, its children and its end. -/
theorem toList_html_element_append (tag : String) (attributes : Attributes) (children : List Markup)
    (after : List Char) : (html (element tag attributes children)).toList ++ after =
      '<' :: (tag.toList ++
        attributesEnd attributes ((htmlAll children).toList ++ closeEnd tag after)) := by
  simp [html, openTag, closeTag, attributesEnd, closeEnd, List.flatMap_map]

/-- Nothing comes, or a tag that closes an element. -/
def Closes (after : List Char) : Prop := after = [] ∨ ∃ x, after = '<' :: '/' :: x

/-- The end of an element closes. -/
theorem closes_closeEnd (tag : String) (after : List Char) : Closes (closeEnd tag after) :=
  Or.inr ⟨_, rfl⟩

/-- What closes starts with a bracket. -/
theorem Closes.startsWith {after : List Char} (h : Closes after) : StartsWith '<' after := by
  rcases h with rfl | ⟨x, rfl⟩ <;> simp [StartsWith]

/-- No element starts where one is closed. -/
theorem Closes.ne_html {after : List Char} (h : Closes after) {tag : String}
    {attributes : Attributes} {children : List Markup} (ht : IsName tag) (x : List Char) :
    after ≠ (html (element tag attributes children)).toList ++ x := by
  rw [toList_html_element_append]
  rintro rfl
  rcases h with h | ⟨y, h⟩
  · cases h
  · cases hc : tag.toList with
    | nil => exact ht.nonempty hc
    | cons c cs =>
      rw [hc] at h
      have named := ht.chars c (by simp [hc])
      rw [(List.cons.inj (List.cons.inj h).2).1] at named
      exact absurd named (by decide)

/-- Some trees start with an element, or there are none. -/
inductive Leads : List Markup → Prop where
  | nil : Leads []
  | element (tag : String) (attributes : Attributes) (children rest : List Markup) :
    Leads (element tag attributes children :: rest)

/-- A text and the texts that come first after it, and what comes after these. -/
theorem exists_leads (before : String) {ms : List Markup} (named : NamedAll ms) :
    ∃ first rest, Leads rest ∧ NamedAll rest ∧ mergedAfter before ms = mergedAfter first rest ∧
      escapeText before ++ htmlAll ms = escapeText first ++ htmlAll rest := by
  induction ms generalizing before with
  | nil => exact ⟨before, [], .nil, named, rfl, rfl⟩
  | cons m ms ih =>
    cases m with
    | element tag attributes children => exact ⟨before, _, .element .., named, rfl, rfl⟩
    | text content =>
      obtain ⟨first, rest, leads, named, same, written⟩ := ih (before ++ content) named.2
      refine ⟨first, rest, leads, named, same, ?_⟩
      rw [← written, escapeText_append, htmlAll, html, String.append_assoc]

/-- A list of markups that leads with an element starts with a bracket. -/
theorem startsWith_htmlAll {ms : List Markup} (leads : Leads ms) {after : List Char}
    (ha : Closes after) : StartsWith '<' ((htmlAll ms).toList ++ after) := by
  cases leads with
  | nil => exact ha.startsWith
  | element tag attributes children rest =>
    rw [htmlAll, String.toList_append, List.append_assoc, toList_html_element_append]
    simp [StartsWith]

/-- What holds of no trees, and of some trees after a text or after an element with whatever it
holds of what is in it, holds of all trees. -/
@[elab_as_elim]
theorem trees_induction {motive : List Markup → Prop} (nil : motive [])
    (text : ∀ content rest, motive rest → motive (text content :: rest))
    (element : ∀ tag attributes children rest, motive children → motive rest →
      motive (element tag attributes children :: rest)) : ∀ ms, motive ms
  | [] => nil
  | .text content :: rest => text content rest (trees_induction nil text element rest)
  | .element tag attributes children :: rest =>
    element tag attributes children rest (trees_induction nil text element children)
      (trees_induction nil text element rest)

/-- A text and some trees after it can be told from what closes the element that they are in. -/
theorem eq_of_htmlAll_append {a b : List Markup} {s t : String} (ha : NamedAll a) (hb : NamedAll b)
    {r r' : List Char} (hr : Closes r) (hr' : Closes r')
    (h : (escapeText s ++ htmlAll a).toList ++ r = (escapeText t ++ htmlAll b).toList ++ r') :
    mergedAfter s a = mergedAfter t b ∧ r = r' := by
  induction a using trees_induction generalizing b s t r r' with
  | text content others ih =>
    rw [mergedAfter]
    refine ih ha.2 hb hr hr' ?_
    rw [← h, escapeText_append, htmlAll, html, String.append_assoc]
  | nil =>
    obtain ⟨first, rest, leads, named, same, written⟩ := exists_leads t hb
    rw [written, String.toList_append, String.toList_append, List.append_assoc,
      List.append_assoc] at h
    obtain ⟨rfl, after⟩ := eq_of_escapeText_append (startsWith_htmlAll .nil hr)
      (startsWith_htmlAll leads hr') h
    rw [same]
    cases leads with
    | nil => exact ⟨rfl, List.append_cancel_left after⟩
    | element tag attributes children others =>
      rw [htmlAll.eq_2, String.toList_append, List.append_assoc] at after
      exact absurd after (hr.ne_html named.1.1 _)
  | element tag attributes children others inner next =>
    obtain ⟨first, rest, leads, named, same, written⟩ := exists_leads t hb
    rw [written, String.toList_append, String.toList_append, List.append_assoc,
      List.append_assoc] at h
    obtain ⟨rfl, after⟩ := eq_of_escapeText_append (startsWith_htmlAll (.element ..) hr)
      (startsWith_htmlAll leads hr') h
    rw [same]
    cases leads with
    | nil =>
      rw [htmlAll.eq_2, String.toList_append, List.append_assoc] at after
      exact absurd after.symm (hr'.ne_html ha.1.1 _)
    | element tag' attributes' children' others' =>
      rw [htmlAll, htmlAll, String.toList_append, String.toList_append, List.append_assoc,
        List.append_assoc, toList_html_element_append, toList_html_element_append] at after
      obtain ⟨⟨tagged, attributed, inside⟩, beside⟩ := ha
      obtain ⟨⟨tagged', attributed', inside'⟩, beside'⟩ := named
      obtain ⟨rfl, tagEnd⟩ := tagged.eq_of_append tagged' (not_isNameChar_attributesEnd _ _)
        (not_isNameChar_attributesEnd _ _) (List.cons.inj after).2
      obtain ⟨rfl, content⟩ := eq_of_attributesEnd attributed attributed' tagEnd
      obtain ⟨sameInside, closing⟩ := inner (s := "") (t := "") inside inside'
        (closes_closeEnd _ _) (closes_closeEnd _ _) (by simpa [escapeText] using content)
      obtain ⟨sameBeside, end'⟩ := next (s := "") (t := "") beside beside' hr hr'
        (by simpa [escapeText, closeEnd] using closing)
      rw [mergedAfter, mergedAfter, merged, merged, sameInside, sameBeside]
      exact ⟨rfl, end'⟩

/-- Trees that are the same after texts have been made one are the same by themselves. -/
theorem merged_eq_of_singleton {a b : Markup} (h : mergedAfter "" [a] = mergedAfter "" [b]) :
    a.merged = b.merged := by
  have alone (s : String) : mergedAfter "" [text s] = textNode s := by
    rw [mergedAfter, mergedAfter, String.empty_append]
  have element (tag : String) (attributes : Attributes) (children : List Markup) :
      mergedAfter "" [element tag attributes children] =
        [(Markup.element tag attributes children).merged] := rfl
  cases a <;> cases b <;> simp only [alone, element, textNode, merged, String.isEmpty_iff] at h ⊢ <;> grind

/-- Two trees of which all tags and attributes have names are written in the same way exactly when
they differ only in how their texts are cut into nodes: once texts next to each other are one and
empty ones are left out, they are equal. So no text and no value reads as anything else. -/
theorem html_eq_iff {a b : Markup} (ha : a.Named) (hb : b.Named) :
    a.html = b.html ↔ a.merged = b.merged := by
  refine ⟨fun h => ?_, fun h => by rw [← html_merged a, h, html_merged b]⟩
  have all := eq_of_htmlAll_append (a := [a]) (b := [b]) (s := "") (t := "") ⟨ha, trivial⟩
    ⟨hb, trivial⟩ (Or.inl rfl) (Or.inl rfl) (by simp [htmlAll, h])
  exact merged_eq_of_singleton all.1

/-- A paragraph with a text that looks like an element, cut into pieces. -/
def quotation : Markup :=
  element "p" [("title", "\"<b>\""), ("hidden", "")]
    [text "<b>", text "", text "</b>", element "br" [] [text ""]]

/-- The pieces are written as one text is, and not as the element is that they look like. -/
theorem html_quotation :
    quotation.html = (element "p" [("title", "\"<b>\""), ("hidden", "")]
      [text "<b></b>", element "br" [] []]).html ∧
    quotation.html ≠ (element "p" [("title", "\"<b>\""), ("hidden", "")]
      [element "b" [] [], element "br" [] []]).html := by
  have p : IsName "p" := by decide
  have b : IsName "b" := by decide
  have br : IsName "br" := by decide
  have title : IsName "title" := by decide
  have hidden : IsName "hidden" := by decide
  have named : quotation.Named := by simp [quotation, Named, NamedAll, p, br, title, hidden]
  constructor
  · refine (html_eq_iff named ?_).mpr rfl
    simp [Named, NamedAll, p, br, title, hidden]
  · refine mt (html_eq_iff named ?_).mp ?_
    · simp [Named, NamedAll, p, b, br, title, hidden]
    · simp [quotation, merged, mergedAfter, textNode]

end Markup

end ComponentView
