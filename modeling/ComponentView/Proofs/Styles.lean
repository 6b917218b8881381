import ComponentView.Proofs.Document.Attributes
import ComponentView.Proofs.Pieces
import Mathlib.Data.List.Induction

/-! # Style properties

Each write of a style property reads all declarations off the style attribute and writes them again.
As long as no value holds a semicolon the declarations are read as they were written
(`Document.declarations_styleText`), so the attribute lists the properties by their last writes, and
no write touches another property (`Document.styles_of_writes`). A value with a semicolon is taken
apart by the next write, whatever property that is of (`Document.background_lost_by_write`). -/

namespace ComponentView

namespace Document

/-! ## Declarations -/

/-- A property and a value that are read as they are written: the property has no colon, semicolon
or blank, as is true of letters, digits and hyphens, and the value is trimmed and has no
semicolon. -/
structure Declares (property value : String) : Prop where
  name : ∀ c ∈ property.toList, c ≠ ':' ∧ c ≠ ';' ∧ Text.isBlank c = false
  trimmed : Text.trim value.toList = value.toList
  whole : ';' ∉ value.toList

/-- A property and a value that pass the check can be declared. -/
theorem Declares.of_all {property value : String}
    (name : property.toList.all (fun c => c != ':' && c != ';' && !Text.isBlank c) = true)
    (trimmed : Text.trim value.toList = value.toList) (whole : ';' ∉ value.toList) :
    Declares property value where
  name c hc := by simpa [and_assoc] using List.all_eq_true.mp name c hc
  trimmed := trimmed
  whole := whole

/-- The declaration that a piece between semicolons is read as. -/
def declaration? (piece : List Char) : Option (String × String) :=
  (Text.cut ':' piece).map fun parts =>
    (String.ofList (Text.trim parts.1), String.ofList (Text.trim parts.2))

/-- The characters of one declaration. -/
def declarationChars (p : String × String) : List Char := p.1.toList ++ ':' :: ' ' :: p.2.toList

/-- A single property is written as its declaration. -/
theorem toList_styleText_singleton (p : String × String) :
    (styleText [p]).toList = declarationChars p := by
  simp [styleText, declarationChars]

/-- A declaration that others come after ends with a semicolon and a blank. -/
theorem toList_styleText_cons (p q : String × String) (ps : List (String × String)) :
    (styleText (p :: q :: ps)).toList
      = declarationChars p ++ ';' :: ([' '] ++ (styleText (q :: ps)).toList) := by
  simp [styleText, declarationChars, String.toList_intercalate]

section Reading

variable {p : String × String} {lead : List Char}

/-- No semicolon stands in the declaration of a property. -/
theorem Declares.no_semicolon (h : Declares p.1 p.2) (blank : ∀ c ∈ lead, Text.isBlank c = true) :
    ∀ c ∈ lead ++ declarationChars p, (c == ';') = false := by
  have no_blank : Text.isBlank ';' = false := by decide
  intro c hc
  refine beq_false_of_ne ?_
  rintro rfl
  -- The semicolon is in front, in the property, between property and value, or in the value.
  simp only [declarationChars, List.mem_append, List.mem_cons] at hc
  obtain hc | hc | hc | hc | hc := hc
  · rw [blank _ hc] at no_blank
    cases no_blank
  · exact (h.name _ hc).2.1 rfl
  · exact absurd hc (by decide)
  · exact absurd hc (by decide)
  · exact h.whole hc

/-- The space that follows a colon or a semicolon is a blank. -/
theorem blank_space : ∀ c ∈ [' '], Text.isBlank c = true := List.forall_mem_singleton.mpr rfl

/-- The characters of a declaration are read as that declaration, whatever blanks are in front. -/
theorem Declares.read (h : Declares p.1 p.2) (blank : ∀ c ∈ lead, Text.isBlank c = true) :
    declaration? (lead ++ declarationChars p) = some p := by
  have no_colon : ':' ∉ lead ++ p.1.toList := by
    intro hc
    rcases List.mem_append.mp hc with hc | hc
    · exact absurd (blank _ hc) (by decide)
    · exact (h.name _ hc).1 rfl
  have property : Text.trim (lead ++ p.1.toList) = p.1.toList := by
    rw [Text.trim_append blank, Text.trim_of_free fun c hc => (h.name c hc).2.2]
  have value : Text.trim (' ' :: p.2.toList) = p.2.toList := by
    rw [← List.singleton_append, Text.trim_append blank_space, h.trimmed]
  rw [declaration?, declarationChars, ← List.append_assoc, Text.cut_append_cons no_colon,
    Option.map_some, property, value, String.ofList_toList, String.ofList_toList]

/-- Declarations are read as they were written. -/
theorem declarations_styleText {ps : List (String × String)}
    (h : ∀ p ∈ ps, Declares p.1 p.2) : declarations (styleText ps) = ps := by
  -- What is left of the text after a semicolon begins with a blank.
  have onward (lead : List Char) (blank : ∀ c ∈ lead, Text.isBlank c = true) (ne : ps ≠ []) :
      (Text.splitOn (· == ';') (lead ++ (styleText ps).toList)).filterMap declaration? = ps := by
    induction ps generalizing lead with
    | nil => exact absurd rfl ne
    | cons p ps ih =>
      rw [List.forall_mem_cons] at h
      cases ps with
      | nil =>
        rw [toList_styleText_singleton, Text.splitOn_of_free (h.1.no_semicolon blank),
          List.filterMap_cons_some (h.1.read blank), List.filterMap_nil]
      | cons q ps =>
        rw [toList_styleText_cons, ← List.append_assoc,
          Text.splitOn_append_cons (h.1.no_semicolon blank) (by decide),
          List.filterMap_cons_some (h.1.read blank), ih h.2 [' '] blank_space (by simp)]
  cases ps with
  | nil => decide
  | cons p ps => exact onward [] nofun (by simp)

end Reading

/-! ## Writes -/

/-- What one write makes of the declarations: the property comes last or goes. -/
def restyle (ps : List (String × String)) (w : String × Option String) : List (String × String) :=
  ps.filter (·.1 ≠ w.1) ++ (w.2.map fun v => (w.1, v)).toList

/-- Writes style properties one after another. -/
def writeStyles {L : Type} (d : Document L) (i : NodeId) (ws : List (String × Option String)) :
    Document L := ws.foldl (fun d w => d.setStyle i w.1 w.2) d

variable {L : Type} {d : Document L} {i : NodeId} {ps : List (String × String)}
  {w : String × Option String} {ws : List (String × Option String)}

/-- The style attribute of a live node lists some declarations that are read as they are written,
each of another property; without any there is no attribute. -/
structure Styled (d : Document L) (i : NodeId) (ps : List (String × String)) : Prop where
  live : d.isLive i = true
  single : Attributes.Single "style" (d.node i).attributes
  text : d.attribute? i "style" = if ps.isEmpty then none else some (styleText ps)
  declares : ∀ p ∈ ps, Declares p.1 p.2
  nodup : (ps.map Prod.fst).Nodup

/-- The style of a node reads as its properties. -/
theorem Styled.declarations (h : Styled d i ps) :
    declarations ((d.attribute? i "style").getD "") = ps := by
  rw [h.text]
  cases ps with
  | nil => decide
  | cons p ps => exact declarations_styleText h.declares

/-- A write decides about its own property only. -/
theorem mem_restyle {p : String × String} :
    p ∈ restyle ps w ↔ if p.1 = w.1 then w.2 = some p.2 else p ∈ ps := by
  obtain ⟨property, value⟩ := p
  simp only [restyle, List.mem_append, List.mem_filter, Option.mem_toList, Option.map_eq_some_iff,
    Prod.mk.injEq, decide_eq_true_eq]
  split
  · next he => simp [he]
  · next he => simp [he, Ne.symm he]

/-- No property stands twice after a write. -/
theorem nodup_restyle (h : (ps.map Prod.fst).Nodup) : ((restyle ps w).map Prod.fst).Nodup := by
  rw [restyle, List.map_append]
  have others : ((ps.filter (·.1 ≠ w.1)).map Prod.fst).Nodup :=
    h.sublist (List.filter_sublist.map Prod.fst)
  cases w.2 with
  | none => simpa using others
  | some v =>
    refine List.nodup_append.mpr ⟨others, List.nodup_singleton _, fun a ha b hb => ?_⟩
    obtain ⟨p, hp, rfl⟩ := List.mem_map.mp ha
    obtain rfl : b = w.1 := by simpa using hb
    simpa using (List.mem_filter.mp hp).2

/-- A write makes of the properties what it should. -/
theorem Styled.setStyle (h : Styled d i ps) (written : ∀ v ∈ w.2, Declares w.1 v) :
    Styled (d.setStyle i w.1 w.2) i (restyle ps w) := by
  have value : d.setStyle i w.1 w.2 = d.setAttribute i "style"
      (if (restyle ps w).isEmpty then none else some (styleText (restyle ps w))) := by
    rw [Document.setStyle, h.declarations]
    rfl
  obtain ⟨text, single⟩ := attribute?_setAttribute h.live h.single
    (if (restyle ps w).isEmpty then none else some (styleText (restyle ps w)))
  rw [value]
  refine ⟨?_, single, text, fun p hp => ?_, nodup_restyle h.nodup⟩
  · rw [isLive_setAttribute]
    exact h.live
  · rw [mem_restyle] at hp
    split at hp
    · next he => exact he ▸ written p.2 hp
    · exact h.declares p hp

/-- What each write makes of the declarations, all writes make one after another. -/
theorem Styled.writeStyles (h : Styled d i ps)
    (written : ∀ w ∈ ws, ∀ v ∈ w.2, Declares w.1 v) :
    Styled (d.writeStyles i ws) i (ws.foldl restyle ps) := by
  induction ws generalizing d ps with
  | nil => exact h
  | cons w ws ih =>
    rw [List.forall_mem_cons] at written
    exact ih (h.setStyle written.1) written.2

/-- After some writes, a property has the value of its last write, if that did not clear it. -/
theorem mem_foldl_restyle {p : String × String} :
    p ∈ ws.foldl restyle [] ↔ ws.reverse.lookup p.1 = some (some p.2) := by
  induction ws using List.reverseRecOn with
  | nil => simp
  | append_singleton ws w ih =>
    rw [List.foldl_append, List.foldl_cons, List.foldl_nil, mem_restyle, ih, List.reverse_append,
      List.reverse_singleton, List.singleton_append, List.lookup_cons]
    by_cases he : p.1 = w.1
    · simp [he]
    · rw [if_neg he, beq_false_of_ne he]

/-- Style properties of a live node are written that had no style attribute, none of the values with
a semicolon. Then the attribute lists exactly the properties that were not cleared by their last
write, each once and with the value of that write, and it is read so; if there are none there is no
attribute. -/
theorem styles_of_writes (live : d.isLive i = true) (plain : d.attribute? i "style" = none)
    (written : ∀ w ∈ ws, ∀ v ∈ w.2, Declares w.1 v) :
    ∃ ps, ((d.writeStyles i ws).attribute? i "style"
          = if ps.isEmpty then none else some (styleText ps)) ∧
      declarations (((d.writeStyles i ws).attribute? i "style").getD "") = ps ∧
      (ps.map Prod.fst).Nodup ∧
      ∀ property value, (property, value) ∈ ps ↔
        ws.reverse.lookup property = some (some value) := by
  have bare : Styled d i [] :=
    ⟨live, Attributes.single_of_lookup plain, plain, nofun, List.nodup_nil⟩
  have styled := bare.writeStyles written
  exact ⟨_, styled.text, styled.declarations, styled.nodup, fun _ _ => mem_foldl_restyle⟩

/-- A box, not styled yet. -/
def box : Document Unit := (({} : Document Unit).createElement "div").1

/-- The colour of the box is written, then its width, then the colour again. -/
theorem styles_of_box : box.isLive 0 = true ∧ box.attribute? 0 "style" = none ∧
    ∃ ps, declarations (((box.writeStyles 0 [("color", some "red"), ("width", some "4px"),
        ("color", some "rgb(0, 0, 255)")]).attribute? 0 "style").getD "") = ps ∧
      ("width", "4px") ∈ ps ∧ ("color", "rgb(0, 0, 255)") ∈ ps ∧ ("color", "red") ∉ ps := by
  have live : box.isLive 0 = true := by decide
  have plain : box.attribute? 0 "style" = none := by decide
  have written : ∀ w ∈ [("color", some "red"), ("width", some "4px"),
      ("color", some "rgb(0, 0, 255)")], ∀ v ∈ w.2, Declares w.1 v := by
    simp only [List.forall_mem_cons, List.not_mem_nil, false_imp_iff, implies_true, and_true,
      Option.mem_def, Option.some.injEq, forall_eq']
    exact ⟨.of_all (by decide) (by decide) (by decide), .of_all (by decide) (by decide) (by decide),
      .of_all (by decide) (by decide) (by decide)⟩
  obtain ⟨ps, -, read, -, last⟩ := styles_of_writes live plain written
  exact ⟨live, plain, ps, read, (last _ _).mpr (by decide), (last _ _).mpr (by decide),
    fun h => absurd ((last _ _).mp h) (by decide)⟩

/-- An image is lost when the colour is written: the rest of its value after the semicolon is read
as a declaration, and it is none. -/
theorem background_lost_by_write :
    ((box.writeStyles 0 [("background", some "url(data:image/png;base64,AA)"),
        ("color", some "red")]).attribute? 0 "style")
      = some "background: url(data:image/png; color: red" := by decide +kernel

end Document

end ComponentView
