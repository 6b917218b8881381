import ComponentView.Text.Blank

/-! # Taking apart what was joined

Pieces that hold no separator are found again when they are joined with separators and the text is
split, or the two sides of a separator when the text is cut. Blanks around a piece go with
trimming. The words of texts that are joined with blanks are the words of each
(`words_intercalate`). -/

namespace ComponentView.Text

variable {sep : Char → Bool} {c : Char} {piece rest : List Char}

/-- A split finds the pieces that the list library finds. -/
theorem splitOn_eq_splitOnP (sep : Char → Bool) (cs : List Char) :
    splitOn sep cs = cs.splitOnP sep := by
  induction cs with
  | nil => rw [splitOn, List.splitOnP_nil]
  | cons c rest ih =>
    rw [splitOn, List.splitOnP_cons_eq_if_modifyHead, ← ih]
    split
    · rfl
    · split
      · next he => exact absurd he (splitOn_ne_nil sep rest)
      · next he => rw [he, List.modifyHead_cons]

/-- Pieces without the separator are found again. -/
theorem splitOn_intercalate {pieces : List (List Char)} (free : ∀ p ∈ pieces, c ∉ p)
    (ne : pieces ≠ []) : splitOn (· == c) ([c].intercalate pieces) = pieces := by
  rw [splitOn_eq_splitOnP, ← List.splitOn_eq_splitOnP]
  exact List.splitOn_intercalate c free ne

/-- Before the first separator comes the first piece. -/
theorem splitOn_append_cons (free : ∀ x ∈ piece, sep x = false) (hc : sep c = true)
    (rest : List Char) : splitOn sep (piece ++ c :: rest) = piece :: splitOn sep rest := by
  rw [splitOn_eq_splitOnP, splitOn_eq_splitOnP, List.splitOnP_append_cons piece rest hc,
    List.splitOnP_eq_singleton free]
  rfl

/-- A separator anywhere parts a text. -/
theorem splitOn_append (hc : sep c = true) (cs rest : List Char) :
    splitOn sep (cs ++ c :: rest) = splitOn sep cs ++ splitOn sep rest := by
  rw [splitOn_eq_splitOnP, splitOn_eq_splitOnP, splitOn_eq_splitOnP,
    List.splitOnP_append_cons cs rest hc]

/-- A text without a separator is one piece. -/
theorem splitOn_of_free (free : ∀ x ∈ piece, sep x = false) : splitOn sep piece = [piece] := by
  rw [splitOn_eq_splitOnP, List.splitOnP_eq_singleton free]

/-- A text is cut at its first separator. -/
theorem cut_append_cons (free : c ∉ piece) (rest : List Char) :
    cut c (piece ++ c :: rest) = some (piece, rest) := by
  induction piece with
  | nil => rw [List.nil_append, cut, if_pos rfl]
  | cons x piece ih =>
    rw [List.mem_cons, not_or] at free
    rw [List.cons_append, cut, if_neg (Ne.symm free.1), ih free.2]
    rfl

/-- Blanks in front are trimmed. -/
theorem trim_append {blanks : List Char} (blank : ∀ x ∈ blanks, isBlank x = true)
    (cs : List Char) : trim (blanks ++ cs) = trim cs := by
  rw [trim, trim, List.dropWhile_append_of_pos blank]

/-- A piece without blanks is trimmed already. -/
theorem trim_of_free (free : ∀ x ∈ piece, isBlank x = false) : trim piece = piece := by
  have none {cs : List Char} (h : ∀ x ∈ cs, isBlank x = false) : cs.dropWhile isBlank = cs := by
    cases cs with
    | nil => rfl
    | cons x rest => rw [List.dropWhile_cons_of_neg (by simp [h x List.mem_cons_self])]
  rw [trim, none free, none fun x hx => free x (List.mem_reverse.mp hx), List.reverse_reverse]

/-! ## Words -/

/-- The words of texts that are joined with blanks are the words of each. -/
theorem words_intercalate (texts : List String) :
    words (" ".intercalate texts) = texts.flatMap words := by
  have blank : isBlank ' ' = true := rfl
  induction texts with
  | nil => rfl
  | cons text rest ih =>
    cases rest with
    | nil => simp
    | cons next rest =>
      rw [List.flatMap_cons, ← ih, String.intercalate_cons_cons]
      simp only [words, String.toList_append, List.append_assoc]
      rw [show " ".toList = [' '] from rfl, List.singleton_append, splitOn_append blank,
        List.filter_append, List.map_append]

/-- A word is its only word. -/
theorem words_of_mem {text word : String} (h : word ∈ words text) : words word = [word] := by
  obtain ⟨piece, hp, rfl⟩ := List.mem_map.mp h
  obtain ⟨hm, ne⟩ := List.mem_filter.mp hp
  rw [words, String.toList_ofList, splitOn_of_free fun c hc => not_sep_of_mem_splitOn hm hc]
  simp [ne]

end ComponentView.Text
