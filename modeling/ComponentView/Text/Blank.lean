/-! # Blanks and tokens

Class attributes, style attributes and toggle targets are texts made of pieces: words between
blanks, declarations between semicolons, a name and a value around a colon. This module holds the
blanks of Unicode and the three ways of taking such a text apart. Nothing is lost by a split:
`splitOn_flatten` puts the pieces back together, and no piece holds a separator
(`not_sep_of_mem_splitOn`). -/

namespace ComponentView.Text

/-! ## The property White_Space -/

/-- The code points with the Unicode property White_Space, as closed ranges in increasing order. -/
def blankRanges : List (Nat × Nat) :=
  [(0x9, 0xD), (0x20, 0x20), (0x85, 0x85), (0xA0, 0xA0), (0x1680, 0x1680), (0x2000, 0x200A),
    (0x2028, 0x2029), (0x202F, 0x202F), (0x205F, 0x205F), (0x3000, 0x3000)]

/-- A blank is a character with the property White_Space. -/
def isBlank (c : Char) : Bool :=
  blankRanges.any fun r => r.1 ≤ c.toNat && c.toNat ≤ r.2

/-- The characters that the core library calls white space are blanks. -/
theorem isBlank_of_isWhitespace {c : Char} (h : c.isWhitespace = true) : isBlank c = true := by
  simp only [Char.isWhitespace, Bool.or_eq_true, decide_eq_true_eq] at h
  rcases h with ((rfl | rfl) | rfl) | rfl <;> rfl

/-! ## Pieces between separators -/

/-- The pieces of a text between the characters that satisfy `sep`; a text with `n` separators has
`n + 1` pieces, some of which may be empty. -/
def splitOn (sep : Char → Bool) : List Char → List (List Char)
  | [] => [[]]
  | c :: rest =>
    if sep c then [] :: splitOn sep rest
    else match splitOn sep rest with
      | [] => [[c]]
      | piece :: pieces => (c :: piece) :: pieces

/-- A text always has a first piece. -/
theorem splitOn_ne_nil (sep : Char → Bool) (cs : List Char) : splitOn sep cs ≠ [] := by
  cases cs with
  | nil => simp [splitOn]
  | cons c rest =>
    unfold splitOn
    split
    · simp
    · split <;> simp

/-- The pieces, one after the other, are the text without its separators. -/
theorem splitOn_flatten (sep : Char → Bool) (cs : List Char) :
    (splitOn sep cs).flatten = cs.filter (fun c => !sep c) := by
  induction cs with
  | nil => rfl
  | cons c rest ih =>
    unfold splitOn
    split
    · next h => simp [h, ih]
    · next h =>
      split
      · next he => exact absurd he (splitOn_ne_nil sep rest)
      · next piece pieces he =>
        rw [he] at ih
        simpa [h] using ih

/-- No piece holds a separator. -/
theorem not_sep_of_mem_splitOn {sep : Char → Bool} {cs piece : List Char} {c : Char}
    (hp : piece ∈ splitOn sep cs) (hc : c ∈ piece) : sep c = false := by
  have hm : c ∈ (splitOn sep cs).flatten := List.mem_flatten.mpr ⟨piece, hp, hc⟩
  rw [splitOn_flatten] at hm
  simpa using (List.mem_filter.mp hm).2

/-- The words of a text are its non-empty pieces between blanks. -/
def words (s : String) : List String :=
  ((splitOn isBlank s.toList).filter fun w => !w.isEmpty).map String.ofList

/-- The pieces of a text between occurrences of one character. -/
def fields (sep : Char) (s : String) : List String :=
  (splitOn (· == sep) s.toList).map String.ofList

/-! ## Cutting and trimming -/

/-- The parts before and after the first occurrence of `sep`, if there is one. -/
def cut (sep : Char) : List Char → Option (List Char × List Char)
  | [] => none
  | c :: rest =>
    if c = sep then some ([], rest)
    else (cut sep rest).map fun parts => (c :: parts.1, parts.2)

/-- A text can be cut exactly when it holds the separator. -/
theorem cut_isSome_iff (sep : Char) (cs : List Char) : (cut sep cs).isSome ↔ sep ∈ cs := by
  induction cs with
  | nil => simp [cut]
  | cons c rest ih =>
    unfold cut
    split
    · next h => simp [h]
    · next h => simp [ih, Ne.symm h]

/-- A text without the blanks at its two ends. -/
def trim (cs : List Char) : List Char :=
  ((cs.dropWhile isBlank).reverse.dropWhile isBlank).reverse

end ComponentView.Text
