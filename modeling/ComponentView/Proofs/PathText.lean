import ComponentView.Proofs.Pieces
import ComponentView.Value.Path

/-! # The text of a path

A path that was read from a text is read again from its own text (`Path.parse_text_parse`), although
the text may be another one: empty pieces are gone, and a position is written without a plus sign
and without zeros in front. Whether a step is a position or a field is not written down. It is found
again because the digits of a position are read as that position (`Segment.number?_toDigits`) and
the text of a field is the very piece that was no position. -/

namespace ComponentView

/-! ## One step -/

namespace Segment

/-- Digits are read as the number that they stand for. -/
theorem number?_of_digits {cs : List Char} (ne : cs ≠ []) (digits : ∀ c ∈ cs, c.isDigit = true) :
    number? cs = some (Nat.ofDigitChars 10 cs 0) := by
  have all : cs.all Char.isDigit = true := List.all_eq_true.mpr digits
  unfold number?
  split
  · -- A plus sign is no digit.
    next rest => exact absurd (digits '+' List.mem_cons_self) (by decide)
  · simp [ne, all, Nat.ofDigitChars]

/-- A number is written in digits. -/
theorem isDigit_of_mem_natText {n : Nat} {c : Char} (hc : c ∈ (Decimal.natText n).toList) :
    c.isDigit = true := by
  rw [Decimal.natText, String.toList_ofList] at hc
  exact Nat.isDigit_of_mem_toDigits (by decide) (by decide) hc

/-- A number is not written as nothing. -/
theorem natText_ne_nil (n : Nat) : (Decimal.natText n).toList ≠ [] := by
  rw [Decimal.natText, String.toList_ofList]
  exact Nat.toDigits_ne_nil

/-- The text of a number is read as that number. -/
theorem number?_natText (n : Nat) : number? (Decimal.natText n).toList = some n := by
  rw [number?_of_digits (natText_ne_nil n) fun _ => isDigit_of_mem_natText, Decimal.natText,
    String.toList_ofList, Nat.ofDigitChars_toDigits (by decide) (by decide)]

/-- The text of a step is the piece that it was read from, or the digits of a position. -/
theorem text_ofChars_cases (cs : List Char) :
    (ofChars cs).text.toList = cs ∨
      ∃ n < Nat.pow 2 64, ofChars cs = .index n ∧ (ofChars cs).text = Decimal.natText n := by
  unfold ofChars
  split
  · next n _ =>
    split
    · next small => exact Or.inr ⟨n, small, rfl, rfl⟩
    · exact Or.inl String.toList_ofList
  · exact Or.inl String.toList_ofList

/-- A step that was read is read again from its text. -/
theorem ofChars_text_ofChars (cs : List Char) : ofChars (ofChars cs).text.toList = ofChars cs := by
  obtain same | ⟨n, small, position, text⟩ := text_ofChars_cases cs
  · rw [same]
  · rw [text, position, ofChars, number?_natText]
    exact if_pos small

/-- The text of a step that was read from a piece of a path text is such a piece. -/
theorem text_ofChars_piece {cs : List Char} (ne : cs ≠ []) (free : '.' ∉ cs) :
    (ofChars cs).text.toList ≠ [] ∧ '.' ∉ (ofChars cs).text.toList := by
  obtain same | ⟨n, -, -, text⟩ := text_ofChars_cases cs
  · rw [same]
    exact ⟨ne, free⟩
  · rw [text]
    exact ⟨natText_ne_nil n, fun dot => absurd (isDigit_of_mem_natText dot) (by decide)⟩

end Segment

/-! ## All steps -/

namespace Path

/-- The text of a path is read step by step, if the text of each step is a piece. -/
theorem parse_text {p : Path}
    (pieces : ∀ s ∈ p, s.text.toList ≠ [] ∧ '.' ∉ s.text.toList) :
    parse p.text = p.map fun s => Segment.ofChars s.text.toList := by
  cases p with
  | nil => rfl
  | cons s rest =>
    -- No piece is empty, so the filter of the reader keeps them all.
    have joined : (text (s :: rest)).toList
        = ['.'].intercalate ((s :: rest).map fun t => t.text.toList) := by
      rw [text, String.toList_intercalate, List.map_map]
      rfl
    have split : Text.splitOn (· == '.') (text (s :: rest)).toList
        = (s :: rest).map fun t => t.text.toList := by
      rw [joined]
      exact Text.splitOn_intercalate (by simpa using fun t ht => (pieces t ht).2) (by simp)
    have full : ((s :: rest).map fun t => t.text.toList).filter (fun piece => !piece.isEmpty)
        = (s :: rest).map fun t => t.text.toList :=
      List.filter_eq_self.mpr (by simpa using fun t ht => (pieces t ht).1)
    rw [parse, split, full, List.map_map]
    rfl

/-- A path that was read is read again from its text. -/
theorem parse_text_parse (s : String) : parse (parse s).text = parse s := by
  rw [parse_text]
  · rw [parse, List.map_map]
    exact List.map_congr_left fun cs _ => Segment.ofChars_text_ofChars cs
  · intro step hs
    obtain ⟨cs, hc, rfl⟩ := List.mem_map.mp hs
    obtain ⟨piece, ne⟩ := List.mem_filter.mp hc
    refine Segment.text_ofChars_piece (by simpa using ne) fun dot => ?_
    simpa using Text.not_sep_of_mem_splitOn piece dot

/-- A path that was read is read again from its text; so different paths that were read have
different texts, and the text of what was read again is the same text. -/
theorem texts_of_parsed (s : String) :
    parse (parse s).text = parse s ∧
      (∀ t, (parse s).text = (parse t).text → parse s = parse t) ∧
      (parse (parse s).text).text = (parse s).text := by
  refine ⟨parse_text_parse s, fun t same => ?_, congrArg text (parse_text_parse s)⟩
  calc parse s = parse (parse s).text := (parse_text_parse s).symm
    _ = parse (parse t).text := by rw [same]
    _ = parse t := parse_text_parse t

example : (parse "a..+007.18446744073709551615.18446744073709551616.+").text
    = "a.7.18446744073709551615.18446744073709551616.+" := by decide +kernel

end Path

end ComponentView
