import ComponentView.Text.Printable

/-! # Quoted texts

A text inside a message stands between double quotes, with everything that would not show as itself
written as an escape. The quote character itself is written behind a backslash (`escape_quote`). -/

namespace ComponentView.Text

/-- The digits of a number in base sixteen, in lower case. -/
def hex (n : Nat) : String := String.ofList (Nat.toDigits 16 n)

/-- A character as it stands between quotes: the five short escapes, a printable character as
itself, and any other by its number. -/
def escape (c : Char) : String :=
  match c with
  | '\x00' => "\\0"
  | '\t' => "\\t"
  | '\r' => "\\r"
  | '\n' => "\\n"
  | '\\' => "\\\\"
  | '"' => "\\\""
  | c => if isPrintable c then c.toString else "\\u\x7b" ++ hex c.toNat ++ "\x7d"

/-- A text between double quotes. -/
def quoted (s : String) : String :=
  "\"" ++ String.join (s.toList.map escape) ++ "\""

/-- The quote character is written with a backslash. -/
theorem escape_quote : escape '"' = "\\\"" := rfl

end ComponentView.Text
