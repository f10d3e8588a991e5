import TreeEdit.Text.Unprintable

/-!
# Quoted text

A text in double quotes, with the quote, the backslash and everything that does not show on paper
written as an escape.
-/

namespace TreeEdit.Text

/-- One character inside quotes. -/
def escape (c : Char) : String :=
  if c == '"' then "\\\""
  else if c == '\\' then "\\\\"
  else if c == '\n' then "\\n"
  else if c == '\r' then "\\r"
  else if c == '\t' then "\\t"
  else if c == '\x00' then "\\0"
  else if isUnprintable c then "\\u\x7b" ++ String.ofList (Nat.toDigits 16 c.toNat) ++ "\x7d"
  else c.toString

/-- A text in quotes. -/
def quoted (s : String) : String :=
  "\"" ++ String.join (s.toList.map escape) ++ "\""

end TreeEdit.Text
