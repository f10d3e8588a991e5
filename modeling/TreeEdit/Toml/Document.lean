import TreeEdit.Toml.Scalar
import TreeEdit.Toml.Text

/-!
# Reading TOML documents

A document is a sequence of lines: a key with a value, the header of a table, or nothing. The lines
are carried out in order on a table under construction.
-/

namespace TreeEdit.Toml

namespace Read

open Text Text.Scan

/-- Things with commas between them, with gaps anywhere and perhaps a comma at the end. -/
def listed {α : Type} (left right : Char) (p : Scan α) : Scan (List α) := do
  char left
  gap
  let items ← (do
    let items ← sepBy1 (do
      let a ← p
      gap
      return a) (do
      char ','
      gap)
    let _ ← optional (do
      char ','
      gap)
    return items) <|> pure []
  char right
  return items

/-- A key with a value: the parts of the key before the last, the last part, and the value. -/
structure Assignment where
  path : List String
  key : String
  value : Toml

/-- A key with a value, and what may be skipped on both sides of the equals sign. -/
def assignment (skip : Scan Unit) (value : Scan Toml) : Scan Assignment := do
  let parts ← key
  skip
  char '='
  skip
  let v ← value
  match parts.getLast? with
  | some last => return ⟨parts.dropLast, last, v⟩
  | none => failure

/-- Add an assignment to a table. -/
def Assignment.addTo (fields : Fields) (a : Assignment) : Option Fields :=
  fields.insert a.key a.value a.path

/-- The most levels of brackets and braces in one value. -/
def maxLevels : Nat := 80

/-- A value with at most the given number of levels. -/
def value : Nat → Scan Toml
  | 0 => (do
      text
      return .text) <|> scalar
  | levels + 1 =>
    (do
      text
      return .text) <|>
    (do
      let items ← listed '[' ']' (value levels)
      return .array items) <|>
    (do
      let items ← listed '\x7b' '\x7d' (assignment gap (value levels))
      match items.foldlM Assignment.addTo [] with
      | some fields => return .table (finishFields fields)
      | none => failure) <|>
    scalar

/-- A line that says something. -/
inductive Line
  | assignment (a : Assignment)
  | header (repeated : Bool) (path : List String)

/-- A header in the given brackets. -/
def header (left right : String) : Scan (List String) := do
  word left
  blanks
  let path ← key
  blanks
  word right
  return path

/-- A line, without its end. -/
def line : Scan (Option Line) := do
  blanks
  let l ← optional <|
    Line.assignment <$> assignment blanks (value maxLevels) <|>
    Line.header true <$> header "[[" "]]" <|>
    Line.header false <$> header "[" "]"
  blanks
  let _ ← optional comment
  return l

/-- The lines of a document that say something. A mark of byte order may come first. -/
def lines : Scan (List Line) := do
  let _ ← optional (char '\ufeff')
  let ls ← sepBy1 line newline
  return ls.filterMap id

/-- A document under construction: the path of the last header, and all that stands in it. -/
structure Draft where
  path : List String := []
  fields : Fields := []

/-- Carry out a line. -/
def Draft.add (d : Draft) : Line → Option Draft
  | .assignment a => do
    let fields ← d.fields.within (a.addTo ·) d.path
    return { d with fields }
  | .header repeated path => do
    let fields ← d.fields.define repeated path
    return { path, fields }

end Read

/-- Read a document. -/
def parse? (s : String) : Option (List (String × Toml)) := do
  let ls ← Text.Scan.whole Read.lines s
  let draft ← ls.foldlM Read.Draft.add {}
  return finishFields draft.fields

end TreeEdit.Toml
