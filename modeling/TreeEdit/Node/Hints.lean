import TreeEdit.Error
import TreeEdit.Text.Blank

/-!
# Formatting hints

The preferences that annotations in the source attach to a node. Custom hints are kept in the
order of their keys, so that equal sets of hints are equal values.
-/

namespace TreeEdit

/-- How lines are indented. -/
inductive IndentStyle
  | spaces
  | tabs
  | mixed
  deriving DecidableEq, Repr

namespace IndentStyle

/-- The word for an indentation style. -/
def name : IndentStyle → String
  | spaces => "spaces"
  | tabs => "tabs"
  | mixed => "mixed"

/-- The indentation style of the given word. -/
def ofName? (s : String) : Option IndentStyle :=
  [spaces, tabs, mixed].find? (·.name == s)

end IndentStyle

/-- Preferences for the layout of one node. -/
structure Hints where
  noFormat : Bool := false
  lineLength : Option Nat := none
  indentStyle : Option IndentStyle := none
  /-- Free hints, in the order of their keys. -/
  custom : List (String × String) := []
  deriving DecidableEq, Repr

namespace Hints

/-- Put a key and a value into a list ordered by keys. The value of a key that is there already
is overwritten. -/
def insertSorted (key value : String) : List (String × String) → List (String × String)
  | [] => [(key, value)]
  | (k, v) :: rest =>
    if key < k then (key, value) :: (k, v) :: rest
    else if key = k then (key, value) :: rest
    else (k, v) :: insertSorted key value rest

/-- Add a free hint. -/
def withCustom (h : Hints) (key value : String) : Hints :=
  { h with custom := insertSorted key value h.custom }

/-- The free hint of a key. -/
def custom? (h : Hints) (key : String) : Option String :=
  h.custom.lookup key

/-- Whether any preference is set. -/
def hasPreferences (h : Hints) : Bool :=
  h.noFormat || h.lineLength.isSome || h.indentStyle.isSome || !h.custom.isEmpty

/-- Refuse a line length that is too small, then a blank key. -/
def validate (h : Hints) : Verdict Unit :=
  match h.lineLength.filter (· ≤ minLineLength) with
  | some length => .error (.node (.lineLength length))
  | none =>
    if h.custom.any (Text.allBlank ·.1) then .error (.node .blankHintKey) else .ok ()

/-- Hints with a preferred line length only. -/
def withLineLength (length : Nat) : Verdict Hints := do
  let h : Hints := { lineLength := some length }
  h.validate
  return h

/-- Hints with an indentation style only. -/
def withIndentStyle (style : IndentStyle) : Hints :=
  { indentStyle := some style }

end Hints

end TreeEdit
