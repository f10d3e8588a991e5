import TreeEdit.Node.Kind

/-!
# Source positions, ranges and stable names

A `StableId` names a place in the source text by construct and range. Rebuilding a node keeps
both, so the name survives every edit.
-/

namespace TreeEdit

/-- A line and a column. -/
structure Position where
  line : Nat
  column : Nat
  deriving DecidableEq, Repr, Ord, Inhabited

namespace Position

/-- The order in the text: by line, then by column. -/
def le (a b : Position) : Bool :=
  a.line < b.line || (a.line == b.line && a.column ≤ b.column)

/-- The text form `line:column`. -/
def describe (p : Position) : String :=
  s!"{p.line}:{p.column}"

end Position

/-- A stretch of source text. Nothing forces the end to follow the start. -/
structure Range where
  start : Position
  stop : Position
  deriving DecidableEq, Repr, Ord, Inhabited

namespace Range

/-- Whether the range reaches around another one. -/
def contains (a b : Range) : Bool :=
  a.start.le b.start && b.stop.le a.stop

/-- The text form `line:column-line:column`. -/
def describe (r : Range) : String :=
  s!"{r.start.describe}-{r.stop.describe}"

end Range

/-- The name of a place in the source: a construct and its range. -/
structure StableId where
  kind : Kind
  range : Range
  deriving DecidableEq, Repr, Ord

namespace StableId

/-- The text form `Kind@range`. -/
def describe (s : StableId) : String :=
  s!"{s.kind.name}@{s.range.describe}"

/-- The order of stable names: by construct, then by start, then by end. -/
def le (a b : StableId) : Bool :=
  (compare a b).isLE

/-- Stable names in order. -/
def sort (names : List StableId) : List StableId :=
  names.mergeSort le

end StableId

/-- The number of a slot in a store. -/
abbrev NodeId := Nat

/-- The text form of a slot number. -/
def NodeId.describe (id : NodeId) : String :=
  s!"#{id}"

end TreeEdit
