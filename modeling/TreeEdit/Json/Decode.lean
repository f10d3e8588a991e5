import TreeEdit.Json.Basic
import TreeEdit.Node.Basic

/-!
# Node values from JSON

A value with fields is written as an object, or as an array of all its fields in order. In an object
unknown fields are passed over, a known field stands at most once, and only an optional field may be
left out. A word out of a list is written as a string, or as an object with the word as its only key
and `null` as its value.
-/

namespace TreeEdit

namespace Json

/-- A number below a bound. -/
def naturalBelow? (bound : Nat) : Json → Option Nat
  | natural n => if n < bound then some n else none
  | _ => none

/-- A number of thirty-two bits. -/
def word32? : Json → Option Nat :=
  naturalBelow? (Nat.pow 2 32)

/-- A number of sixty-four bits. -/
def word64? : Json → Option Nat :=
  naturalBelow? (Nat.pow 2 64)

/-- A truth value. -/
def bool? : Json → Option Bool
  | bool b => some b
  | _ => none

/-- A text. -/
def text? : Json → Option String
  | string s => s
  | _ => none

/-- A word out of a list. -/
def choice? {α : Type} (ofName? : String → Option α) : Json → Option α
  | string (some s) => ofName? s
  | object [(some s, null)] => ofName? s
  | _ => none

/-- What an object says about one of its fields. A field that stands twice is refused. -/
def field? (fields : List (Option String × Json)) (name : String) : Option (Option Json) :=
  match fields.filter (·.1 == some name) with
  | [] => some none
  | [(_, v)] => some (some v)
  | _ => none

/-- The values of the named fields of a record. An array must not be longer than the list of fields,
nor shorter unless `short` allows it. -/
def record? (short : Bool) (names : List String) : Json → Option (List (Option Json))
  | object fields => if fields.all (·.1.isSome) then names.mapM (field? fields) else none
  | array items =>
    if items.length = names.length || (short && items.length < names.length) then
      some (items.map some ++ List.replicate (names.length - items.length) none)
    else none
  | _ => none

/-- The value of an optional field. -/
def orNull? {α : Type} (decode : Json → Option α) : Option Json → Option (Option α)
  | none => some none
  | some null => some none
  | some v => (decode v).map some

/-- A record of exactly two fields. -/
def pair? {α β : Type} (first second : String) (a : Json → Option α) (b : Json → Option β)
    (v : Json) : Option (α × β) := do
  match ← v.record? false [first, second] with
  | [some x, some y] => return (← a x, ← b y)
  | _ => none

end Json

/-- A position with the fields `line` and `column`. -/
def Position.ofJson? (v : Json) : Option Position := do
  let (line, column) ← v.pair? "line" "column" Json.word32? Json.word32?
  return ⟨line, column⟩

/-- A range with the fields `start` and `end`. -/
def Range.ofJson? (v : Json) : Option Range := do
  let (start, stop) ← v.pair? "start" "end" Position.ofJson? Position.ofJson?
  return ⟨start, stop⟩

/-- The name of a construct. -/
def Kind.ofJson? : Json → Option Kind :=
  Json.choice? Kind.ofName?

/-- A stable name with the fields `kind` and `range`. -/
def StableId.ofJson? (v : Json) : Option StableId := do
  let (kind, range) ← v.pair? "kind" "range" Kind.ofJson? Range.ofJson?
  return ⟨kind, range⟩

/-- The word for a form of comment. -/
def CommentKind.ofJson? : Json → Option CommentKind :=
  Json.choice? CommentKind.ofName?

/-- A comment with the fields `kind` and `text`. -/
def Comment.ofJson? (v : Json) : Option Comment := do
  let (kind, text) ← v.pair? "kind" "text" CommentKind.ofJson? Json.text?
  return ⟨kind, text⟩

/-- White space with the fields `leading` and `trailing`. -/
def Whitespace.ofJson? (v : Json) : Option Whitespace := do
  let (leading, trailing) ← v.pair? "leading" "trailing" Json.text? Json.text?
  return ⟨leading, trailing⟩

/-- The word for an indentation style. -/
def IndentStyle.ofJson? : Json → Option IndentStyle :=
  Json.choice? IndentStyle.ofName?

/-- Free hints: an object of texts. Of a key that stands twice the last value counts. -/
def Hints.customOfJson? : Json → Option (List (String × String))
  | .object fields => do
    let pairs ← fields.mapM fun (key, v) => do return (← key, ← v.text?)
    return pairs.foldl (fun sorted (key, value) => insertSorted key value sorted) []
  | _ => none

/-- Hints with the fields `noFormat`, `preferredLineLength`, `indentStyle` and `customHints`. The
two in the middle are optional. -/
def Hints.ofJson? (v : Json) : Option Hints := do
  let names := ["noFormat", "preferredLineLength", "indentStyle", "customHints"]
  match ← v.record? false names with
  | [some noFormat, lineLength, indentStyle, some custom] =>
    return {
      noFormat := ← noFormat.bool?
      lineLength := ← Json.orNull? Json.word32? lineLength
      indentStyle := ← Json.orNull? IndentStyle.ofJson? indentStyle
      custom := ← customOfJson? custom }
  | _ => none

end TreeEdit
