import TreeEdit.Text.Scan

/-!
# JSON documents

`Json.parse?` reads a text by the grammar of JSON. A number is kept only if it is written as
plain digits; of every other number it is enough to know that it is one. A string can be written
so that it stands for no text, with half of a surrogate pair; such a string is kept as `none`.
-/

namespace TreeEdit

/-- A JSON document. -/
inductive Json
  | null
  | bool (b : Bool)
  /-- A number written as digits. -/
  | natural (n : Nat)
  /-- A number written with a sign, a fraction or an exponent. -/
  | otherNumber
  | string (s : Option String)
  | array (items : List Json)
  | object (fields : List (Option String × Json))

namespace Json

open Text Text.Scan

/-- Skip white space. -/
def blanks : Scan Unit := do
  let _ ← chars fun c => c == ' ' || c == '\t' || c == '\n' || c == '\r'

/-- Take something and the white space after it. -/
def token {α : Type} (p : Scan α) : Scan α := do
  let a ← p
  blanks
  return a

/-- A number. -/
def number : Scan Json := do
  let sign ← optional (char '-')
  let digits ← chars1 Char.isDigit
  if digits.length > 1 && digits.head? == some '0' then failure
  let fraction ← optional (do
    char '.'
    chars1 Char.isDigit)
  let exponent ← optional (do
    let _ ← oneOf "eE"
    let _ ← optional (oneOf "+-")
    chars1 Char.isDigit)
  if sign.isNone && fraction.isNone && exponent.isNone then return natural (ofDigits 10 digits)
  else return otherNumber

/-- A part of a string: a character, or a code unit of sixteen bits given by its number. -/
inductive Piece
  | plain (c : Char)
  | unit (n : Nat)

/-- An escape, after its backslash. -/
def escape : Scan Piece := do
  let c ← satisfy fun _ => true
  match c with
  | '"' => return .plain '"'
  | '\\' => return .plain '\\'
  | '/' => return .plain '/'
  | 'b' => return .plain '\x08'
  | 'f' => return .plain '\x0c'
  | 'n' => return .plain '\n'
  | 'r' => return .plain '\r'
  | 't' => return .plain '\t'
  | 'u' => return .unit (← hex 4)
  | _ => failure

/-- A part of a string. -/
def piece : Scan Piece :=
  (do
    char '\\'
    escape) <|>
  Piece.plain <$> satisfy fun c => c.toNat ≥ 0x20 && c != '"' && c != '\\'

/-- The text of the parts of a string. A code unit of the first half of a pair must be followed by
one of the second half. -/
def assemble : List Piece → Option (List Char)
  | [] => some []
  | .plain c :: rest => (assemble rest).map (c :: ·)
  | .unit high :: .unit low :: rest =>
    if 0xD800 ≤ high && high < 0xDC00 then
      if 0xDC00 ≤ low && low < 0xE000 then
        (assemble rest).map
          (Char.ofNat (0x10000 + (high - 0xD800) * 0x400 + (low - 0xDC00)) :: ·)
      else none
    else do
      let c ← charOf? high
      let cs ← assemble (.unit low :: rest)
      return c :: cs
  | .unit n :: rest => do
    let c ← charOf? n
    let cs ← assemble rest
    return c :: cs

/-- A string in quotes. -/
def quotedText : Scan (Option String) := do
  char '"'
  let pieces ← many piece
  char '"'
  return (assemble pieces).map String.ofList

/-- Things with commas between them, in brackets. -/
def bracketed {α : Type} (left right : Char) (p : Scan α) : Scan (List α) := do
  token (char left)
  let items ← sepBy1 p (token (char ',')) <|> pure []
  char right
  return items

/-- A document with at most the given number of levels, and the white space after it. -/
def value : Nat → Scan Json
  | 0 => failure
  | levels + 1 =>
    token <|
      (do
        word "null"
        return null) <|>
      (do
        word "true"
        return bool true) <|>
      (do
        word "false"
        return bool false) <|>
      number <|>
      string <$> quotedText <|>
      array <$> bracketed '[' ']' (value levels) <|>
      object <$> bracketed '\x7b' '\x7d' (do
        let key ← token quotedText
        token (char ':')
        let v ← value levels
        return (key, v))

/-- Read a document. A document has no more levels than characters. -/
def parse? (s : String) : Option Json :=
  whole (do
    blanks
    value (s.length + 1)) s

end Json

end TreeEdit
