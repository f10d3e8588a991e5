import TreeEdit.Text.Scan

/-!
# TOML white space, comments, keys and quoted texts
-/

namespace TreeEdit.Toml.Read

open Text Text.Scan

/-- Skip spaces and tabs. -/
def blanks : Scan Unit := do
  let _ ← chars fun c => c == ' ' || c == '\t'

/-- The end of a line. -/
def newline : Scan Unit :=
  word "\n" <|> word "\r\n"

/-- Whether a character may stand in a comment or a text: a tab, or anything but a control. -/
def isPlain (c : Char) : Bool :=
  c == '\t' || (c.toNat ≥ 0x20 && c.toNat ≠ 0x7F)

/-- A comment, up to the end of its line. -/
def comment : Scan Unit := do
  char '#'
  let _ ← chars isPlain

/-- Skip white space, comments and ends of lines. -/
def gap : Scan Unit := do
  blanks
  let _ ← many (do
    let _ ← optional comment
    newline
    blanks)

/-- A character given by its number. -/
def codePoint (digits : Nat) : Scan Char := do
  let n ← hex digits
  match charOf? n with
  | some c => return c
  | none => failure

/-- An escape, after its backslash. -/
def escape : Scan Char := do
  let c ← satisfy fun _ => true
  match c with
  | 'b' => return '\x08'
  | 't' => return '\t'
  | 'n' => return '\n'
  | 'f' => return '\x0c'
  | 'r' => return '\r'
  | 'e' => return '\x1b'
  | '"' => return '"'
  | '\\' => return '\\'
  | 'x' => codePoint 2
  | 'u' => codePoint 4
  | 'U' => codePoint 8
  | _ => failure

/-- A character of a text in double quotes. -/
def basicChar : Scan Char :=
  (do
    char '\\'
    escape) <|>
  satisfy fun c => isPlain c && c != '"' && c != '\\'

/-- A text in double quotes. -/
def basicText : Scan String := do
  char '"'
  let cs ← many basicChar
  char '"'
  return String.ofList cs

/-- A text in single quotes. -/
def literalText : Scan String := do
  char '\''
  let cs ← chars fun c => isPlain c && c != '\''
  char '\''
  return String.ofList cs

/-- The rest of a text over several lines, up to three quotes. One or two quotes may stand anywhere
in it, also right before the end. -/
def longRest (quote : Char) (part : Scan Unit) : Scan Unit := do
  let quoteInside : Scan Unit := do
    char quote
    let _ ← optional (char quote)
    ahead (· != quote)
  let _ ← many (part <|> quoteInside)
  char quote
  char quote
  char quote
  let _ ← optional (char quote)
  let _ ← optional (char quote)

/-- A backslash at the end of a line, and all white space after it. -/
def continuation : Scan Unit := do
  char '\\'
  blanks
  newline
  let _ ← many (newline <|> do
    let _ ← oneOf " \t")

/-- A text over several lines in double quotes. -/
def longBasicText : Scan Unit := do
  word "\"\"\""
  longRest '"' ((do
    let _ ← basicChar) <|> continuation <|> newline)

/-- A text over several lines in single quotes. -/
def longLiteralText : Scan Unit := do
  word "'''"
  longRest '\'' ((do
    let _ ← satisfy fun c => isPlain c && c != '\'') <|> newline)

/-- A text. -/
def text : Scan Unit :=
  longBasicText <|> longLiteralText <|>
    (do
      let _ ← basicText) <|>
    (do
      let _ ← literalText)

/-- One part of a key. -/
def keyPart : Scan String :=
  (do
    let cs ← chars1 fun c => c.isAlphanum || c == '_' || c == '-'
    return String.ofList cs) <|>
  basicText <|> literalText

/-- The most parts in one key. -/
def maxParts : Nat := 80

/-- A key: parts with dots between them, all on one line. -/
def key : Scan (List String) := do
  let parts ← sepBy1 keyPart (do
    blanks
    char '.'
    blanks)
  if parts.length ≤ maxParts then return parts else failure

end TreeEdit.Toml.Read
