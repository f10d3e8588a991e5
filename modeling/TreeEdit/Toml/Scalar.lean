import TreeEdit.Text.Scan
import TreeEdit.Toml.Basic

/-!
# Unquoted TOML values

Truth values, numbers, dates and times. An integer is first told by how it looks, and some words that
look like one spell no number. They are let through here, and missed by whoever asks for the number.
-/

namespace TreeEdit.Toml.Read

open Text Text.Scan

/-- Digits, with single underscores between them. -/
def digitRun (ok : Char → Bool) : Scan (List Char) := do
  let first ← satisfy ok
  let rest ← many (do
    let _ ← optional (char '_')
    satisfy ok)
  return first :: rest

/-- Digits of a decimal number without a leading zero. -/
def decimalRun : Scan (List Char) := do
  let digits ← digitRun Char.isDigit
  if digits.length > 1 && digits.head? == some '0' then failure
  return digits

/-- A sign, and whether it is a minus. -/
def sign : Scan Bool := do
  let c ← optional (oneOf "+-")
  return c == some '-'

/-- A truth value. -/
def boolean : Scan Toml :=
  (do
    word "true"
    return .boolean true) <|>
  (do
    word "false"
    return .boolean false)

/-- The digits of an integer in a base other than ten, which may be missing. -/
def radixDigits (base : Nat) (ok : Char → Bool) : Scan Toml := do
  let digits ← optional (digitRun ok)
  return .integer (digits.map fun ds => ofDigits base ds)

/-- An integer in a base other than ten. -/
def radixInteger : Scan Toml := do
  char '0'
  let base ← oneOf "xob"
  match base with
  | 'x' => radixDigits 16 isHexDigit
  | 'o' => radixDigits 8 fun c => '0' ≤ c && c ≤ '7'
  | _ => radixDigits 2 fun c => c == '0' || c == '1'

/-- An integer in base ten. -/
def integer : Scan Toml := do
  let negative ← sign
  let n := ofDigits 10 (← decimalRun)
  return .integer (some (if negative then -n else n))

/-- The least number that is rounded to infinity in double precision. -/
def overflowBound : Nat :=
  Nat.pow 2 1024 - Nat.pow 2 970

/-- Whether `mantissa * 10 ^ exponent` is within the range of double precision. Numbers with far too
many or far too few places are told apart without being computed. -/
def inRange (mantissa : Nat) (exponent : Int) : Bool :=
  let places : Int := (Nat.toDigits 10 mantissa).length + exponent
  if mantissa = 0 || places < 300 then true
  else if places > 320 then false
  else if exponent ≥ 0 then mantissa * Nat.pow 10 exponent.toNat < overflowBound
  else mantissa < overflowBound * Nat.pow 10 (-exponent).toNat

/-- An exponent. -/
def exponentPart : Scan Int := do
  let _ ← oneOf "eE"
  let negative ← sign
  let n := ofDigits 10 (← digitRun Char.isDigit)
  return if negative then -n else n

/-- A number with a fraction, an exponent or both. -/
def decimal : Scan Toml := do
  let _ ← sign
  let whole ← decimalRun
  let fraction ← optional (do
    char '.'
    digitRun Char.isDigit)
  let exponent ← optional exponentPart
  if fraction.isNone && exponent.isNone then failure
  let digits := whole ++ fraction.getD []
  return .float (inRange (ofDigits 10 digits) (exponent.getD 0 - (fraction.getD []).length))

/-- Infinity, or no number. -/
def specialFloat : Scan Toml := do
  let _ ← sign
  word "inf" <|> word "nan"
  return .float true

/-- A number of the given count of digits. -/
def fixedDigits (count : Nat) : Scan Nat := do
  let digits ← (List.replicate count ()).mapM fun _ => satisfy Char.isDigit
  return ofDigits 10 digits

/-- The number of days of a month. -/
def daysIn (year month : Nat) : Nat :=
  if month = 2 then
    if year % 4 = 0 && (year % 100 ≠ 0 || year % 400 = 0) then 29 else 28
  else if month = 4 || month = 6 || month = 9 || month = 11 then 30
  else 31

/-- A day of the calendar. -/
def date : Scan Unit := do
  let year ← fixedDigits 4
  char '-'
  let month ← fixedDigits 2
  char '-'
  let day ← fixedDigits 2
  if month < 1 || month > 12 || day < 1 || day > daysIn year month then failure

/-- A time of day. Seconds may be left out. -/
def time : Scan Unit := do
  let hour ← fixedDigits 2
  char ':'
  let minute ← fixedDigits 2
  if hour > 23 || minute > 59 then failure
  let _ ← optional (do
    char ':'
    let second ← fixedDigits 2
    if second > 60 then failure
    let _ ← optional (do
      char '.'
      chars1 Char.isDigit))

/-- The distance from universal time. -/
def offset : Scan Unit :=
  (do
    let _ ← oneOf "Zz") <|>
  (do
    let _ ← oneOf "+-"
    let hour ← fixedDigits 2
    char ':'
    let minute ← fixedDigits 2
    if hour > 23 || minute > 59 then failure)

/-- A day, a time, or both, and then perhaps the distance from universal time. -/
def dateTime : Scan Toml :=
  (do
    date
    let _ ← optional (do
      let _ ← oneOf "Tt "
      time
      let _ ← optional offset)
    return .dateTime) <|>
  (do
    time
    return .dateTime)

/-- Whether a character can be part of a word: anything but white space, the start of a comment and
the marks that stand between keys and values. -/
def isWordChar (c : Char) : Bool :=
  !(" \t\r\n#.=,[]\x7b\x7d".toList.contains c)

/-- Whether every underscore stands between two digits in base sixteen. -/
def underscoresInside (cs : List Char) : Bool :=
  cs.getLast? != some '_' &&
    (cs.zip cs.tail).all fun (a, b) => (a != '_' || isHexDigit b) && (b != '_' || isHexDigit a)

/-- One more word after tabs. -/
def nextWord : Scan (List Char) := do
  let tabs ← chars1 (· == '\t')
  ahead fun c => c != '"' && c != '\''
  let cs ← chars1 isWordChar
  return tabs ++ cs

/-- Words that look like an integer and spell none. The first of them starts with a digit other than
zero, and an underscore is the first thing after its digits. Underscores are placed as in an integer
in base sixteen, and there is no sign of an exponent. -/
def strayInteger : Scan Toml := do
  let _ ← sign
  ahead fun c => '1' ≤ c && c ≤ '9'
  let first ← chars1 isWordChar
  let more ← many nextWord
  let all := first ++ more.flatten
  if (all.dropWhile Char.isDigit).head? == some '_' && underscoresInside all &&
      !all.any fun c => c == 'e' || c == 'E' then
    return .integer none
  failure

/-- Read all of the next words as something. -/
def filling (p : Scan Toml) : Scan Toml := do
  let v ← p
  notAhead (satisfy fun c => c == '.' || isWordChar c)
  notAhead nextWord
  return v

/-- An unquoted value. -/
def scalar : Scan Toml :=
  filling boolean <|> filling dateTime <|> filling radixInteger <|> filling integer <|>
    filling decimal <|> filling specialFloat <|> filling strayInteger

end TreeEdit.Toml.Read
