/-!
# Reading text from the front

A `Scan` takes a value off the front of a text, or fails. A choice tries its second part from where
the first one started. Repetition ends by itself: it never takes more turns than there are
characters left.
-/

namespace TreeEdit.Text

/-- A reader of the front of a text. -/
abbrev Scan := StateT (List Char) Option

namespace Scan

/-- Read a whole text. -/
def whole {α : Type} (p : Scan α) (s : String) : Option α :=
  match p s.toList with
  | some (a, []) => some a
  | _ => none

/-- Take a character of a class. -/
def satisfy (ok : Char → Bool) : Scan Char
  | [] => none
  | c :: cs => if ok c then some (c, cs) else none

/-- Take the given character. -/
def char (c : Char) : Scan Unit := do
  let _ ← satisfy (· == c)

/-- Take one of the given characters. -/
def oneOf (s : String) : Scan Char :=
  satisfy (s.toList.contains ·)

/-- Take the given text. -/
def word (s : String) : Scan Unit :=
  s.toList.forM char

/-- Take characters as long as they are of a class. -/
def chars (ok : Char → Bool) : Scan (List Char) :=
  fun cs => some (cs.span ok)

/-- Take at least one character of a class, and as many as there are. -/
def chars1 (ok : Char → Bool) : Scan (List Char) := do
  let first ← satisfy ok
  let rest ← chars ok
  return first :: rest

/-- Succeed where a character of a class comes next, and take nothing. -/
def ahead (ok : Char → Bool) : Scan Unit
  | [] => none
  | c :: cs => if ok c then some ((), c :: cs) else none

/-- Succeed where something does not come next, and take nothing. -/
def notAhead {α : Type} (p : Scan α) : Scan Unit := fun cs =>
  match p cs with
  | some _ => none
  | none => some ((), cs)

/-- Take something as often as it comes, at most the given number of times. -/
def atMost {α : Type} (p : Scan α) : Nat → Scan (List α)
  | 0 => pure []
  | turns + 1 => (do
      let a ← p
      let rest ← atMost p turns
      return a :: rest) <|> pure []

/-- Take something as often as it comes. -/
def many {α : Type} (p : Scan α) : Scan (List α) := do
  let left ← get
  atMost p left.length

/-- Take one or more things with something between them. -/
def sepBy1 {α β : Type} (p : Scan α) (sep : Scan β) : Scan (List α) := do
  let first ← p
  let rest ← many (do
    let _ ← sep
    p)
  return first :: rest

end Scan

/-- The value of a digit in a base of at most sixteen. -/
def digitValue (c : Char) : Nat :=
  if c.isDigit then c.toNat - '0'.toNat
  else if 'a' ≤ c && c ≤ 'f' then c.toNat - 'a'.toNat + 10
  else c.toNat - 'A'.toNat + 10

/-- The number that digits spell in a base. -/
def ofDigits (base : Nat) (digits : List Char) : Nat :=
  digits.foldl (fun n c => n * base + digitValue c) 0

/-- Whether a character is a digit in base sixteen. -/
def isHexDigit (c : Char) : Bool :=
  c.isDigit || ('a' ≤ c && c ≤ 'f') || ('A' ≤ c && c ≤ 'F')

/-- Take the given number of digits in base sixteen. -/
def Scan.hex (count : Nat) : Scan Nat := do
  let digits ← (List.replicate count ()).mapM fun _ => satisfy isHexDigit
  return ofDigits 16 digits

/-- The character of a code point, if it is one. -/
def charOf? (n : Nat) : Option Char :=
  if n.isValidChar then some (Char.ofNat n) else none

end TreeEdit.Text
