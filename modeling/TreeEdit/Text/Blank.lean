/-!
# Blank text

The characters with the Unicode property `White_Space`, and the texts made of them alone.
-/

namespace TreeEdit.Text

/-- Whether a character has the property `White_Space`. -/
def isBlank (c : Char) : Bool :=
  let n := c.toNat
  (0x09 ≤ n && n ≤ 0x0D) || n == 0x20 || n == 0x85 || n == 0xA0 || n == 0x1680 ||
    (0x2000 ≤ n && n ≤ 0x200A) || n == 0x2028 || n == 0x2029 || n == 0x202F || n == 0x205F ||
    n == 0x3000

/-- Whether a text has no character besides white space. -/
def allBlank (s : String) : Bool :=
  s.toList.all isBlank

end TreeEdit.Text
