/-!
Blank characters: those with the property of being white space, of which ASCII has six.
-/

namespace Concord.Text

/-- Whether a character is white space. -/
def isBlank (c : Char) : Bool :=
  let n := c.toNat
  (9 ≤ n && n ≤ 13) || n = 0x20 || n = 0x85 || n = 0xA0 || n = 0x1680
    || (0x2000 ≤ n && n ≤ 0x200A) || n = 0x2028 || n = 0x2029 || n = 0x202F || n = 0x205F
    || n = 0x3000

/-- What follows the white space at the start of a text. -/
def skipBlanks (cs : List Char) : List Char :=
  cs.dropWhile isBlank

end Concord.Text
