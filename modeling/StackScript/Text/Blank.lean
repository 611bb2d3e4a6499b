/-!
# Blank characters

The characters that count as white space around a line of input, and the removal of
blanks at both ends of a line. The set is the Unicode property `White_Space`, which is
larger than the ASCII blanks that separate tokens.
-/

namespace StackScript.Text

/-- The characters with the Unicode property `White_Space`. -/
def isBlank (c : Char) : Bool :=
  let code := c.toNat
  (0x09 ≤ code && code ≤ 0x0d) || code == 0x20 || code == 0x85 || code == 0xa0 ||
    code == 0x1680 || (0x2000 ≤ code && code ≤ 0x200a) || code == 0x2028 || code == 0x2029 ||
    code == 0x202f || code == 0x205f || code == 0x3000

/-- A line without blanks at its ends. -/
def trim (line : String) : String :=
  let tail := line.toList.dropWhile isBlank
  String.ofList (tail.reverse.dropWhile isBlank).reverse

end StackScript.Text
