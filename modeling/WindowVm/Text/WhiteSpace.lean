/-!
# White space

The characters with the Unicode property White_Space: the ASCII controls tab to carriage return,
space, next line, no-break space, ogham space mark, the spaces U+2000 to U+200A, the line and
paragraph separators, the narrow no-break space, the medium mathematical space and the
ideographic space. Settings read from the environment are trimmed of these on both sides.
-/

namespace WindowVm.Text

/-- Whether a character has the Unicode property White_Space. -/
def isWhiteSpace (c : Char) : Bool :=
  let n := c.toNat
  (0x09 ≤ n && n ≤ 0x0D) || n == 0x20 || n == 0x85 || n == 0xA0 || n == 0x1680 ||
    (0x2000 ≤ n && n ≤ 0x200A) || n == 0x2028 || n == 0x2029 || n == 0x202F || n == 0x205F ||
    n == 0x3000

/-- The text without White_Space characters at either end. -/
def trimWhiteSpace (s : String) : String :=
  let drop (cs : List Char) := cs.dropWhile isWhiteSpace
  String.ofList (drop (drop s.toList).reverse).reverse

end WindowVm.Text
