/-!
# Blank characters

The characters with the Unicode property `White_Space`: tab, line feed, vertical tab, form feed,
carriage return, space, next line, no-break space, ogham space mark, the spaces from en quad to
hair space, line and paragraph separator, narrow no-break space, medium mathematical space and
ideographic space.  Trimming a text removes them from both ends, or from its end only.
-/

namespace StackScript.Text

/-- Whether a character has the Unicode property `White_Space`. -/
def isWhiteSpace (c : Char) : Bool :=
  let n := c.toNat
  (0x09 ≤ n && n ≤ 0x0D) || n = 0x20 || n = 0x85 || n = 0xA0 || n = 0x1680 ||
    (0x2000 ≤ n && n ≤ 0x200A) || n = 0x2028 || n = 0x2029 || n = 0x202F || n = 0x205F ||
    n = 0x3000

/-- A text without the blank characters at its two ends. -/
def trimBlank (s : String) : String :=
  String.ofList ((s.toList.dropWhile isWhiteSpace).reverse.dropWhile isWhiteSpace).reverse

/-- A text without the blank characters at its end. -/
def trimBlankEnd (s : String) : String :=
  String.ofList (s.toList.reverse.dropWhile isWhiteSpace).reverse

end StackScript.Text
