import GrammarForge.Text.CodeRanges

set_option autoImplicit false

/-!
# Blank characters

The blanks of all scripts, line ends among them, and texts without the blanks around them.

## Main definitions

* `isBlank` — whether a character is blank.
* `trimBlanks` — a text without the blanks at its two ends.
-/

namespace GrammarForge

/-- Characters that part words and lines. -/
def blankRanges : CodeRanges :=
  [(0x09, 0x0d), (0x20, 0x20), (0x85, 0x85), (0xa0, 0xa0), (0x1680, 0x1680), (0x2000, 0x200a),
   (0x2028, 0x2029), (0x202f, 0x202f), (0x205f, 0x205f), (0x3000, 0x3000)]

/-- Whether `c` is a blank of any script. -/
def isBlank (c : Char) : Bool := blankRanges.has c

/-- A text without the blanks at its two ends. -/
def trimBlanks (cs : List Char) : List Char :=
  ((cs.dropWhile isBlank).reverse.dropWhile isBlank).reverse

end GrammarForge
