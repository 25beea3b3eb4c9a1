import GrammarForge.Text.Blank
import GrammarForge.Text.Escape
import GrammarForge.Text.Marks
import GrammarForge.Text.Unassigned

set_option autoImplicit false

/-!
# Quoted characters and texts

Error messages quote what they found: a character between single quotes, a text between
double quotes. Inside, the quote in use and the backslash are escaped, four control
characters have short forms, and whatever would not be seen on its own is written by
its code between braces.

## Main definitions

* `isInvisible` — characters that leave no mark of their own on a page.
* `quoteChar`, `quoteText` — a character and a text in quotes.
-/

namespace GrammarForge

/-- Control characters. -/
def controlRanges : CodeRanges := [(0x0, 0x1f), (0x7f, 0x9f)]

/-- A character that would not be seen, or not as itself, when printed between quotes: a
control, a blank other than the plain space, a mark, a code without a character. -/
def isInvisible (c : Char) : Bool :=
  controlRanges.has c || (isBlank c && c != ' ') || formatRanges.has c || fillerRanges.has c ||
    nonspacingMarks.has c || attachedMarks.has c || unassignedRanges.has c

/-- The form of `c` between quotes of the kind `quote`. -/
def quotedForm (quote c : Char) : List Char :=
  if c = '\x00' then ['\\', '0']
  else if c = '\t' then ['\\', 't']
  else if c = '\r' then ['\\', 'r']
  else if c = '\n' then ['\\', 'n']
  else if c = '\\' || c = quote then ['\\', c]
  else if isInvisible c then '\\' :: 'u' :: '\x7b' :: hexDigits 1 c.toNat ++ ['\x7d']
  else [c]

/-- A character between single quotes. -/
def quoteChar (c : Char) : String :=
  String.ofList ('\'' :: quotedForm '\'' c ++ ['\''])

/-- A text between double quotes. -/
def quoteText (s : String) : String :=
  String.ofList ('"' :: s.toList.flatMap (quotedForm '"') ++ ['"'])

end GrammarForge
