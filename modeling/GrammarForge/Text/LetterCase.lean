import GrammarForge.Text.CasedLetters
import GrammarForge.Text.LetterCaseTable
import GrammarForge.Text.Marks

set_option autoImplicit false

/-!
# Letter case

The other-case forms of a character, and the small form of a text.

## Main definitions

* `caseVariants` — the other-case forms of a character that are single characters.
* `casedChars` — every character that has one, in ascending order.
* `lowercase` — a text in small letters; a capital sigma at the end of a word becomes the
  final sigma.
-/

namespace GrammarForge

namespace CaseStretch

/-- The least code of a stretch. -/
def first : CaseStretch → Nat
  | capital first _ _ | small first _ _ | pairs first _ => first
  | title code => code

/-- The greatest code of a stretch. -/
def last : CaseStretch → Nat
  | capital _ last _ | small _ last _ | pairs _ last => last
  | title code => code

/-- Whether `code` lies in the stretch. -/
def covers (s : CaseStretch) (code : Nat) : Bool :=
  s.first ≤ code && code ≤ s.last

/-- The small form of a covered code, if it differs from the code. -/
def lowerOf? (code : Nat) : CaseStretch → Option Nat
  | capital first _ target => some (target + (code - first))
  | small _ _ _ => none
  | pairs first _ => if (code - first) % 2 = 0 then some (code + 1) else none
  | title code => some (code + 1)

/-- The capital form of a covered code, if it differs from the code. -/
def upperOf? (code : Nat) : CaseStretch → Option Nat
  | capital _ _ _ => none
  | small first _ target => some (target + (code - first))
  | pairs first _ => if (code - first) % 2 = 0 then none else some (code - 1)
  | title code => some (code - 1)

/-- The codes of a stretch, ascending. -/
def codes (s : CaseStretch) : List Nat :=
  List.range' s.first (s.last + 1 - s.first)

end CaseStretch

/-- The stretch that `c` belongs to. -/
def caseStretch? (c : Char) : Option CaseStretch :=
  caseStretches.find? (·.covers c.toNat)

/-- The small form of `c`, if it is one character and not `c` itself. -/
def smallForm? (c : Char) : Option Char :=
  (caseStretch? c).bind fun s => (s.lowerOf? c.toNat).map Char.ofNat

/-- The capital form of `c`, if it is one character and not `c` itself. -/
def capitalForm? (c : Char) : Option Char :=
  (caseStretch? c).bind fun s => (s.upperOf? c.toNat).map Char.ofNat

/-- The other-case forms of `c`: the small one, then the capital one. -/
def caseVariants (c : Char) : List Char :=
  (smallForm? c).toList ++ (capitalForm? c).toList

/-- Every character with an other-case form, in ascending order. -/
def casedChars : List Char :=
  (caseStretches.flatMap CaseStretch.codes).map Char.ofNat

/-- A capital letter I with a dot above: its small form is two characters. -/
def dottedCapitalI : Char := Char.ofNat 0x130

/-- The small form of one character away from word ends. -/
def lowercaseChar (c : Char) : List Char :=
  if c = dottedCapitalI then ['i', Char.ofNat 0x307] else [(smallForm? c).getD c]

/-- Whether `c` is a capital, small or title-case letter. -/
def isCased (c : Char) : Bool := casedRanges.has c

/-- Whether `c` is skipped when looking for the neighbouring letter of a sigma. -/
def isWordInner (c : Char) : Bool :=
  nonspacingMarks.has c || formatRanges.has c || modifierRanges.has c || midWordRanges.has c

/-- Whether the first character that counts is a letter with a case. -/
def meetsCased (cs : List Char) : Bool :=
  ((cs.dropWhile isWordInner).head?.map isCased).getD false

/-- Small letters for the text `rest`, where `before` holds what precedes it, nearest first. -/
def lowercaseFrom (before : List Char) : List Char → List Char
  | [] => []
  | c :: rest =>
    let small :=
      if c = Char.ofNat 0x3a3 then
        [if meetsCased before && !meetsCased rest then Char.ofNat 0x3c2 else Char.ofNat 0x3c3]
      else lowercaseChar c
    small ++ lowercaseFrom (c :: before) rest

/-- A text in small letters. -/
def lowercase (s : String) : String :=
  String.ofList (lowercaseFrom [] s.toList)

end GrammarForge
