set_option autoImplicit false

/-!
# Ranges of character codes

Classes of characters are given as ascending lists of ranges of their codes. The modules that
hold such lists state which class of the Unicode standard, version 17, they are.

## Main definitions

* `CodeRanges` — ranges of codes, both ends included.
* `CodeRanges.has` — whether a character lies in one of them.
-/

namespace GrammarForge

/-- Ranges of character codes, both ends included, in ascending order. -/
abbrev CodeRanges := List (Nat × Nat)

/-- Whether `c` lies in one of the ranges. -/
def CodeRanges.has (ranges : CodeRanges) (c : Char) : Bool :=
  ranges.any fun (lo, hi) => lo ≤ c.toNat && c.toNat ≤ hi

end GrammarForge
