import GrammarForge.SortedList
import GrammarForge.Text.LetterCase

set_option autoImplicit false

/-!
# Character lists

A character list names a set of characters by single characters and inclusive ranges, or,
negated, the set of all others. Before an automaton is built from a list it is brought to
normal form once: letter case is folded if asked for, a negation is replaced by the list of
all other characters, and the items are sorted with overlapping and adjacent ones joined.

## Main definitions

* `CharItem`, `CharList` — character lists as they are written.
* `CharList.intervals` — the code intervals a list covers, ascending and apart.
* `CharList.foldCase`, `CharList.removeNegation`, `CharList.sort` — the three steps.
* `CharList.normalize` — the normal form, reached once.
-/

namespace GrammarForge

/-- The greatest character code. -/
def maxCode : Nat := 0x10FFFF

/-- The codes from here to `surrogateLast` are no characters. -/
def surrogateFirst : Nat := 0xD800

/-- The last code that is no character. -/
def surrogateLast : Nat := 0xDFFF

/-- One item of a character list. -/
inductive CharItem where
  /-- The character itself. -/
  | single (c : Char)
  /-- All characters from `lo` to `hi`; none if they are the wrong way round. -/
  | range (lo hi : Char)
deriving DecidableEq, Repr

namespace CharItem

/-- The codes of the first and the last character of an item. -/
def bounds : CharItem → Nat × Nat
  | single c => (c.toNat, c.toNat)
  | range lo hi => (lo.toNat, hi.toNat)

/-- Whether an item names the character `c`. -/
def covers (item : CharItem) (c : Char) : Bool :=
  item.bounds.1 ≤ c.toNat && c.toNat ≤ item.bounds.2

/-- The character with a code. -/
def scalar? (n : Nat) : Option Char :=
  if n.isValidChar then some (Char.ofNat n) else none

/-- The item for a code interval, if both bounds are characters. -/
def ofBounds? (b : Nat × Nat) : Option CharItem :=
  (scalar? b.1).bind fun lo => (scalar? b.2).map fun hi =>
    if lo = hi then single lo else range lo hi

/-- The other-case forms that an item lacks: all of a single character's, and those of a
range's characters that lie outside the range. -/
def foldings : CharItem → List CharItem
  | single c => (caseVariants c).map single
  | range lo hi =>
    let inside := casedChars.filter fun c => lo ≤ c && c ≤ hi
    (inside.flatMap fun c => (caseVariants c).filter fun v => v < lo || hi < v).map single

end CharItem

/-- A set of characters, or the set of all others. -/
structure CharList where
  items : List CharItem
  /-- The set holds the characters that are *not* listed. -/
  negated : Bool := false
  /-- The list has been normalized and is left alone from now on. -/
  normalized : Bool := false
deriving DecidableEq, Repr, Inhabited

/-- Joins the open interval `lo … hi` with those intervals of an ascending list that overlap
it or follow it at once. -/
def joinFrom (lo hi : Nat) : List (Nat × Nat) → List (Nat × Nat)
  | [] => [(lo, hi)]
  | (lo', hi') :: rest =>
    if lo' ≤ hi + 1 then joinFrom lo (max hi hi') rest
    else (lo, hi) :: joinFrom lo' hi' rest

/-- Joins overlapping and adjacent intervals of an ascending list. -/
def joinIntervals : List (Nat × Nat) → List (Nat × Nat)
  | [] => []
  | (lo, hi) :: rest => joinFrom lo hi rest

/-- The interval `a … b` without the codes that are no characters. -/
def splitAtSurrogates (a b : Nat) : List (Nat × Nat) :=
  (if a ≤ min b (surrogateFirst - 1) then [(a, min b (surrogateFirst - 1))] else []) ++
    (if max a (surrogateLast + 1) ≤ b then [(max a (surrogateLast + 1), b)] else [])

/-- The character codes from `next` on that an ascending list of intervals leaves out. -/
def gapsFrom (next : Nat) : List (Nat × Nat) → List (Nat × Nat)
  | [] => if next ≤ maxCode then splitAtSurrogates next maxCode else []
  | (lo, hi) :: rest =>
    (if next < lo then splitAtSurrogates next (lo - 1) else []) ++ gapsFrom (hi + 1) rest

namespace CharList

/-- A list as it is written in a token definition. -/
def ofItems (items : List CharItem) (negated : Bool := false) : CharList :=
  ⟨items, negated, false⟩

/-- Whether nothing is listed. -/
def isEmpty (l : CharList) : Bool := l.items.isEmpty

/-- Whether some item names `c`; a negation is not looked at. -/
def lists (l : CharList) (c : Char) : Bool := l.items.any (·.covers c)

/-- The code intervals of the items, ascending, with room between any two. -/
def intervals (l : CharList) : List (Nat × Nat) :=
  joinIntervals (sortedSet comparePairs ((l.items.map CharItem.bounds).filter fun b => b.1 ≤ b.2))

/-- Replaces the items by those for the given intervals. -/
def withIntervals (l : CharList) (bs : List (Nat × Nat)) : CharList :=
  { l with items := bs.filterMap CharItem.ofBounds? }

/-- Adds the other-case forms of all listed characters. -/
def foldCase (l : CharList) : CharList :=
  { l with items := l.items ++ l.items.flatMap CharItem.foldings }

/-- Sorts the items and joins those that overlap or touch. -/
def sort (l : CharList) : CharList := l.withIntervals l.intervals

/-- Replaces a negated list by the list of all other characters. -/
def removeNegation (l : CharList) : CharList :=
  if l.negated then { l.withIntervals (gapsFrom 0 l.intervals) with negated := false } else l

/-- Brings a list to normal form, once. -/
def normalize (ignoreCase : Bool) (l : CharList) : CharList :=
  if l.normalized then l
  else
    let folded := if ignoreCase then l.foldCase else l
    let plain := if folded.negated then folded.removeNegation else folded.sort
    { plain with normalized := true }

end CharList

end GrammarForge
