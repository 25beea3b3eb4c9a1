import GrammarForge.SortedList

set_option autoImplicit false

/-!
# Move tables

The characters on which an automaton state moves. ASCII characters are a bit set; of the other
characters single ones and inclusive ranges are kept apart, each in ascending order.

## Main definitions

* `MoveTable.addChar`, `MoveTable.addRange` — extend a table.
* `MoveTable.union` — the characters of two tables.
* `MoveTable.canMove` — asking a table for a character.
* `MoveTable.asciiRuns` — the ASCII part as maximal intervals.
-/

namespace GrammarForge

/-- A set of characters to move on. -/
structure MoveTable where
  /-- The ASCII characters, by code. -/
  ascii : BitVec 128 := 0#128
  /-- Single characters beyond ASCII, ascending. -/
  chars : List Char := []
  /-- Inclusive ranges beyond ASCII, ascending. -/
  ranges : List (Char × Char) := []
deriving DecidableEq, Repr, Inhabited

/-- The first character beyond ASCII. -/
def firstWide : Char := Char.ofNat 0x80

namespace MoveTable

/-- Whether the table has no character at all. -/
def isEmpty (t : MoveTable) : Bool :=
  t.ascii = 0#128 && t.chars.isEmpty && t.ranges.isEmpty

/-- Adds the ASCII character with code `n`. -/
def addAscii (t : MoveTable) (n : Nat) : MoveTable :=
  { t with ascii := t.ascii ||| BitVec.twoPow 128 n }

/-- Adds one character. -/
def addChar (t : MoveTable) (c : Char) : MoveTable :=
  if c.toNat < 128 then t.addAscii c.toNat
  else { t with chars := insertSorted compare c t.chars }

/-- Adds the characters from `lo` to `hi` that lie beyond ASCII. -/
def addWide (t : MoveTable) (lo hi : Char) : MoveTable :=
  if hi < lo then t
  else if lo = hi then t.addChar lo
  else { t with ranges := insertSorted comparePairs (lo, hi) t.ranges }

/-- Adds the characters from `lo` to `hi`: the ASCII ones one by one, the others as a range. -/
def addRange (t : MoveTable) (lo hi : Char) : MoveTable :=
  if hi < lo then t
  else
    let narrow := List.range' lo.toNat (min (hi.toNat + 1) 128 - lo.toNat)
    (narrow.foldl addAscii t).addWide (if lo < firstWide then firstWide else lo) hi

/-- The characters of both tables. -/
def union (t u : MoveTable) : MoveTable :=
  let both := { t with ascii := t.ascii ||| u.ascii }
  u.ranges.foldl (fun t r => t.addRange r.1 r.2) (u.chars.foldl addChar both)

/-- One of the two words of 64 bits that make up the bit set of the ASCII characters. -/
def word (t : MoveTable) (w : Nat) : BitVec 64 := t.ascii.extractLsb' (64 * w) 64

/-- **Asks the table for `c`**: for an ASCII character a bit of a word, else the single characters by
binary search, and the ranges one by one. -/
def canMove (t : MoveTable) (c : Char) : Bool :=
  if c.toNat < 128 then
    t.word (c.toNat >>> 6) &&& BitVec.twoPow 64 (c.toNat &&& 63) ≠ 0#64
  else
    t.chars.toArray.binSearchContains c (· < ·) || t.ranges.any fun r => r.1 ≤ c && c ≤ r.2

/-- The maximal runs of set bits among the codes `code`, `code + 1`, … of which `left` remain
below 128; `open?` is the start of a run that reaches up to `code`. -/
def runsFrom (ascii : BitVec 128) : Nat → Nat → Option Nat → List (Nat × Nat)
  | 0, code, some lo => [(lo, code - 1)]
  | 0, _, none => []
  | left + 1, code, open? =>
    if ascii.getLsbD code then runsFrom ascii left (code + 1) (some (open?.getD code))
    else
      match open? with
      | some lo => (lo, code - 1) :: runsFrom ascii left (code + 1) none
      | none => runsFrom ascii left (code + 1) none

/-- The ASCII characters of a table as maximal inclusive runs of codes, ascending. -/
def asciiRuns (t : MoveTable) : List (Nat × Nat) := runsFrom t.ascii 128 0 none

end MoveTable

end GrammarForge
