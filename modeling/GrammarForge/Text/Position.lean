set_option autoImplicit false

/-!
# Positions and spans in a source text

A position is a line and a column, both counted from one; columns count characters.
A span runs from its first position up to, and not including, its last one.

## Main definitions

* `Position.advance` — the position after reading one character.
* `Position.advanceAll` — the position after reading a whole text.
* `Span.merge` — the least span that covers two others.
-/

namespace GrammarForge

/-- A place in a source text. -/
structure Position where
  /-- Line number, counted from one. -/
  line : Nat
  /-- Column number, counted from one in characters. -/
  column : Nat
deriving DecidableEq, Repr

namespace Position

/-- The position of the first character of a text. -/
def start : Position := ⟨1, 1⟩

instance : Inhabited Position := ⟨start⟩

/-- The position after reading `c`: a line feed opens the next line. -/
def advance (p : Position) (c : Char) : Position :=
  if c = '\n' then ⟨p.line + 1, 1⟩ else ⟨p.line, p.column + 1⟩

/-- The position after reading all of `cs`. -/
def advanceAll (p : Position) (cs : List Char) : Position :=
  cs.foldl advance p

/-- Positions are ordered by line, then by column. -/
def order (p q : Position) : Ordering :=
  (compare p.line q.line).then (compare p.column q.column)

/-- The earlier of two positions. -/
def earlier (p q : Position) : Position :=
  if (q.order p).isLT then q else p

/-- The later of two positions. -/
def later (p q : Position) : Position :=
  if (p.order q).isLT then q else p

/-- How a position is written in messages. -/
def describe (p : Position) : String :=
  s!"line {p.line}, column {p.column}"

/-- No characters lead no further. -/
@[simp]
theorem advanceAll_nil (p : Position) : p.advanceAll [] = p := rfl

/-- Characters are passed one after the other. -/
@[simp]
theorem advanceAll_cons (p : Position) (c : Char) (cs : List Char) :
    p.advanceAll (c :: cs) = (p.advance c).advanceAll cs := rfl

/-- Reading two texts in a row is reading their concatenation. -/
theorem advanceAll_append (p : Position) (cs ds : List Char) :
    p.advanceAll (cs ++ ds) = (p.advanceAll cs).advanceAll ds := by
  simp [advanceAll]

end Position

/-- A stretch of source text, from `first` up to and excluding `last`. -/
structure Span where
  /-- Where the stretch begins. -/
  first : Position
  /-- The position after its final character. -/
  last : Position
deriving DecidableEq, Repr

namespace Span

instance : Inhabited Span := ⟨⟨default, default⟩⟩

/-- The least span covering both `a` and `b`. -/
def merge (a b : Span) : Span :=
  ⟨a.first.earlier b.first, a.last.later b.last⟩

/-- A span is empty when it ends where it begins. -/
def isEmpty (s : Span) : Bool := s.first = s.last

/-- The lines on which the span begins and ends. -/
def lines (s : Span) : Nat × Nat := (s.first.line, s.last.line)

end Span

end GrammarForge
