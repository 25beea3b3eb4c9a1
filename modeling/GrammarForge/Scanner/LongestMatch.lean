import GrammarForge.Automaton.Basic
import GrammarForge.Scanner.Tables

set_option autoImplicit false

/-!
# Longest match

The automaton of a mode is run on a text for as long as some state is active. The match is the
one completed last, hence the longest; of several kinds completed by the same character the
lowest wins. Without any, the mode's kind for the empty text matches.

## Main definitions

* `ScanMode.moving` — the active states that move on a character.
* `ScanMode.step` — one character: the kind completed and the states active next.
* `ScanMode.runFrom`, `ScanMode.longestMatch` — the run on a text.
-/

namespace GrammarForge

/-- A match at the beginning of a text. -/
structure Match where
  kind : Nat
  /-- The number of characters matched. -/
  length : Nat
deriving DecidableEq, Repr

namespace ScanMode

/-- The active states that move on `c`. -/
def moving (m : ScanMode) (active : List Nat) (c : Char) : List Nat :=
  active.filter fun i => (m.state i).moves.canMove c

/-- Reads `c`: the lowest kind that is completed, and the states active afterwards. -/
def step (m : ScanMode) (active : List Nat) (c : Char) : Option Nat × List Nat :=
  let moving := m.moving active c
  (moving.foldl (fun k i => leastKind k (m.state i).kind) none,
    (moving.flatMap m.successors).eraseDups)

/-- Runs the automaton from the states `active`, after `taken` characters of which `best` is
the longest match. The second result counts the characters read. -/
def runFrom (m : ScanMode) (active : List Nat) (taken : Nat) (best : Option Match) :
    List Char → Option Match × Nat
  | [] => (best, taken)
  | c :: cs =>
    if active.isEmpty then (best, taken)
    else
      let (kind, next) := m.step active c
      let best := match kind with
        | some k => some ⟨k, taken + 1⟩
        | none => best
      m.runFrom next (taken + 1) best cs

/-- The longest match at the beginning of a text, and the number of characters read. -/
def longestMatch (m : ScanMode) (text : List Char) : Option Match × Nat :=
  m.runFrom m.initialStates 0 (m.emptyMatch.map fun k => ⟨k, 0⟩) text

end ScanMode

end GrammarForge
