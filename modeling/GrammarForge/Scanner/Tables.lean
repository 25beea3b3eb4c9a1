import GrammarForge.Automaton.MoveTable

set_option autoImplicit false

/-!
# Scan tables

What a scanner needs to split a text into tokens. Every lexical mode has an automaton of its
own, whose states consume one character each: a state that moves on a character completes a
match of its kind, if it has one, and makes the states of its next set active.

## Main definitions

* `TokenAction`, `KindInfo` — what is done with a match.
* `ScanState`, `ScanMode`, `ScanTables` — the automata of the modes.
* `ScanMode.seeds` — the plain states that a state or composite number stands for.
-/

namespace GrammarForge

/-- What the scanner does with a matched text. -/
inductive TokenAction where
  /-- Return it as a token. -/
  | token
  /-- Discard it. -/
  | skip
  /-- Keep it as the beginning of the next match. -/
  | more
  /-- Attach it to the next token. -/
  | special
deriving DecidableEq, Repr, Inhabited

/-- How an action is spelled in token definitions. -/
def TokenAction.spelling : TokenAction → String
  | token => "TOKEN"
  | skip => "SKIP"
  | more => "MORE"
  | special => "SPECIAL_TOKEN"

/-- What happens to matches of one kind. -/
structure KindInfo where
  label : String
  action : TokenAction := .token
  /-- The mode to enter after a match. -/
  nextMode : Option Nat := none
deriving DecidableEq, Repr, Inhabited

/-- A state of a mode's automaton. -/
structure ScanState where
  moves : MoveTable := {}
  /-- The kind of match that a move completes. -/
  kind : Option Nat := none
  /-- The set of states that a move makes active. -/
  nextSet : Option Nat := none
deriving DecidableEq, Repr, Inhabited

/-- The automaton of a lexical mode. -/
structure ScanMode where
  name : String := ""
  states : Array ScanState := #[]
  nextSets : Array (List Nat) := #[]
  /-- Sets of states that count as one; they are numbered after the states. -/
  composites : Array (List Nat) := #[]
  /-- The state or composite that is active when a match begins. -/
  initial : Option Nat := none
  /-- The kind that matches the empty text. -/
  emptyMatch : Option Nat := none
  /-- The mode to enter at the end of the input. -/
  eofNextMode : Option Nat := none
deriving DecidableEq, Repr, Inhabited

/-- The automata of all modes and the treatment of all kinds. -/
structure ScanTables where
  modes : Array ScanMode := #[]
  kinds : Array KindInfo := #[]
  startMode : Nat := 0
deriving DecidableEq, Repr, Inhabited

namespace ScanMode

/-- The states that the number `id` stands for. -/
def seeds (m : ScanMode) (id : Nat) : List Nat :=
  if id < m.states.size then [id] else m.composites.getD (id - m.states.size) []

/-- The states that are active when a match begins. -/
def initialStates (m : ScanMode) : List Nat :=
  (m.initial.map m.seeds).getD []

/-- A state by its number; elsewhere there is a state without moves. -/
def state (m : ScanMode) (i : Nat) : ScanState := m.states.getD i {}

/-- The states that a move out of state `i` makes active. -/
def successors (m : ScanMode) (i : Nat) : List Nat :=
  ((m.state i).nextSet.map fun k => m.nextSets.getD k []).getD []

end ScanMode

end GrammarForge
