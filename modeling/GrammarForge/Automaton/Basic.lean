import GrammarForge.Automaton.MoveTable
import GrammarForge.CompileError

set_option autoImplicit false

/-!
# Nondeterministic automata

The automaton of a lexical state. A state that moves on characters goes on at its `next`
state; besides, states are joined by epsilon moves. A final state carries the ordinal of the
token it accepts as its kind.

## Main definitions

* `State`, `Automaton` — states, and automata as arrays of states.
* `leastKind` — the lower of two token kinds; it decides between tokens of equal length.
* `Automaton.newState`, `Automaton.newFragment`, `Automaton.addEpsilon` — growing an automaton.
* `Automaton.mergeMoves` — adds the moves of one state to another.
-/

namespace GrammarForge

/-- The lower of two kinds, where there are any. -/
def leastKind : Option Nat → Option Nat → Option Nat
  | some a, some b => some (min a b)
  | some a, none => some a
  | none, k => k

/-- A state of an automaton. -/
structure State where
  /-- The characters this state moves on. -/
  moves : MoveTable := {}
  /-- Where a move leads. -/
  next : Option Nat := none
  /-- States active together with this one, ascending. -/
  epsilon : List Nat := []
  /-- Whether a token ends here. -/
  isFinal : Bool := false
  /-- The lowest token kind accepted here or through epsilon moves. -/
  kind : Option Nat := none
deriving DecidableEq, Repr, Inhabited

namespace State

/-- Whether the state moves on some character. -/
def hasMoves (s : State) : Bool := !s.moves.isEmpty

/-- States that matter when a text is scanned: they move or they accept. -/
def isUseful (s : State) : Bool := s.isFinal || s.hasMoves

/-- Lowers the kind to `k`, if `k` is a lower one. -/
def lowerKind (s : State) (k : Option Nat) : State := { s with kind := leastKind s.kind k }

/-- Whether `k` is lower than the state's kind. -/
def isLoweredBy (s : State) (k : Option Nat) : Bool := (s.lowerKind k).kind ≠ s.kind

/-- The state without its epsilon moves. -/
def withoutEpsilon (s : State) : State := { s with epsilon := [] }

/-- Adds the moves, the finality and the kind of `other`. -/
def absorb (s other : State) : State :=
  { (s.lowerKind other.kind) with
    moves := s.moves.union other.moves
    isFinal := s.isFinal || other.isFinal }

/-- Adds an epsilon move. -/
def addEpsilon (s : State) (target : Nat) : State :=
  { s with epsilon := insertSorted compare target s.epsilon }

end State

/-- The first and the last state of the part built for an expression. -/
structure Fragment where
  first : Nat
  last : Nat
deriving DecidableEq, Repr, Inhabited

/-- An automaton; states are known by their places. -/
structure Automaton where
  states : Array State := #[]
deriving DecidableEq, Repr, Inhabited

namespace Automaton

/-- The number of states. -/
def size (a : Automaton) : Nat := a.states.size

/-- A state by its place; elsewhere there is a state without moves. -/
def state (a : Automaton) (i : Nat) : State := a.states.getD i {}

/-- Changes one state. -/
def modify (a : Automaton) (i : Nat) (f : State → State) : Automaton :=
  ⟨a.states.modify i f⟩

/-- Adds a state. -/
def push (a : Automaton) (s : State) : Automaton := ⟨a.states.push s⟩

/-- A new state without moves, with its place. -/
def newState (a : Automaton) : Nat × Automaton := (a.size, a.push {})

/-- Two new states without moves. -/
def newFragment (a : Automaton) : Fragment × Automaton :=
  (⟨a.size, a.size + 1⟩, (a.push {}).push {})

/-- Adds an epsilon move between two states. -/
def addEpsilon (a : Automaton) (source target : Nat) : Automaton :=
  a.modify source (·.addEpsilon target)

/-- Adds the moves, the finality and the kind of `source` to the state `target`, which has to
be another one. -/
def mergeMoves (a : Automaton) (target source : Nat) : Except CompileError Automaton :=
  if target = source then .error .selfMerge
  else .ok (a.modify target (·.absorb (a.state source)))

end Automaton

end GrammarForge
