import GrammarForge.Automaton.Basic
import GrammarForge.DepthFirst

set_option autoImplicit false

/-!
# Epsilon closure

Closing a state replaces its epsilon moves by all useful states that they lead to, directly
or not, and lowers its kind to the lowest one met on the way. A state with moves of its own
belongs to its own closure.

## Main definitions

* `Automaton.reach` — the states an epsilon set leads to.
* `Automaton.closeFrom` — closes the states from a given place on.
* `Automaton.close` — closes all states.
-/

namespace GrammarForge

namespace Automaton

/-- The states of `roots` and all that epsilon moves lead to from there. -/
def reach (a : Automaton) (roots : List Nat) : List Nat :=
  depthFirst a.size (fun i => (a.state i).epsilon) roots

/-- The state `s`, which stands at place `i`, after closing. -/
def closed (a : Automaton) (i : Nat) (s : State) : State :=
  let reached := a.reach s.epsilon
  let useful := reached.filter fun t => t ≠ i && (a.state t).isUseful
  { s with
    epsilon := sortedSet compare (if s.hasMoves then i :: useful else useful)
    kind := reached.foldl (fun k t => leastKind k (a.state t).kind) s.kind }

/-- Closes the states from place `start` on; the states before it are closed already. -/
def closeFrom (a : Automaton) (start : Nat) : Automaton :=
  ⟨a.states.mapIdx fun i s => if i < start then s else a.closed i s⟩

/-- Closes all states. -/
def close (a : Automaton) : Automaton := a.closeFrom 0

end Automaton

end GrammarForge
