import GrammarForge.Automaton.Closure
import GrammarForge.Scanner.Tables

set_option autoImplicit false

/-!
# Runtime numbering

A closed automaton is turned into the states of a scan mode. The states with moves that can
become active are numbered in the order of a depth-first search; states that behave alike share
a number. Then the sets of states that become active together are numbered too.

## Main definitions

* `Signature` — what the behaviour of a state depends on.
* `Automaton.activeOrder` — the states with moves that can become active.
* `Numbering` — runtime states and their sets.
* `Automaton.number` — the numbering of a closed automaton.
-/

namespace GrammarForge

/-- What a state does: its moves, the kind that a move completes, and the states active
after a move. -/
structure Signature where
  kind : Option Nat
  moves : MoveTable
  after : Option (List Nat)
deriving DecidableEq, Repr

/-- A numbered state. -/
structure RuntimeState where
  /-- The automaton state it was made from. -/
  source : Nat
  /-- The kind that a move completes. -/
  kind : Option Nat
  /-- The set of states active after a move. -/
  nextSet : Option Nat := none
deriving DecidableEq, Repr, Inhabited

/-- The runtime states of an automaton. -/
structure Numbering where
  /-- The number of each automaton state that has one. -/
  number : Array (Option Nat)
  runtime : Array RuntimeState := #[]
  nextSets : Array (List Nat) := #[]
  composites : Array (List Nat) := #[]
  /-- The state or composite in which a match begins. -/
  initial : Option Nat := none
  /-- For each token, the states in which its own automaton begins. -/
  starts : List (Nat × List Nat) := []
deriving DecidableEq, Repr, Inhabited

/-- The number of the composite at place `k`: composites are numbered after the states. -/
def Numbering.compositeId (n : Numbering) (k : Nat) : Nat := n.runtime.size + k

namespace Automaton

/-- The states active after a move out of state `i`. -/
def afterMove (a : Automaton) (i : Nat) : List Nat :=
  ((a.state i).next.map fun n => (a.state n).epsilon).getD []

/-- The kind completed by a move out of state `i`. -/
def completedKind (a : Automaton) (i : Nat) : Option Nat :=
  (a.state i).next.bind fun n => (a.state n).kind

/-- What state `i` does. -/
def signature (a : Automaton) (i : Nat) : Signature :=
  { kind := a.completedKind i
    moves := (a.state i).moves
    after := (a.state i).next.map fun n => (a.state n).epsilon }

/-- The states with moves that become active when a match begins in one of `roots`, in
depth-first order. -/
def activeOrder (a : Automaton) (roots : List Nat) : List Nat :=
  let moving := fun ids : List Nat => ids.filter fun i => (a.state i).hasMoves
  depthFirst a.size (fun i => moving (a.afterMove i)) (moving roots)

/-- Numbers one more state: like a state of equal signature, or with the next number. -/
def numberState (a : Automaton) (acc : Array Signature × Numbering) (i : Nat) :
    Array Signature × Numbering :=
  let (signatures, n) := acc
  let (k, signatures') := intern signatures (a.signature i)
  let runtime :=
    if k < n.runtime.size then n.runtime
    else n.runtime.push { source := i, kind := a.completedKind i }
  (signatures', { n with number := n.number.setIfInBounds i (some k), runtime })

/-- The numbers of the numbered states among `ids`, ascending. -/
def runtimeSet (n : Numbering) (ids : List Nat) : List Nat :=
  sortedSet compare (ids.filterMap fun i => n.number.getD i none)

/-- Numbers the set of states that become active after runtime state `k`. -/
def numberNextSet (a : Automaton) (n : Numbering) (k : Nat) : Numbering :=
  let set := runtimeSet n (a.afterMove (n.runtime.getD k default).source)
  if set.isEmpty then n
  else
    let (i, nextSets) := intern n.nextSets set
    { n with
      nextSets
      composites := if 1 < set.length then (intern n.composites set).2 else n.composites
      runtime := n.runtime.modify k fun r => { r with nextSet := some i } }

/-- Chooses the state or composite that stands for the states in which a match begins. -/
def numberInitial (n : Numbering) : List Nat → Numbering
  | [] => n
  | [k] => { n with initial := some k }
  | set =>
    let (k, composites) := intern n.composites set
    { n with composites, initial := some (n.compositeId k) }

/-- Numbers a closed automaton. A match begins in the closure of the state `initial`; `starts`
gives the first state of each token's own automaton. -/
def number (a : Automaton) (initial : Nat) (starts : List (Nat × Nat)) : Numbering :=
  let closureOf := fun i => (a.state i).epsilon
  let order := a.activeOrder (closureOf initial ++ starts.flatMap fun s => closureOf s.2)
  let (_, n) := order.foldl a.numberState (#[], { number := Array.replicate a.size none })
  let n := (List.range n.runtime.size).foldl a.numberNextSet n
  let n := { n with starts := starts.map fun s => (s.1, runtimeSet n (closureOf s.2)) }
  numberInitial n (runtimeSet n (closureOf initial))

end Automaton

namespace Numbering

/-- The scan states of a numbered automaton. -/
def scanStates (n : Numbering) (a : Automaton) : Array ScanState :=
  n.runtime.map fun r =>
    { moves := (a.state r.source).moves, kind := r.kind, nextSet := r.nextSet }

end Numbering

end GrammarForge
